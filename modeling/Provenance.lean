import Provenance.Code.Constant
import Provenance.Code.Insn
import Provenance.Code.Listing
import Provenance.Code.Method
import Provenance.Code.Signature
import Provenance.Code.Stored
import Provenance.Code.Ty
import Provenance.Code.View
import Provenance.Flow.Carrier
import Provenance.Flow.Error
import Provenance.Flow.Frame
import Provenance.Flow.Graph
import Provenance.Flow.Height
import Provenance.Flow.Merge
import Provenance.Flow.Solver
import Provenance.Flow.Value
import Provenance.Flow.View
import Provenance.Json.Basic
import Provenance.Json.Decode
import Provenance.Json.Printer
import Provenance.Json.Reader
import Provenance.Machine.Arith
import Provenance.Machine.Bench
import Provenance.Machine.Error
import Provenance.Machine.Heap
import Provenance.Machine.Hook
import Provenance.Machine.Liveness
import Provenance.Machine.Native
import Provenance.Machine.Program
import Provenance.Machine.Run
import Provenance.Machine.Settings
import Provenance.Machine.Value
import Provenance.Machine.View
import Provenance.Machine.World
import Provenance.Main
import Provenance.Number.Binary
import Provenance.Number.Numeral
import Provenance.Number.Power
import Provenance.Number.Shortest
import Provenance.Proofs.Abreast
import Provenance.Proofs.Absorbing
import Provenance.Proofs.Adding
import Provenance.Proofs.Aligning
import Provenance.Proofs.Attributing
import Provenance.Proofs.Bounded
import Provenance.Proofs.Chronicle
import Provenance.Proofs.Claiming
import Provenance.Proofs.CommonTypes
import Provenance.Proofs.Concatenating
import Provenance.Proofs.Conversing
import Provenance.Proofs.Copying
import Provenance.Proofs.Counterparts
import Provenance.Proofs.Covering
import Provenance.Proofs.Deciding
import Provenance.Proofs.Decoding
import Provenance.Proofs.Descriptors
import Provenance.Proofs.Drawing
import Provenance.Proofs.Edges
import Provenance.Proofs.Effect
import Provenance.Proofs.ElementHistory
import Provenance.Proofs.ElementPoints
import Provenance.Proofs.Failing
import Provenance.Proofs.Fates
import Provenance.Proofs.FieldPoints
import Provenance.Proofs.FieldSparing
import Provenance.Proofs.Filling
import Provenance.Proofs.Filtering
import Provenance.Proofs.Fitting
import Provenance.Proofs.FixedPoint
import Provenance.Proofs.Flatness
import Provenance.Proofs.Following
import Provenance.Proofs.Forgetting
import Provenance.Proofs.Grounding
import Provenance.Proofs.Growing
import Provenance.Proofs.Guarding
import Provenance.Proofs.Guiding
import Provenance.Proofs.Handing
import Provenance.Proofs.Harmless
import Provenance.Proofs.Heights
import Provenance.Proofs.HookEffects
import Provenance.Proofs.HooksInWords
import Provenance.Proofs.InStep
import Provenance.Proofs.Inserting
import Provenance.Proofs.Instrumenting
import Provenance.Proofs.Interning
import Provenance.Proofs.Joining
import Provenance.Proofs.Keeping
import Provenance.Proofs.Lasting
import Provenance.Proofs.Layout
import Provenance.Proofs.LeavingAlone
import Provenance.Proofs.Legible
import Provenance.Proofs.Levels
import Provenance.Proofs.Limits
import Provenance.Proofs.Living
import Provenance.Proofs.Lowering
import Provenance.Proofs.Measuring
import Provenance.Proofs.Merging
import Provenance.Proofs.Mirroring
import Provenance.Proofs.Moving
import Provenance.Proofs.Namesakes
import Provenance.Proofs.Narrowing
import Provenance.Proofs.Newest
import Provenance.Proofs.NormalForm
import Provenance.Proofs.Noting
import Provenance.Proofs.Nulls
import Provenance.Proofs.Operands
import Provenance.Proofs.Orders
import Provenance.Proofs.Origins
import Provenance.Proofs.Overwriting
import Provenance.Proofs.Owning
import Provenance.Proofs.Pairs
import Provenance.Proofs.PartMap
import Provenance.Proofs.Performing
import Provenance.Proofs.Pervading
import Provenance.Proofs.Placing
import Provenance.Proofs.Planned
import Provenance.Proofs.PlannedOnce
import Provenance.Proofs.Planning
import Provenance.Proofs.Pointing
import Provenance.Proofs.Possible
import Provenance.Proofs.Preservation
import Provenance.Proofs.Proceeding
import Provenance.Proofs.Providing
import Provenance.Proofs.Purging
import Provenance.Proofs.Quoting
import Provenance.Proofs.Reaching
import Provenance.Proofs.Recalling
import Provenance.Proofs.Recording
import Provenance.Proofs.Registering
import Provenance.Proofs.Remerging
import Provenance.Proofs.Renaming
import Provenance.Proofs.Renewing
import Provenance.Proofs.Replacing
import Provenance.Proofs.Rereading
import Provenance.Proofs.Resolving
import Provenance.Proofs.Reweaving
import Provenance.Proofs.Rewriting
import Provenance.Proofs.SameWorld
import Provenance.Proofs.SelfContained
import Provenance.Proofs.Settling
import Provenance.Proofs.Simulation
import Provenance.Proofs.Slots
import Provenance.Proofs.Snapshots
import Provenance.Proofs.Sparing
import Provenance.Proofs.Standing
import Provenance.Proofs.Storing
import Provenance.Proofs.StraightLine
import Provenance.Proofs.Succeeding
import Provenance.Proofs.Suspension
import Provenance.Proofs.Tabulating
import Provenance.Proofs.Taking
import Provenance.Proofs.Terminating
import Provenance.Proofs.Tracing
import Provenance.Proofs.Turning
import Provenance.Proofs.Upholding
import Provenance.Proofs.Upright
import Provenance.Proofs.Weaving
import Provenance.Proofs.Wordwise
import Provenance.Store.Basic
import Provenance.Store.Calls
import Provenance.Store.Fields
import Provenance.Store.Ledger
import Provenance.Store.Literals
import Provenance.Store.Part
import Provenance.Store.Repository
import Provenance.Store.Settings
import Provenance.Store.Table
import Provenance.Store.Tracker
import Provenance.Store.View
import Provenance.Store.WeakMap
import Provenance.Store.Words
import Provenance.Text.Blank
import Provenance.Text.Quoted
import Provenance.Text.Shapeless
import Provenance.Text.Utf8
import Provenance.Tool.Argument
import Provenance.Tool.Command
import Provenance.Tool.Error
import Provenance.Tool.Files
import Provenance.Tool.Folder
import Provenance.Tool.Logged
import Provenance.Tool.Notice
import Provenance.Tool.Options
import Provenance.Tool.Rehearsal
import Provenance.Tool.Run
import Provenance.Tool.Weave
import Provenance.Weave.Filter
import Provenance.Weave.Plan
import Provenance.Weave.Settings
import Provenance.Weave.Site
import Provenance.Weave.View
import Provenance.Weave.Weaver
