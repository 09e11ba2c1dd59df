/-
# The newest member of a merge

Woven code keeps one local for each merge, and puts the point of a member there when the member
comes: a member that an instruction makes comes when the instruction is done, and a merge that is a
member of another one comes when its join is entered.  So what is read there is the point of the
member that came last, whichever value of the merge one has in hand.

`MergeIndex.Newest` says which member this is, in terms of what happened in the run.  A member that
is a merge again stands for its own newest member.  `Plan.StoresNewest` is what becomes of it at a
store site: the point that is stored for a merge is null or that of the newest member.  It is exact
if the value, too, is that of the newest member (`Plan.PointOf.exact`).
-/
import Provenance.Proofs.Noting

namespace Provenance

/-! ## 1. What happens -/

/-- What happens while a woven method runs. -/
inductive Happening where
  /-- The block of an instruction is entered. -/
  | entered (e : Execution)
  /-- The instruction of the block is done. -/
  | did (e : Execution)
  deriving DecidableEq, Repr

namespace Happening

/-- With these executions, the latest first, all over, what has happened. -/
def past : List Execution → List Happening
  | [] => []
  | e :: es => .did e :: .entered e :: past es

/-- With the latest of them under way. -/
def now : List Execution → List Happening
  | [] => []
  | e :: es => .entered e :: past es

/-- What comes when it happens: a merge whose join is entered, or a value that an instruction makes.
-/
inductive Brings : Happening → FlowValue → Prop where
  | join {e : Execution} {t : Ty} {inner : MergeSlot} (h : inner.insn = e.insn) :
      Brings (.entered e) (.merged t inner)
  | made {e : Execution} {v : FlowValue} (hv : ∀ t s, v ≠ .merged t s)
      (h : v.creation? = some e.insn) : Brings (.did e) v

/-- The latest execution of an instruction. -/
def latest? : List Happening → Nat → Option Execution
  | [], _ => none
  | .did _ :: evs, k => latest? evs k
  | .entered e :: evs, k => if e.insn = k then some e else latest? evs k

theorem insn_of_latest? {k : Nat} {e : Execution} : ∀ {evs : List Happening},
    latest? evs k = some e → e.insn = k
  | .did _ :: evs, h => insn_of_latest? (show latest? evs k = some e from h)
  | .entered e' :: evs, h => by
    unfold latest? at h
    split at h
    · rename_i hk
      exact Option.some.inj h ▸ hk
    · exact insn_of_latest? h

end Happening

open Happening (latest?)

/-! ## 2. The newest member -/

/-- The newest member of a merge: how it is defined, and in which execution, if that is one of an
instruction.  Members that came together are equally new. -/
inductive MergeIndex.Newest (x : MergeIndex) :
    List Happening → MergeSlot → Definition → Option Execution → Prop where
  | stays {ev : Happening} {evs : List Happening} {s : MergeSlot} {d : Definition}
      {e : Option Execution} (h : ∀ v ∈ x.members s, ¬ev.Brings v) (hn : Newest x evs s d e) :
      Newest x (ev :: evs) s d e
  | inner {ev : Happening} {evs : List Happening} {s inner : MergeSlot} {v : FlowValue} {t : Ty}
      {d : Definition} {e : Option Execution} (hv : v ∈ x.members s) (h : ev.Brings v)
      (hb : v.base = .merged t inner) (hn : Newest x (ev :: evs) inner d e) :
      Newest x (ev :: evs) s d e
  | made {ev : Happening} {evs : List Happening} {s : MergeSlot} {v : FlowValue} {d : Definition}
      (hv : v ∈ x.members s) (h : ev.Brings v) (hd : v.definition? = some d) :
      Newest x (ev :: evs) s d (d.insn?.bind (latest? (ev :: evs)))

variable {x : MergeIndex} {evs : List Happening} {s : MergeSlot} {d : Definition}
  {e : Option Execution} {p : Plan} {point value : Origin}

/-- The execution is one of the instruction that defines the member. -/
theorem MergeIndex.Newest.insn (h : x.Newest evs s d e) {k : Nat} {e' : Execution}
    (hk : d.insn? = some k) (he : e = some e') : e'.insn = k := by
  induction h with
  | stays _ _ ih | inner _ _ _ _ ih => exact ih hk he
  | made =>
    rw [hk] at he
    exact Happening.insn_of_latest? he

/-! ## 3. Points and values of definitions -/

/-- The point for what a definition gave in an execution. -/
def Plan.PointOf (p : Plan) (d : Definition) (e : Option Execution) (point : Origin) : Prop :=
  match d with
  | .literal k => ∃ c, p.constants.lookup k = some c ∧ point = .place c
  | .read _ => ∃ e', e = some e' ∧ point = .readPoint e'
  | .result _ => ∃ e', e = some e' ∧ point = .returnPoint e'
  | .parameter n => point = .argumentPoint n

/-- What a definition gave in an execution; a literal may have been converted since. -/
def Definition.Gave (d : Definition) (e : Option Execution) (value : Origin) : Prop :=
  match d with
  | .literal _ => ∃ e', e = some e' ∧ (value = .literal e' ∨ value = .result e')
  | .read _ | .result _ => ∃ e', e = some e' ∧ value = .result e'
  | .parameter n => value = .parameter n

/-- **The point of the newest member is exact** for the newest member. -/
theorem Plan.PointOf.exact (h : p.PointOf d e point) (hn : x.Newest evs s d e)
    (hv : d.Gave e value) :
    p.Exact point value d := by
  cases d with
  | literal k =>
    obtain ⟨e', he, hvalue⟩ := hv
    obtain ⟨c, hc, hpoint⟩ := h
    exact ⟨e', c, hn.insn rfl he, hvalue, hc, hpoint⟩
  | read k | result k =>
    obtain ⟨e', he, hvalue⟩ := hv
    obtain ⟨e'', he', hpoint⟩ := h
    obtain rfl := Option.some.inj (he.symm.trans he')
    exact ⟨e', hn.insn rfl he, hvalue, hpoint⟩
  | parameter n => exact ⟨hv, h⟩

/-! ## 4. What is stored for merges -/

/-- Where the values of an activation came from, and which executions there have been. -/
structure Trail where
  origins : Origins
  /-- The executions that have begun, the latest first. -/
  begun : List Execution

/-- Keeping the trail of a woven method. -/
def Noting.trail (m : Method) : Noting Trail where
  start := ⟨.start m, []⟩
  enter k g := ⟨g.origins.enter k, (g.origins.enter k).here :: g.begun⟩
  after i g := ⟨g.origins.after i, g.begun⟩

/-- Whatever points a hook stores, as far as the analysis describes the value by a merge, they are
null or those of the newest members of the merges, and in that case exact if the value is the newest
member. -/
def Plan.StoresNewest (p : Plan) (m : Method) (a : Analysis) (g : Trail) (stack : List Value)
    (h : Hook) : Prop :=
  ∀ i f, m.insns[g.origins.here.insn]? = some i → a.frame? g.origins.here.insn = some f →
    ∀ s ∈ i.stores h, ∀ t slot, (f.top s.operand).base = .merged t slot →
      stack[s.point]? = some .null ∨
        ∃ d e, a.merges.Newest (Happening.now g.begun) slot d e ∧
        p.PointOf d e (g.origins.stack s.point) ∧
          (d.Gave e (g.origins.stack s.value) →
            p.Exact (g.origins.stack s.point) (g.origins.stack s.value) d)

end Provenance
