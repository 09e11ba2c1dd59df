/-
# Running code keeps what is registered

Code makes trackers and records where values came from.  It does not change the list of tables, and
what an origin holds is not taken from it.  So every literal stands where it was put, whatever
instructions, hooks and natives are executed meanwhile (`Store.kept_invariant`), to the end of a
run, however it goes (`Program.invoke_keeps`).
-/
import Provenance.Proofs.Limits
import Provenance.Proofs.Owning
import Provenance.Proofs.Tabulating
import Provenance.Proofs.Upholding

namespace Provenance

namespace Store

variable {s s' : Store}

theorem OnlyTracks.tables (h : s.OnlyTracks s') : s'.tables = s.tables := by
  obtain ⟨_, _, _, rfl⟩ := h
  rfl

theorem Kept.of_grows (htables : s'.tables = s.tables)
    (hgrows : ∀ id, s.ledger.Grows s'.ledger id) : s.Kept s' :=
  ⟨htables ▸ List.prefix_refl _, fun _ _ => hgrows _⟩

theorem Kept.of_same (htables : s'.tables = s.tables)
    (hledger : s'.ledger = s.ledger) : s.Kept s' :=
  .of_grows htables fun _ => hledger ▸ .refl _ _

theorem kept_trackerOf (s : Store) (alive : ObjectId → Bool) (o : ObjectId) :
    s.Kept (s.trackerOf alive o).2 :=
  .of_same (onlyTracks_trackerOf s alive o).tables (forgets_trackerOf s alive o).ledger

theorem kept_ensureTracker (s : Store) (alive : ObjectId → Bool) (o : ObjectId) :
    s.Kept (s.ensureTracker alive o).2 := by
  refine .of_grows (onlyTracks_ensureTracker s alive o).tables fun id => ?_
  unfold ensureTracker
  split
  · split
    · exact .of_same (congrFun (congrArg Ledger.tracker? (forgets_tick s alive).ledger) id)
    · refine (Ledger.Grows.add s.ledger (.new .default [] none) id).trans (.of_same ?_)
      exact congrFun (congrArg Ledger.tracker? (forgets_tick _ alive).ledger) id
  · exact .refl _ id

theorem kept_onTracker (s : Store) (alive : ObjectId → Bool) (o : ObjectId) (index length : Nat)
    (source : Option TrackerId) (sourceIndex : Nat) :
    s.Kept (s.onTracker alive o fun id l => l.setSource id index length source sourceIndex).2 := by
  have hensure := kept_ensureTracker s alive o
  unfold onTracker
  generalize s.ensureTracker alive o = r at hensure ⊢
  obtain ⟨id?, u⟩ := r
  cases id? with
  | none => exact hensure
  | some id =>
    simp only [onLedger]
    cases hl : u.ledger.setSource id index length source sourceIndex with
    | ok l => exact hensure.trans (.of_grows rfl fun _ => .setSource hl)
    | error e => exact hensure

/-- **Recording** takes nothing from what is registered. -/
theorem kept_setSource (s : Store) (alive : ObjectId → Bool) (o : ObjectId) (index length : Nat)
    (source : Option TrackerId) (sourceIndex : Nat) :
    s.Kept (s.setSource alive o index length source sourceIndex).2 := by
  have htracker := kept_trackerOf s alive o
  obtain h | ⟨-, ⟨-, h⟩ | h⟩ := setSource_cases s alive o index length source sourceIndex
  · rw [h]
    exact kept_onTracker s alive o index length source sourceIndex
  · rw [h]
    exact htracker
  · rw [h]
    exact htracker.trans (kept_onTracker _ alive o index length source sourceIndex)

theorem kept_setFieldPoint (s : Store) (o : ObjectId) (key : String) (point : Option Point) :
    s.Kept (s.setFieldPoint o key point) := by
  unfold setFieldPoint
  repeat' split
  all_goals exact .of_same rfl rfl

/-- **No instruction takes anything** from what is registered. -/
theorem kept_invariant (s : Store) : World.Invariant fun w => s.Kept w.store where
  literals _ h := h
  string _ h := h
  records _ _ h := h.trans (.of_same rfl rfl)
  tracker alive o h := h.trans (kept_trackerOf _ alive o)
  newArray _ _ h := h
  duplicate h _ := h
  putElement _ _ _ h := h
  copyRange h _ := h
  putField h _ := h
  source alive o index length source sourceIndex h :=
    h.trans (kept_setSource _ alive o index length source sourceIndex)
  fieldPoint o key point h := h.trans (kept_setFieldPoint _ o key point)

end Store

/-- **A run keeps what is registered**, whatever it runs and however it ends. -/
theorem Program.invoke_keeps {s : Store} {p : Program} (hp : p.natives = Native.builtIn)
    (limits : MachineSettings) {w : World} (h : s.Kept w.store) (owner name descriptor : String)
    (args : List Value) : s.Kept (p.invoke limits w owner name descriptor args).world.store := by
  have hinvariant := Store.kept_invariant s
  obtain ⟨executed, hrun⟩ := p.exists_invokes limits w owner name descriptor args
  exact (hinvariant.invokes (hp ▸ Native.builtIn_upholds hinvariant) hrun h).2

end Provenance
