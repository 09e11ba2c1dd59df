/-
# Values lead to instructions that are reached

Planning puts code beside the instructions that a value names: beside the one that made it, those
that moved or converted it, and the one before which values met.  All of these have a frame, so
planning never asks for the height of the stack at an instruction that is not reached
(`Analysis.Grounded`).  It comes out of the induction that showed the frames to be a fixed point,
and with it that the greatest height that the analysis reports is one: no stack before or after an
instruction that is reached is higher.
-/
import Provenance.Proofs.FixedPoint
import Provenance.Proofs.Heights

namespace Provenance

/-! ## 1. The instructions that a value names -/

namespace FlowValue

/-- The instructions that a value names. -/
def places : FlowValue → List Nat
  | .constant _ k _ | .element _ k | .field _ k _ | .returned _ k => [k]
  | .cast _ k v => k :: v.places
  | .copy k v => k :: v.places
  | .merged _ slot => [slot.insn]
  | .untrackable _ | .argument _ _ => []

theorem mem_places_of_creation {v : FlowValue} {k : Nat} (h : v.creation? = some k) :
    k ∈ v.places := by
  cases v <;> simp_all [creation?, places]

theorem base_places (v : FlowValue) : v.base.places ⊆ v.places := by
  induction v with
  | cast t k v ih => exact fun j hj => List.mem_cons_of_mem k (ih hj)
  | copy k v ih => exact fun j hj => List.mem_cons_of_mem k (ih hj)
  | _ => exact fun j hj => hj

theorem mem_places_moved {v : FlowValue} {j k : Nat} (h : j ∈ (v.moved k).places) :
    j = k ∨ j ∈ v.places := by
  cases v with
  | untrackable t => exact absurd h List.not_mem_nil
  | _ => exact List.mem_cons.mp h

@[simp] theorem places_retyped (t : Ty) (v : FlowValue) : (v.retyped t).places = v.places := by
  induction v with
  | copy k v ih => exact congrArg (k :: ·) ih
  | _ => rfl

end FlowValue

/-- An instruction leaves only values that name it, or what the values before it name. -/
theorem Frame.after_places {P : Nat → Prop} {k : Nat} {i : Insn} {f g : Frame}
    (h : f.after k i = .ok g) (hk : P k) (hf : f.All fun v => ∀ j ∈ v.places, P j) :
    g.All fun v => ∀ j ∈ v.places, P j := by
  refine after_leads h ?_ hf
  exact
    { kept := fun v hv => hv
      moved := fun v hv j hj => (FlowValue.mem_places_moved hj).elim (fun h => h ▸ hk) (hv j)
      retyped := fun t v _ hv => by simpa using hv
      cast := fun t v _ _ hv => List.forall_mem_cons.mpr ⟨hk, hv⟩
      unknown := fun t j hj => absurd hj List.not_mem_nil
      fresh := fun v hv j hj => by
        cases hv <;> exact List.mem_singleton.mp hj ▸ hk }

/-! ## 2. The solver -/

namespace Solver

variable {m : Method} {g : FlowGraph} {s s' : Solver}

/-- Whether every instruction that a value names has a frame. -/
def Knows (s : Solver) (v : FlowValue) : Prop := ∀ k ∈ v.places, (s.frame? k).isSome

/-- Only instructions that are reached have frames, and values name only such instructions. -/
structure Grounded (g : FlowGraph) (s : Solver) : Prop where
  reached : ∀ k f, s.frame? k = some f → k ∈ g.reached
  frames : ∀ k f, s.frame? k = some f → f.All s.Knows
  members : ∀ slot, ∀ v ∈ s.merges.members slot, s.Knows v

theorem Knows.grows {v : FlowValue} (h : s.Knows v) (hg : s.Grows s') : s'.Knows v := by
  intro k hk
  obtain ⟨f, hf⟩ := Option.isSome_iff_exists.mp (h k hk)
  obtain ⟨f', hf', -⟩ := hg.frames k f hf
  simp [hf']

theorem all_knows_grows {f : Frame} (h : f.All s.Knows) (hg : s.Grows s') : f.All s'.Knows :=
  ⟨fun v hv => (h.locals v hv).grows hg, fun v hv => (h.stack v hv).grows hg⟩

/-- The state in which the frame of one instruction is another one. -/
theorem Grounded.set (h : Grounded g s) (hg : s.Grows s') {target : Nat} (ht : target ∈ g.reached)
    {arriving : Frame} (hall : arriving.All s'.Knows)
    (hframe : ∀ k f, s'.frame? k = some f → s.frame? k = some f ∨ (k = target ∧ f = arriving))
    (hmembers : ∀ slot, ∀ v ∈ s'.merges.members slot, s'.Knows v) : Grounded g s' where
  reached k f hf := by
    rcases hframe k f hf with hf | ⟨rfl, -⟩
    · exact h.reached k f hf
    · exact ht
  frames k f hf := by
    rcases hframe k f hf with hf | ⟨-, rfl⟩
    · exact all_knows_grows (h.frames k f hf) hg
    · exact hall
  members := hmembers

/-- **Carrying a frame over an edge.** -/
theorem arrive_grounded {out : Frame} {target : Nat} (h : s.arrive out target = .ok s')
    (hs : WellMade m s) (hout : Outgoing m s out) (ht : target < m.insns.length)
    (hreached : target ∈ g.reached) (hknows : out.All s.Knows) (hgr : Grounded g s) :
    Grounded g s' := by
  obtain ⟨hgrows, -, f, hf, -⟩ := arrive_spec h hs hout ht
  have hlt : target < s.frames.length := hs.size ▸ ht
  have hhere : (s'.frame? target).isSome := by simp [hf]
  unfold arrive at h
  cases hk : s.frame? target with
  | none =>
    have hk' : (s.frames[target]?).join = none := hk
    simp only [hk', Except.ok.injEq] at h
    subst h
    exact hgr.set hgrows hreached (all_knows_grows hknows hgrows)
      (fun j f' hj => frame?_of_set hlt hj)
      fun slot v hv => (hgr.members slot v hv).grows hgrows
  | some known =>
    have hk' : (s.frames[target]?).join = some known := hk
    simp only [hk'] at h
    cases hm : mergeFrames target s.merges known out with
    | error e => simp [hm] at h
    | ok r =>
      obtain ⟨merged, merges⟩ := r
      have hmerge := mergeFrames_spec hm ((hs.locals _ _ hk).trans hout.locals.symm)
      have hknown := all_knows_grows (hgr.frames target known hk) hgrows
      have hout' := all_knows_grows hknows hgrows
      have hmembers : ∀ slot, ∀ v ∈ merges.members slot, s'.Knows v :=
        hmerge.members _ hknown hout' fun slot v hv => (hgr.members slot v hv).grows hgrows
      have hall : merged.All s'.Knows :=
        hmerge.values _
        (fun t slot hslot j hj => by rw [List.mem_singleton.mp hj, hslot]; exact hhere)
          (fun t j hj => absurd hj List.not_mem_nil) hknown hout'
      simp only [hm] at h
      split at h
      all_goals
        simp only [Except.ok.injEq] at h
        subst h
      · exact hgr.set hgrows hreached hall (fun j f' hj => .inl hj) hmembers
      · exact hgr.set hgrows hreached hall (fun j f' hj => frame?_of_set hlt hj) hmembers

theorem arrive_maxStack {out : Frame} {target : Nat} (h : s.arrive out target = .ok s') :
    s'.maxStack = s.maxStack := by
  unfold arrive at h
  split at h
  · rw [← Except.ok.inj h]
  · split at h
    · exact absurd h (by simp)
    · split at h <;> rw [← Except.ok.inj h]

theorem arriveAll_grounded {out : Frame} : ∀ {targets : List Nat} {s s' : Solver},
    s.arriveAll out targets = .ok s' → WellMade m s → Outgoing m s out →
    (∀ t ∈ targets, t < m.insns.length ∧ t ∈ g.reached) → out.All s.Knows → Grounded g s →
    Grounded g s' ∧ s'.maxStack = s.maxStack := by
  intro targets
  induction targets with
  | nil =>
    intro s s' h _ _ _ _ hgr
    simp only [arriveAll, Except.ok.injEq] at h
    exact h ▸ ⟨hgr, rfl⟩
  | cons target rest ih =>
    intro s s' h hs hout hlt hknows hgr
    obtain ⟨⟨ht, hreached⟩, hrest⟩ := List.forall_mem_cons.mp hlt
    unfold arriveAll at h
    cases ha : s.arrive out target with
    | error e => simp [ha] at h
    | ok s₁ =>
      simp only [ha] at h
      obtain ⟨hgrows, hs₁, -⟩ := arrive_spec ha hs hout ht
      obtain ⟨hgr', hmax⟩ := ih h hs₁ (hout.grows hgrows) hrest (all_knows_grows hknows hgrows)
        (arrive_grounded ha hs hout ht hreached hknows hgr)
      exact ⟨hgr', hmax.trans (arrive_maxStack ha)⟩

/-- No stack before or after an instruction that need not be visited again is higher than the
greatest one so far. -/
def Measured (m : Method) (s : Solver) : Prop :=
  ∀ k i f, m.insns[k]? = some i → s.frame? k = some f → k ∉ s.waiting →
    f.stack.length ≤ s.maxStack ∧ f.stack.length - i.pops + i.pushes ≤ s.maxStack

/-- **A visit** looks at the heights of its instruction; frames that change are to be visited. -/
theorem visit_grounded {k : Nat} {waiting : List Nat} (hg : FlowGraph.ofMethod m = .ok g)
    (h : visit m g { s with waiting } k = .ok s') (hwaiting : ∀ j ∈ s.waiting, j = k ∨ j ∈ waiting)
    (hs : WellMade m s) (hgr : Grounded g s) (hm : Measured m s) :
    Grounded g s' ∧ Measured m s' := by
  have hgraph := FlowGraph.ofMethod_describes hg
  obtain ⟨-, hclosed, -⟩ := FlowGraph.ofMethod_reached hg
  have hs₀ : WellMade m { s with waiting } :=
    ⟨hs.size, hs.locals, hs.frames, hs.members, hs.unstale⟩
  obtain ⟨hgrows, -, -⟩ := visit_spec h hgraph hs₀
  -- what need not be visited again has the frame that it had, and only `k` was taken
  have hsame : ∀ j, j ∉ s'.waiting → s'.frame? j = s.frame? j := fun j hj =>
    Classical.byContradiction fun hne => hj (hgrows.changed j hne)
  have hstill : ∀ j, j ∉ s'.waiting → j ≠ k → j ∉ s.waiting := fun j hj hne hwait =>
    hj (hgrows.waiting j ((hwaiting j hwait).resolve_left hne))
  unfold visit at h
  simp only at h
  split at h
  · rename_i i f hi hf
    have hf' : s.frame? k = some f := hf
    cases hafter : f.after k i with
    | error e => simp [hafter] at h
    | ok out =>
      simp only [hafter] at h
      have hout := hs.outgoing hi hf' hafter
      have hknows : out.All s.Knows :=
        Frame.after_places (P := fun j => (s.frame? j).isSome) hafter (by simp [hf'])
          (hgr.frames k f hf')
      obtain ⟨hgr', hmax⟩ := arriveAll_grounded (g := g) h
        ⟨hs.size, hs.locals, hs.frames, hs.members, hs.unstale⟩
        ⟨hout.locals, hout.madeIn, hout.reached⟩
        (fun t ht => ⟨hgraph.next_lt ht, hclosed k (hgr.reached k f hf') t ht⟩) hknows
        ⟨hgr.reached, hgr.frames, hgr.members⟩
      simp only at hmax
      refine ⟨hgr', fun j x f' hj hf₁ hwait => ?_⟩
      rw [hmax]
      rw [hsame j hwait] at hf₁
      by_cases hjk : j = k
      · subst hjk
        obtain rfl := Option.some.inj (hi.symm.trans hj)
        obtain rfl := Option.some.inj (hf'.symm.trans hf₁)
        omega
      · have := hm j x f' hj hf₁ (hstill j hwait hjk)
        omega
  · rename_i hnone
    obtain rfl := Except.ok.inj h
    refine ⟨⟨hgr.reached, hgr.frames, hgr.members⟩, fun j x f hj hf hwait => ?_⟩
    by_cases hjk : j = k
    · subst hjk
      exact absurd hf (hnone x f hj)
    · exact hm j x f hj hf (hstill j hwait hjk)

theorem start_grounded {entry : Frame} (hg : FlowGraph.ofMethod m = .ok g)
    (he : Frame.entry m = .ok entry) : Grounded g (start m entry) where
  reached k f hf := (start_frame? hf).1 ▸ (FlowGraph.ofMethod_reached hg).1
  frames k f hf := by
    obtain ⟨-, rfl⟩ := start_frame? hf
    refine ⟨fun v hv j hj => ?_, fun v hv => ?_⟩
    · rcases Frame.mem_entry he hv with ⟨t, n, rfl⟩ | ⟨t, rfl⟩ <;> exact absurd hj List.not_mem_nil
    · rw [Frame.entry_stack he] at hv
      exact absurd hv List.not_mem_nil
  members slot v hv := by simp [start, MergeIndex.members, MergeIndex.empty] at hv

theorem run_grounded {order : SolverOrder} {limit : Nat} {entry : Frame}
    (hg : FlowGraph.ofMethod m = .ok g) : ∀ {fuel : Nat} {s s' : Solver},
    run m g order limit fuel s = .ok s' → Invariant m g entry s → Grounded g s → Measured m s →
    Grounded g s' ∧ Measured m s' := by
  intro fuel
  induction fuel with
  | zero =>
    intro s s' h _ hgr hm
    unfold run at h
    split at h
    · exact Except.ok.inj h ▸ ⟨hgr, hm⟩
    · exact absurd h (by simp)
  | succ fuel ih =>
    intro s s' h hs hgr hm
    unfold run at h
    cases ht : take? order s.waiting with
    | none =>
      simp only [ht, Except.ok.injEq] at h
      exact h ▸ ⟨hgr, hm⟩
    | some r =>
      obtain ⟨k, waiting⟩ := r
      simp only [ht] at h
      cases hv : visit m g { s with waiting } k with
      | error e => simp [hv] at h
      | ok s₁ =>
        simp only [hv] at h
        obtain ⟨hgr₁, hm₁⟩ := visit_grounded hg hv (take?_spec ht) hs.made hgr hm
        exact ih h (hs.visit (FlowGraph.ofMethod_describes hg) ht hv) hgr₁ hm₁

end Solver

/-! ## 3. The analysis of a method -/

namespace Analysis

theorem lt_of_frame? {a : Analysis} {k : Nat} {f : Frame} (h : a.frame? k = some f) :
    k < a.frames.length := by
  refine Nat.lt_of_not_le fun hle => ?_
  simp [frame?, List.getElem?_eq_none hle] at h

/-- Whether every instruction that a value names has a frame. -/
def Knows (a : Analysis) (v : FlowValue) : Prop := ∀ k ∈ v.places, (a.frame? k).isSome

/-- What an analysis says of instructions it says of ones that are reached, and no stack there is
higher than the greatest height it reports. -/
structure Grounded (m : Method) (a : Analysis) : Prop where
  graph : FlowGraph.ofMethod m = .ok a.graph
  inside : ∀ k f, a.frame? k = some f → ∃ i, m.insns[k]? = some i
  reached : ∀ k f, a.frame? k = some f → k ∈ a.graph.reached
  frames : ∀ k f, a.frame? k = some f → f.All a.Knows
  members : ∀ slot, ∀ v ∈ a.merges.members slot, a.Knows v
  heights : ∀ k i f, m.insns[k]? = some i → a.frame? k = some f →
    f.stack.length ≤ a.maxStack ∧ f.stack.length - i.pops + i.pushes ≤ a.maxStack

/-- **The analysis of a method** is grounded. -/
theorem ofMethod_grounded {order : SolverOrder} {limit : Nat} {m : Method} {a : Analysis}
    (h : ofMethod order limit m = .ok a) : a.Grounded m := by
  unfold ofMethod at h
  cases hg : FlowGraph.ofMethod m with
  | error e => simp [hg] at h
  | ok graph =>
    cases he : Frame.entry m with
    | error e => simp [hg, he] at h
    | ok entry =>
      cases hr : Solver.run m graph order limit limit (Solver.start m entry) with
      | error e => simp [hg, he, hr] at h
      | ok s =>
        simp only [hg, he, hr, Except.ok.injEq] at h
        subst h
        have hgraph := FlowGraph.ofMethod_describes hg
        have hstart := Solver.start_invariant hgraph he
        obtain ⟨hinv, hwaiting⟩ := Solver.run_spec hgraph hr hstart
        obtain ⟨hgr, hm⟩ := Solver.run_grounded hg hr hstart (Solver.start_grounded hg he)
          fun k i f _ hf hwait => absurd (Solver.start_frame? hf).1
          (by simpa [Solver.start] using hwait)
        exact
          { graph := hg
            inside := fun k f hf => ⟨_, List.getElem?_eq_getElem (hinv.made.size ▸ lt_of_frame? hf)⟩
            reached := hgr.reached
            frames := hgr.frames
            members := hgr.members
            heights := fun k i f hi hf => hm k i f hi hf (by simp [hwaiting]) }

end Analysis

end Provenance
