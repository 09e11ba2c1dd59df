/-
# What no instruction takes away holds of every value

A property that parameters have, and merges, and values of which nothing is known, and that all
values after an instruction have if all before it have it (`FlowValue.Pervades`), is one of every
value that an analysis finds: in any frame, and among the members of any merge
(`Analysis.ofMethod_pervaded`).

Such a property is that code goes straight on behind the instruction to which a value is due
(`Analysis.ofMethod_straight`): a jump leaves only what was there.
-/
import Provenance.Proofs.FixedPoint

namespace Provenance

variable {m : Method} {P : FlowValue → Prop}

/-- A property of values that no instruction takes away. -/
structure FlowValue.Pervades (m : Method) (P : FlowValue → Prop) : Prop where
  argument : ∀ t n, P (.argument t n)
  unknown : ∀ t, P (.untrackable t)
  merged : ∀ t slot, P (.merged t slot)
  after : ∀ {k i f g}, m.insns[k]? = some i → Frame.after k i f = .ok g → f.All P → g.All P

/-! ## 1. The solver -/

namespace Solver

variable {s s' : Solver}

/-- Every value in a frame and every member of a merge has a property. -/
structure Has (P : FlowValue → Prop) (s : Solver) : Prop where
  frames : ∀ k f, s.frame? k = some f → f.All P
  members : ∀ slot, ∀ v ∈ s.merges.members slot, P v

/-- **Carrying a frame over an edge.** -/
theorem Has.arrive {out : Frame} {target : Nat} (hP : FlowValue.Pervades m P) (h : s.Has P)
    (ha : s.arrive out target = .ok s') (hs : WellMade m s) (hout : Outgoing m s out)
    (ht : target < m.insns.length) (hall : out.All P) : s'.Has P := by
  have hlt : target < s.frames.length := hs.size ▸ ht
  unfold Solver.arrive at ha
  cases hk : s.frame? target with
  | none =>
    have hk' : (s.frames[target]?).join = none := hk
    simp only [hk', Except.ok.injEq] at ha
    subst ha
    refine ⟨fun k f hf => ?_, h.members⟩
    rcases frame?_of_set hlt hf with hf | ⟨-, rfl⟩
    · exact h.frames k f hf
    · exact hall
  | some known =>
    have hk' : (s.frames[target]?).join = some known := hk
    simp only [hk'] at ha
    cases hm : mergeFrames target s.merges known out with
    | error e => simp [hm] at ha
    | ok r =>
      obtain ⟨merged, merges⟩ := r
      have hmerge := mergeFrames_spec hm ((hs.locals _ _ hk).trans hout.locals.symm)
      have hknown := h.frames target known hk
      have hmembers := hmerge.members P hknown hall h.members
      have hmerged := hmerge.values P (fun t slot _ => hP.merged t slot) hP.unknown hknown hall
      simp only [hm] at ha
      split at ha
      all_goals
        simp only [Except.ok.injEq] at ha
        subst ha
      · exact ⟨h.frames, hmembers⟩
      · refine ⟨fun k f hf => ?_, hmembers⟩
        rcases frame?_of_set hlt hf with hf | ⟨-, rfl⟩
        · exact h.frames k f hf
        · exact hmerged

theorem Has.arriveAll {out : Frame} (hP : FlowValue.Pervades m P) (hall : out.All P) :
    ∀ {targets : List Nat} {s s' : Solver}, s.Has P → s.arriveAll out targets = .ok s' →
    WellMade m s → Outgoing m s out → (∀ t ∈ targets, t < m.insns.length) → s'.Has P := by
  intro targets
  induction targets with
  | nil =>
    intro s s' h ha _ _ _
    simp only [Solver.arriveAll, Except.ok.injEq] at ha
    exact ha ▸ h
  | cons target rest ih =>
    intro s s' h ha hs hout hlt
    obtain ⟨ht, hrest⟩ := List.forall_mem_cons.mp hlt
    unfold Solver.arriveAll at ha
    cases hfirst : s.arrive out target with
    | error e => simp [hfirst] at ha
    | ok s₁ =>
      simp only [hfirst] at ha
      obtain ⟨hgrows, hs₁, -⟩ := arrive_spec hfirst hs hout ht
      exact ih (h.arrive hP hfirst hs hout ht hall) ha hs₁ (hout.grows hgrows) hrest

/-- **A visit** carries what comes out of an instruction. -/
theorem Has.visit {g : FlowGraph} {k : Nat} (hP : FlowValue.Pervades m P) (h : s.Has P)
    (hv : Solver.visit m g s k = .ok s') (hgraph : g.Describes m) (hs : WellMade m s) :
    s'.Has P := by
  unfold Solver.visit at hv
  simp only at hv
  split at hv
  · rename_i i f hi hf
    have hf' : s.frame? k = some f := hf
    cases hafter : f.after k i with
    | error e => simp [hafter] at hv
    | ok out =>
      simp only [hafter] at hv
      have hout := hs.outgoing hi hf' hafter
      refine Has.arriveAll hP (hP.after hi hafter (h.frames k f hf')) ?_ hv
        ⟨hs.size, hs.locals, hs.frames, hs.members, hs.unstale⟩
        ⟨hout.locals, hout.madeIn, hout.reached⟩ fun t ht => hgraph.next_lt ht
      exact ⟨h.frames, h.members⟩
  · exact Except.ok.inj hv ▸ ⟨h.frames, h.members⟩

theorem Has.run {g : FlowGraph} {order : SolverOrder} {limit : Nat} {entry : Frame}
    (hP : FlowValue.Pervades m P) (hgraph : g.Describes m) : ∀ {fuel : Nat} {s s' : Solver},
    Solver.run m g order limit fuel s = .ok s' → Invariant m g entry s → s.Has P → s'.Has P := by
  intro fuel
  induction fuel with
  | zero =>
    intro s s' hr _ h
    unfold Solver.run at hr
    split at hr
    · exact Except.ok.inj hr ▸ h
    · exact absurd hr (by simp)
  | succ fuel ih =>
    intro s s' hr hs h
    unfold Solver.run at hr
    cases ht : take? order s.waiting with
    | none =>
      simp only [ht, Except.ok.injEq] at hr
      exact hr ▸ h
    | some r =>
      obtain ⟨k, waiting⟩ := r
      simp only [ht] at hr
      cases hv : Solver.visit m g { s with waiting } k with
      | error e => simp [hv] at hr
      | ok s₁ =>
        simp only [hv] at hr
        have h₀ : Has P { s with waiting } := ⟨h.frames, h.members⟩
        have hs₀ : WellMade m { s with waiting } :=
          ⟨hs.made.size, hs.made.locals, hs.made.frames, hs.made.members, hs.made.unstale⟩
        exact ih hr (hs.visit hgraph ht hv) (h₀.visit hP hv hgraph hs₀)

theorem start_has {entry : Frame} (hP : FlowValue.Pervades m P) (he : Frame.entry m = .ok entry) :
    (start m entry).Has P where
  frames k f hf := by
    obtain ⟨-, rfl⟩ := start_frame? hf
    refine ⟨fun v hv => ?_, fun v hv => ?_⟩
    · rcases Frame.mem_entry he hv with ⟨t, n, rfl⟩ | ⟨t, rfl⟩
      · exact hP.argument t n
      · exact hP.unknown t
    · rw [Frame.entry_stack he] at hv
      cases hv
  members slot v hv := by simp [start, MergeIndex.members, MergeIndex.empty] at hv

end Solver

/-! ## 2. The analysis of a method -/

/-- **What no instruction takes away** holds of every value that an analysis finds. -/
theorem Analysis.ofMethod_pervaded {order : SolverOrder} {limit : Nat} {a : Analysis}
    (h : ofMethod order limit m = .ok a) (hP : FlowValue.Pervades m P) :
    (∀ k f, a.frame? k = some f → f.All P) ∧ ∀ slot, ∀ v ∈ a.merges.members slot, P v := by
  unfold ofMethod at h
  cases hg : FlowGraph.ofMethod m with
  | error e => simp [hg] at h
  | ok graph =>
    cases he : Frame.entry m with
    | error e => simp [hg, he] at h
    | ok entry =>
      cases hr : Solver.run m graph order limit limit (Solver.start m entry) with
      | error e => simp [hg, he, hr] at h
      | ok s =>
        simp only [hg, he, hr, Except.ok.injEq] at h
        subst h
        have hgraph := FlowGraph.ofMethod_describes hg
        have hhas := Solver.Has.run hP hgraph hr (Solver.start_invariant hgraph he)
          (Solver.start_has hP he)
        exact ⟨hhas.frames, hhas.members⟩

/-! ## 3. Instructions that go straight on -/

namespace FlowValue

/-- Behind the instruction to which a value is due, code goes straight on.  Values that meet are due
to no single one. -/
def Straight (m : Method) (v : FlowValue) : Prop :=
  (∀ t slot, v ≠ .merged t slot) → ∀ k i, v.creation? = some k → m.insns[k]? = some i →
    i.jumpTarget? = none

theorem creation?_retyped (t : Ty) (v : FlowValue) : (v.retyped t).creation? = v.creation? := by
  cases v <;> rfl

/-- What is due to an instruction that does not jump. -/
theorem straight_of_creation {v : FlowValue} {k : Nat} {i : Insn} (hi : m.insns[k]? = some i)
    (hjump : i.jumpTarget? = none) (hv : v.creation? = some k) : v.Straight m := by
  intro _ k' i' hk' hi'
  obtain rfl := Option.some.inj (hv.symm.trans hk')
  obtain rfl := Option.some.inj (hi.symm.trans hi')
  exact hjump

theorem Straight.retyped {v : FlowValue} (h : v.Straight m) (t : Ty) :
    (v.retyped t).Straight m := by
  intro hmerged k i hk hi
  refine h (fun t' slot heq => ?_) k i ((creation?_retyped t v).symm.trans hk) hi
  exact hmerged t slot (by rw [heq]; rfl)

/-- An instruction that jumps leaves only what was there. -/
theorem all_of_jump {Q : FlowValue → Prop} {k l : Nat} {i : Insn} {f g : Frame}
    (hl : i.jumpTarget? = some l) (h : f.after k i = .ok g) (hf : f.All Q) : g.All Q := by
  by_cases hgoto : i = .goto l
  · subst hgoto
    obtain rfl := Except.ok.inj h
    exact hf
  · have hleaves : i.leaves? k = some [] := by
      cases i <;> simp_all [Insn.jumpTarget?, Insn.leaves?]
    obtain ⟨outs, L, S, rfl, rfl, -⟩ := Frame.after_exchange h hleaves
    exact ⟨hf.locals, fun v hv => hf.stack v (List.mem_append_right outs hv)⟩

theorem straight_pervades (m : Method) : FlowValue.Pervades m fun v => v.Straight m where
  argument _ _ _ _ _ hk := by cases hk
  unknown _ _ _ _ hk := by cases hk
  merged t slot h := absurd rfl (h t slot)
  after {k i f g} hi h hf := by
    cases hl : i.jumpTarget? with
    | some l => exact all_of_jump hl h hf
    | none =>
      refine Frame.after_leads h ?_ hf
      exact
        { kept := fun _ hv => hv
          moved := fun v hv => by
            cases v with
            | untrackable t => exact hv
            | _ => exact straight_of_creation hi hl rfl
          retyped := fun t _ _ hv => hv.retyped t
          cast := fun _ _ _ _ _ => straight_of_creation hi hl rfl
          unknown := fun _ _ _ _ hk => by cases hk
          fresh := fun v hv => straight_of_creation hi hl (by cases hv <;> rfl) }

end FlowValue

/-- **What an instruction makes is there when code goes straight on.** -/
theorem Analysis.ofMethod_straight {order : SolverOrder} {limit : Nat} {a : Analysis}
    (h : ofMethod order limit m = .ok a) (slot : MergeSlot) :
    ∀ v ∈ a.merges.members slot, v.Straight m :=
  (ofMethod_pervaded h (FlowValue.straight_pervades m)).2 slot

end Provenance
