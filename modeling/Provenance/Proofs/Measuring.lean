/-
# Frames are as high as the search for heights says

The frames of a method and the heights of its stack are found by two searches that share nothing but
the flow graph: the one carries values and asks `Frame.after` what an instruction leaves, the other
carries numbers and asks `Insn.effect`.  This file shows that they come to the same heights and
report the same greatest one (`Analysis.ofMethod_requiredStack`).

There is one kind of instruction on which the two differ (`Insn.excess`): a call that is taken for
the clone of an array always leaves the array, also where its descriptor says that nothing is
returned.  Everything else changes the height by what it declares (`Frame.after_excess`).
-/
import Provenance.Proofs.Grounding
import Provenance.Proofs.Reaching

namespace Provenance

/-! ## 1. What an instruction leaves beyond what it declares -/

/-- How many values the analysis takes an instruction to leave beyond those that it declares: a call
taken for the clone of an array leaves the array, whatever its descriptor returns. -/
def Insn.excess : Insn → Nat
  | .invoke m => if (Carrier.clonedArray? m).isSome ∧ m.desc.ret = .void then 1 else 0
  | _ => 0

theorem Insn.ret_ne_void_of_excess {i : Insn} (h : i.excess = 0) :
    ∀ m, i = .invoke m → (Carrier.clonedArray? m).isSome → m.desc.ret ≠ .void := by
  rintro m rfl hclone hret
  simp [excess, hclone, hret] at h

/-- **The height after an instruction** is what the instruction declares, and one more after a clone
that returns nothing. -/
theorem Frame.after_excess {k : Nat} {i : Insn} {f g : Frame} (h : f.after k i = .ok g) :
    i.pops ≤ f.stack.length ∧ g.stack.length = f.stack.length - i.pops + i.pushes + i.excess := by
  by_cases hexcess : i.excess = 0
  · rw [hexcess]
    exact after_height h (Insn.ret_ne_void_of_excess hexcess)
  · obtain ⟨m, rfl, hclone, hret⟩ : ∃ m, i = .invoke m ∧ (Carrier.clonedArray? m).isSome ∧
        m.desc.ret = .void := by
      cases i with
      | invoke m => exact ⟨m, rfl, by simpa [Insn.excess] using hexcess⟩
      | _ => exact absurd rfl hexcess
    obtain ⟨t, ht⟩ := Option.isSome_iff_exists.mp hclone
    replace h := after_effect h
    cases h with
    | call L S hargs hresult =>
      rw [callResult_clone ht hresult]
      simp [Insn.pops, Insn.pushes, Insn.effect, Insn.excess, hargs, hret, hclone, Nat.add_comm]
    | idle h => simp at h
    | exchange L S hout hresult => simp [Insn.leaves?] at hresult

/-! ## 2. Only one height fits -/

/-- What holds of the first instruction and goes along the edges holds of all that is reached. -/
theorem FlowGraph.reached_induction {m : Method} {g : FlowGraph} {P : Nat → Prop}
    (h : ofMethod m = .ok g) (hfirst : P 0) (hnext : ∀ k, P k → ∀ t ∈ next g.successors k, P t) :
    ∀ k ∈ g.reached, P k := by
  have hg := ofMethod_describes h
  unfold ofMethod at h
  rw [if_neg (by simpa using hg.nonempty), hg.labels] at h
  simp only [hg.edges] at h
  split at h
  · exact absurd h (by simp)
  · rw [← Except.ok.inj h]
    exact explore_sub hnext _ _ _ (by simpa using hfirst) (by simpa using hfirst)

namespace Fits

variable {m : Method} {g : FlowGraph} {heights heights' : Nat → Option Nat} {depth depth' : Nat}

/-- The height at the end of an edge. -/
theorem next (h : Fits m heights depth) (hg : g.Describes m) {k height t : Nat} {i : Insn}
    (hi : m.insns[k]? = some i) (hk : heights k = some height)
    (ht : t ∈ FlowGraph.next g.successors k) : heights t = some (height - i.pops + i.pushes) := by
  obtain ⟨i', hi', hstands⟩ := h.stands k height hk
  obtain rfl := Option.some.inj (hi.symm.trans hi')
  rcases hg.mem_next hi ht with ⟨hfall, rfl⟩ | ⟨l, hl, htarget⟩
  · exact hstands.falls hfall
  · obtain ⟨t', ht', hheight⟩ := hstands.jumps l hl
    rwa [← Option.some.inj (ht'.symm.trans htarget)]

/-- **Heights that fit agree** wherever the method is reached. -/
theorem agree (h : Fits m heights depth) (h' : Fits m heights' depth')
    (hg : FlowGraph.ofMethod m = .ok g) :
    ∀ k ∈ g.reached, ∃ height, heights k = some height ∧ heights' k = some height := by
  refine FlowGraph.reached_induction hg ⟨0, h.first, h'.first⟩ fun k ⟨height, hk, hk'⟩ t ht => ?_
  obtain ⟨i, hi, -⟩ := h.stands k height hk
  have hdescribes := FlowGraph.ofMethod_describes hg
  exact ⟨_, h.next hdescribes hi hk ht, h'.next hdescribes hi hk' ht⟩

end Fits

/-! ## 3. The greatest height is reached -/

namespace Solver

variable {m : Method} {g : FlowGraph} {s s' : Solver}

/-- The greatest height so far is the one before or after an instruction that has a frame. -/
def Attained (m : Method) (s : Solver) : Prop :=
  s.maxStack = 0 ∨ ∃ k i f, m.insns[k]? = some i ∧ s.frame? k = some f ∧
    (s.maxStack = f.stack.length ∨ s.maxStack = f.stack.length - i.pops + i.pushes)

/-- Frames that absorb others are as high as these. -/
theorem Attained.grows (h : Attained m s) (hg : s.Grows s') (hmax : s'.maxStack = s.maxStack) :
    Attained m s' := by
  rcases h with h | ⟨k, i, f, hi, hf, h⟩
  · exact .inl (hmax.trans h)
  · obtain ⟨f', hf', habs⟩ := hg.frames k f hf
    refine .inr ⟨k, i, f', hi, hf', ?_⟩
    rwa [hmax, habs.stack.length_eq]

theorem arriveAll_maxStack {out : Frame} : ∀ {targets : List Nat} {s s' : Solver},
    s.arriveAll out targets = .ok s' → s'.maxStack = s.maxStack := by
  intro targets
  induction targets with
  | nil =>
    intro s s' h
    rw [← Except.ok.inj h]
  | cons target rest ih =>
    intro s s' h
    unfold arriveAll at h
    cases ha : s.arrive out target with
    | error e => simp [ha] at h
    | ok s₁ =>
      simp only [ha] at h
      exact (ih h).trans (arrive_maxStack ha)

/-- **A visit** compares the greatest height with the two of its instruction. -/
theorem Attained.visit {k : Nat} {waiting : List Nat} (h : Attained m s) (hgraph : g.Describes m)
    (hs : WellMade m s) (hvisit : Solver.visit m g { s with waiting } k = .ok s') :
    Attained m s' := by
  have hgrows := (visit_spec hvisit hgraph
    ⟨hs.size, hs.locals, hs.frames, hs.members, hs.unstale⟩).1
  unfold Solver.visit at hvisit
  simp only at hvisit
  split at hvisit
  · rename_i i f hi hf
    have hf' : s.frame? k = some f := hf
    split at hvisit
    · exact absurd hvisit (by simp)
    · have hmax := arriveAll_maxStack hvisit
      simp only at hmax
      obtain ⟨f', hframe, habs⟩ := hgrows.frames k f hf'
      have hlen : f'.stack.length = f.stack.length := habs.stack.length_eq
      by_cases hold : f.stack.length ≤ s.maxStack ∧ f.stack.length - i.pops + i.pushes ≤ s.maxStack
      · exact Attained.grows (s := { s with waiting }) h hgrows (by simp only; omega)
      · refine .inr ⟨k, i, f', hi, hframe, ?_⟩
        omega
  · rw [← Except.ok.inj hvisit]
    exact h

theorem run_attained {order : SolverOrder} {limit : Nat} {entry : Frame} (hgraph : g.Describes m) :
    ∀ {fuel : Nat} {s s' : Solver}, run m g order limit fuel s = .ok s' → Invariant m g entry s →
      Attained m s → Attained m s' := by
  intro fuel
  induction fuel with
  | zero =>
    intro s s' h _ hatt
    unfold run at h
    split at h
    · exact Except.ok.inj h ▸ hatt
    · exact absurd h (by simp)
  | succ fuel ih =>
    intro s s' h hs hatt
    unfold run at h
    cases ht : take? order s.waiting with
    | none =>
      simp only [ht, Except.ok.injEq] at h
      exact h ▸ hatt
    | some r =>
      obtain ⟨k, waiting⟩ := r
      simp only [ht] at h
      cases hv : visit m g { s with waiting } k with
      | error e => simp [hv] at h
      | ok s₁ =>
        simp only [hv] at h
        exact ih h (hs.visit hgraph ht hv) (hatt.visit hgraph hs.made hv)

end Solver

/-! ## 4. The two searches -/

namespace Analysis

variable {order : SolverOrder} {limit : Nat} {m : Method} {a : Analysis}

/-- The greatest height that an analysis reports is the one before or after an instruction that is
reached. -/
theorem ofMethod_attained (h : ofMethod order limit m = .ok a) :
    a.maxStack = 0 ∨ ∃ k i f, m.insns[k]? = some i ∧ a.frame? k = some f ∧
      (a.maxStack = f.stack.length ∨ a.maxStack = f.stack.length - i.pops + i.pushes) := by
  unfold ofMethod at h
  cases hg : FlowGraph.ofMethod m with
  | error e => simp [hg] at h
  | ok graph =>
    cases he : Frame.entry m with
    | error e => simp [hg, he] at h
    | ok entry =>
      cases hr : Solver.run m graph order limit limit (Solver.start m entry) with
      | error e => simp [hg, he, hr] at h
      | ok s =>
        simp only [hg, he, hr, Except.ok.injEq] at h
        subst h
        have hgraph := FlowGraph.ofMethod_describes hg
        exact Solver.run_attained hgraph hr (Solver.start_invariant hgraph he) (.inl rfl)

/-- The height of the frame before an instruction. -/
def height? (a : Analysis) (k : Nat) : Option Nat := (a.frame? k).map (·.stack.length)

theorem height?_eq_some {k h : Nat} :
    a.height? k = some h ↔ ∃ f, a.frame? k = some f ∧ f.stack.length = h := by
  simp [height?]

/-- **The heights of the frames fit together**, if no instruction that is reached leaves more than
it declares. -/
theorem fits (hsound : a.Sound m) (hgrounded : a.Grounded m)
    (hexcess : ∀ k ∈ a.graph.reached, ∀ i, m.insns[k]? = some i → i.excess = 0) :
    Fits m a.height? a.maxStack := by
  refine ⟨?_, fun k height hk => ?_⟩
  · obtain ⟨entry, f, hentry, hf, habs⟩ := hsound.first
    refine height?_eq_some.mpr ⟨f, hf, ?_⟩
    rw [habs.stack.length_eq, Frame.entry_stack hentry, List.length_nil]
  · obtain ⟨f, hf, rfl⟩ := height?_eq_some.mp hk
    obtain ⟨i, hi⟩ := hgrounded.inside k f hf
    have hreached := hgrounded.reached k f hf
    have hclone := Insn.ret_ne_void_of_excess (hexcess k hreached i hi)
    obtain ⟨-, -, hinside⟩ := FlowGraph.ofMethod_reached hgrounded.graph
    obtain ⟨hbefore, hafter⟩ := hgrounded.heights k i f hi hf
    refine ⟨i, hi, fun l hl => hsound.local_lt hi hf hl, hsound.pops_le hi hf hclone, hbefore,
      hafter, fun hfall => ?_, fun l hl => ?_⟩
    · have hj := List.getElem?_eq_getElem (hinside k hreached i hi hfall)
      exact height?_eq_some.mpr (hsound.reached_next hi hf hclone hfall _ hj)
    · obtain ⟨t, ht, hthere⟩ := hsound.reached_jump hi hf hclone hl
      exact ⟨t, ht, height?_eq_some.mpr (hthere _ (Method.labelAt?_spec ht))⟩

/-- **The two searches agree.**  Of a method that can be analysed, in which no instruction that is
reached is a clone that returns nothing, the search for heights finds the height of the frame before
every instruction that is reached, and the greatest height is the one that the analysis reports.
And whatever frame an instruction has an effect on, the height changes by what the instruction
declares, by one more only after such a clone. -/
theorem ofMethod_requiredStack (h : ofMethod order limit m = .ok a)
    (hexcess : ∀ k ∈ a.graph.reached, ∀ i, m.insns[k]? = some i → i.excess = 0) :
    requiredStack m = .ok a.maxStack ∧
      (∃ heights, stackHeights m = .ok (heights, a.maxStack) ∧
        ∀ k ∈ a.graph.reached, ∃ f, a.frame? k = some f ∧
          (heights[k]?).join = some f.stack.length) ∧
      ∀ k i f g, Frame.after k i f = .ok g → i.pops ≤ f.stack.length ∧
        g.stack.length = f.stack.length - i.pops + i.pushes + i.excess := by
  have hgrounded := ofMethod_grounded h
  have hgraph := hgrounded.graph
  have hfits := fits (ofMethod_sound h) hgrounded hexcess
  -- one way: the search finds heights that fit, and no depth beyond theirs
  obtain ⟨required, hrequired, hle⟩ := requiredStack_of_fits hgraph hfits
  obtain ⟨heights, hheights⟩ : ∃ heights, stackHeights m = .ok (heights, required) := by
    unfold requiredStack at hrequired
    split at hrequired
    · exact absurd hrequired (by simp)
    · rename_i heights depth hheights
      exact ⟨heights, Except.ok.inj hrequired ▸ hheights⟩
  obtain ⟨-, hfound⟩ := stackHeights_fits hheights
  have hsame : ∀ k ∈ a.graph.reached, ∃ f, a.frame? k = some f ∧
      (heights[k]?).join = some f.stack.length := fun k hk => by
    obtain ⟨height, hframe, hheight⟩ := hfits.agree hfound hgraph k hk
    obtain ⟨f, hf, rfl⟩ := height?_eq_some.mp hframe
    exact ⟨f, hf, hheight⟩
  -- the other way: the greatest height is that of a frame
  have hge : a.maxStack ≤ required := by
    rcases ofMethod_attained h with hzero | ⟨k, i, f, hi, hf, hmax⟩
    · omega
    · obtain ⟨f', hf', hheight⟩ := hsame k (hgrounded.reached k f hf)
      obtain rfl := Option.some.inj (hf.symm.trans hf')
      obtain ⟨i', hi', hstands⟩ := hfound.stands k _ hheight
      obtain rfl := Option.some.inj (hi.symm.trans hi')
      have hbefore := hstands.before
      have hafter := hstands.after
      omega
  obtain rfl : required = a.maxStack := Nat.le_antisymm hle hge
  exact ⟨hrequired, ⟨heights, hheights, hsame⟩, fun k i f g hafter => Frame.after_excess hafter⟩

/-- A loop that clones an array again and again. -/
def cloningLoop : Method :=
  ⟨"demo/A", "f", ⟨[.array .char, .int], .void⟩, true, 2, 0,
    [.label 0, .load 0,
      .invoke ⟨.virtual, "[C", "clone", ⟨[], .object "java/lang/Object"⟩⟩, .store 0, .load 1,
      .const (.int 1), .binary .sub .int, .dup, .store 1, .ifZero .ne 0, .ret .void]⟩

theorem cloningLoop_requiredStack : ∃ a, ofMethod .lifo defaultLimit cloningLoop = .ok a ∧
    requiredStack cloningLoop = .ok a.maxStack ∧ a.maxStack = 2 := by
  cases h : ofMethod .lifo defaultLimit cloningLoop with
  | error e =>
    have hok : (ofMethod .lifo defaultLimit cloningLoop).isOk = true := by decide +kernel
    rw [h] at hok
    cases hok
  | ok a =>
    have hexcess : ∀ i ∈ cloningLoop.insns, i.excess = 0 := by decide +kernel
    have hrequired := (ofMethod_requiredStack h fun k _ i hi =>
      hexcess i (List.mem_of_getElem? hi)).1
    have htwo : requiredStack cloningLoop = .ok 2 := by decide +kernel
    exact ⟨a, rfl, hrequired, Except.ok.inj (hrequired.symm.trans htwo)⟩

/-- A clone that returns nothing: for the analysis there is an array to pop, for the search for
heights there is not. -/
example :
    let m : Method := ⟨"demo/A", "f", ⟨[.array .char], .void⟩, true, 1, 0,
      [.load 0, .invoke ⟨.virtual, "[C", "clone", ⟨[], .void⟩⟩, .pop, .ret .void]⟩
    (ofMethod .fifo defaultLimit m).map (·.maxStack) = .ok 1 ∧
      requiredStack m = .error (.stackUnderflow 2) := by
  decide +kernel

end Analysis

end Provenance
