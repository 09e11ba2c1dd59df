/-
# The frames of an analysis are a fixed point

The solver stops when nothing waits, and then every frame has been carried over every edge: the
frame at the end of an edge absorbs the one that arrives there.  A frame that absorbs another one
may know less about a slot, but a definition that it has is a definition the other one has
(`Frame.Absorbs`).

Two more facts come out of the same induction.  Values are made where they say, and **no frame
describes a value by the instruction it stands before** (`Analysis.Sound.unstale`): when the
instruction is done again, no slot is left that is still described by the last time.  The
invariant behind it is that an instruction that has not been reached defines nothing anywhere.
-/
import Mathlib.Data.List.Forall2
import Provenance.Flow.Solver
import Provenance.Proofs.Edges
import Provenance.Proofs.Effect

namespace Provenance

/-! ## 1. Absorbing -/

/-- A value that may stand for another one: if it has a definition, they are the same. -/
def FlowValue.Keeps (v w : FlowValue) : Prop := ∀ d, v.definition? = some d → v = w

namespace FlowValue.Keeps

theorem refl (v : FlowValue) : v.Keeps v := fun _ _ => rfl

theorem trans {u v w : FlowValue} (h : u.Keeps v) (h' : v.Keeps w) : u.Keeps w := by
  intro d hd
  have huv := h d hd
  exact huv.trans (h' d (huv ▸ hd))

end FlowValue.Keeps

namespace Frame

/-- A frame that stands for another one, slot by slot. -/
structure Absorbs (f g : Frame) : Prop where
  locals : List.Forall₂ FlowValue.Keeps f.locals g.locals
  stack : List.Forall₂ FlowValue.Keeps f.stack g.stack

theorem Absorbs.refl (f : Frame) : f.Absorbs f :=
  ⟨List.forall₂_same.mpr fun v _ => .refl v, List.forall₂_same.mpr fun v _ => .refl v⟩

/-- Composition of a relation that is transitive, slot by slot. -/
theorem forall₂_keeps_trans : ∀ {us vs ws : List FlowValue},
    List.Forall₂ FlowValue.Keeps us vs → List.Forall₂ FlowValue.Keeps vs ws →
    List.Forall₂ FlowValue.Keeps us ws
  | _, _, _, .nil, .nil => .nil
  | _, _, _, .cons h hs, .cons h' hs' => .cons (h.trans h') (forall₂_keeps_trans hs hs')

theorem Absorbs.trans {f g h : Frame} (hfg : f.Absorbs g) (hgh : g.Absorbs h) : f.Absorbs h :=
  ⟨forall₂_keeps_trans hfg.locals hgh.locals, forall₂_keeps_trans hfg.stack hgh.stack⟩

/-- The values of a frame that absorbs another one have no definition of their own. -/
theorem Absorbs.without {f g : Frame} (h : f.Absorbs g) {d : Definition}
    (hg : g.All fun v => v.definition? ≠ some d) : f.All fun v => v.definition? ≠ some d := by
  have hlist : ∀ {vs ws : List FlowValue}, List.Forall₂ FlowValue.Keeps vs ws →
      (∀ w ∈ ws, w.definition? ≠ some d) → ∀ v ∈ vs, v.definition? ≠ some d := by
    intro vs ws hvw
    induction hvw with
    | nil => simp
    | cons hk _ ih =>
      intro hws
      simp only [List.forall_mem_cons] at hws ⊢
      exact ⟨fun hd => hws.1 (hk d hd ▸ hd), ih hws.2⟩
  exact ⟨hlist h.locals hg.locals, hlist h.stack hg.stack⟩

end Frame

/-! ## 2. Merging frames -/

namespace Solver

variable {insn : Nat} {kind : SlotKind}

/-- What merging the values of slots gives. -/
structure MergedSlots (insn : Nat) (x x' : MergeIndex) (vs ws ms : List FlowValue) : Prop where
  known : List.Forall₂ FlowValue.Keeps ms vs
  arriving : List.Forall₂ FlowValue.Keeps ms ws
  /-- A property of all values is one of the merged values, if merges before this instruction have
  it. -/
  values : ∀ P : FlowValue → Prop, (∀ t slot, slot.insn = insn → P (.merged t slot)) →
    (∀ t, P (.untrackable t)) → (∀ v ∈ vs, P v) → (∀ w ∈ ws, P w) → ∀ m ∈ ms, P m
  members : ∀ slot, ∀ u ∈ x'.members slot, u ∈ x.members slot ∨ u ∈ vs ∨ u ∈ ws

theorem mergeSlots_spec : ∀ {vs ws : List FlowValue} (index : Nat) (x : MergeIndex),
    vs.length = ws.length →
    MergedSlots insn x (mergeSlots insn kind index x vs ws).2 vs ws
      (mergeSlots insn kind index x vs ws).1 := by
  intro vs
  induction vs with
  | nil =>
    intro ws index x hlen
    cases ws with
    | nil => exact ⟨.nil, .nil, fun _ _ _ _ _ => by simp [mergeSlots], fun _ _ h => Or.inl h⟩
    | cons w ws => simp at hlen
  | cons v vs ih =>
    intro ws index x hlen
    cases ws with
    | nil => simp at hlen
    | cons w ws =>
      have hlen' : vs.length = ws.length := by simpa using hlen
      have hrest := ih (index + 1) (x.merge ⟨insn, kind, index⟩ v w).2 hlen'
      unfold mergeSlots
      refine ⟨?_, ?_, ?_, ?_⟩
      · refine .cons (fun d hd => (MergeIndex.merge_definition hd).1) hrest.known
      · refine .cons (fun d hd => ?_) hrest.arriving
        have hm := MergeIndex.merge_definition hd
        exact hm.1.trans hm.2
      · intro P hmerged hunknown hvs hws
        simp only [List.forall_mem_cons] at hvs hws ⊢
        refine ⟨?_, hrest.values P hmerged hunknown hvs.2 hws.2⟩
        rcases MergeIndex.merge_cases x ⟨insn, kind, index⟩ v w with h | h | ⟨t, h⟩ | ⟨t, h⟩ <;>
          rw [h]
        · exact hvs.1
        · exact hws.1
        · exact hmerged _ _ rfl
        · exact hunknown _
      · intro slot u hu
        rcases hrest.members slot u hu with h | h | h
        · rcases MergeIndex.mem_members_merge h with h | rfl | rfl
          · exact Or.inl h
          · exact Or.inr (Or.inl (by simp))
          · exact Or.inr (Or.inr (by simp))
        · exact Or.inr (Or.inl (List.mem_cons_of_mem _ h))
        · exact Or.inr (Or.inr (List.mem_cons_of_mem _ h))

/-- What merging a frame into the one that is there gives. -/
structure MergedFrames (insn : Nat) (x x' : MergeIndex) (known arriving merged : Frame) : Prop where
  overKnown : merged.Absorbs known
  overArriving : merged.Absorbs arriving
  values : ∀ P : FlowValue → Prop, (∀ t slot, slot.insn = insn → P (.merged t slot)) →
    (∀ t, P (.untrackable t)) → known.All P → arriving.All P → merged.All P
  members : ∀ P : FlowValue → Prop, known.All P → arriving.All P →
    (∀ slot, ∀ u ∈ x.members slot, P u) → ∀ slot, ∀ u ∈ x'.members slot, P u

theorem mergeFrames_spec {x x' : MergeIndex} {known arriving merged : Frame}
    (h : mergeFrames insn x known arriving = .ok (merged, x'))
    (hlen : known.locals.length = arriving.locals.length) :
    MergedFrames insn x x' known arriving merged := by
  unfold mergeFrames at h
  split at h
  · exact absurd h (by simp)
  · rename_i hstack
    have hstack' : known.stack.reverse.length = arriving.stack.reverse.length := by
      simpa using hstack
    have hl := @mergeSlots_spec insn .variable _ _ 0 x hlen
    have hs := @mergeSlots_spec insn .operand _ _ 0
      (mergeSlots insn .variable 0 x known.locals arriving.locals).2 hstack'
    simp only [Except.ok.injEq, Prod.mk.injEq] at h
    obtain ⟨rfl, rfl⟩ := h
    refine ⟨⟨hl.known, ?_⟩, ⟨hl.arriving, ?_⟩, ?_, ?_⟩
    · simpa using List.rel_reverse hs.known
    · simpa using List.rel_reverse hs.arriving
    · intro P hm hu hk ha
      refine ⟨hl.values P hm hu hk.locals ha.locals, fun v hv => ?_⟩
      exact hs.values P hm hu (fun v hv => hk.stack v (List.mem_reverse.mp hv))
        (fun v hv => ha.stack v (List.mem_reverse.mp hv)) v (List.mem_reverse.mp hv)
    · intro P hk ha hx slot u hu
      rcases hs.members slot u hu with h | h | h
      · rcases hl.members slot u h with h | h | h
        · exact hx slot u h
        · exact hk.locals u h
        · exact ha.locals u h
      · exact hk.stack u (List.mem_reverse.mp h)
      · exact ha.stack u (List.mem_reverse.mp h)

/-! ## 3. Carrying a frame over an edge -/

/-- The frame before an instruction, if there is one yet. -/
def frame? (s : Solver) (k : Nat) : Option Frame := (s.frames[k]?).join

theorem frame?_set {s : Solver} {k : Nat} (hk : k < s.frames.length) (f : Frame) (j : Nat) :
    ((s.frames.set k (some f))[j]?).join = if j = k then some f else s.frame? j := by
  unfold frame?
  rw [List.getElem?_set]
  by_cases h : j = k
  · subst h
    simp [hk]
  · simp [h, Ne.symm h]

/-- Once a frame is put in place, every frame is that one or was there before. -/
theorem frame?_of_set {s : Solver} {k j : Nat} {f f' : Frame} (hk : k < s.frames.length)
    (h : ((s.frames.set k (some f))[j]?).join = some f') :
    s.frame? j = some f' ∨ (j = k ∧ f' = f) := by
  rw [frame?_set hk f j] at h
  split at h
  · rename_i hjk
    exact .inr ⟨hjk, (Option.some.inj h).symm⟩
  · exact .inl h

theorem mem_enqueue {waiting : List Nat} {j k : Nat} :
    j ∈ enqueue waiting k ↔ j ∈ waiting ∨ j = k := by
  unfold enqueue
  split
  · rename_i h
    constructor
    · exact Or.inl
    · rintro (h' | rfl)
      · exact h'
      · simpa using h
  · simp

/-- How a solver changes while frames are carried over edges: frames only absorb others, and an
instruction whose frame changes waits. -/
structure Grows (s s' : Solver) : Prop where
  size : s'.frames.length = s.frames.length
  waiting : ∀ k ∈ s.waiting, k ∈ s'.waiting
  frames : ∀ k f, s.frame? k = some f → ∃ f', s'.frame? k = some f' ∧ f'.Absorbs f
  changed : ∀ k, s'.frame? k ≠ s.frame? k → k ∈ s'.waiting

theorem Grows.refl (s : Solver) : s.Grows s :=
  ⟨rfl, fun _ h => h, fun _ f h => ⟨f, h, .refl f⟩, fun _ h => absurd rfl h⟩

theorem Grows.trans {s s' s'' : Solver} (h : s.Grows s') (h' : s'.Grows s'') : s.Grows s'' := by
  refine ⟨h'.size.trans h.size, fun k hk => h'.waiting k (h.waiting k hk), ?_, ?_⟩
  · intro k f hf
    obtain ⟨f', hf', ha⟩ := h.frames k f hf
    obtain ⟨f'', hf'', ha'⟩ := h'.frames k f' hf'
    exact ⟨f'', hf'', ha'.trans ha⟩
  · intro k hk
    by_cases hs : s'.frame? k = s.frame? k
    · exact h'.changed k (hs ▸ hk)
    · exact h'.waiting k (h.changed k hs)

/-- What every frame and every member has in common, whatever waits. -/
structure WellMade (m : Method) (s : Solver) : Prop where
  size : s.frames.length = m.insns.length
  locals : ∀ k f, s.frame? k = some f → f.locals.length = m.maxLocals
  frames : ∀ k f, s.frame? k = some f → f.All fun v => v.MadeIn m
  members : ∀ slot, ∀ v ∈ s.merges.members slot, v.MadeIn m
  /-- What an instruction defines stands in no frame before it, and in none at all while the
  instruction has no frame. -/
  unstale : ∀ k d, d.insn? = some k →
    (∀ f, s.frame? k = some f → f.All fun v => v.definition? ≠ some d) ∧
      (s.frame? k = none → ∀ j f, s.frame? j = some f → f.All fun v => v.definition? ≠ some d)

/-- What is asked of a frame that is carried over the edges of an instruction. -/
structure Outgoing (m : Method) (s : Solver) (out : Frame) : Prop where
  locals : out.locals.length = m.maxLocals
  madeIn : out.All fun v => v.MadeIn m
  /-- It holds no definition of an instruction that has no frame. -/
  reached : ∀ k d, d.insn? = some k → s.frame? k = none → out.All fun v => v.definition? ≠ some d

theorem Outgoing.grows {m : Method} {s s' : Solver} {out : Frame} (h : Outgoing m s out)
    (hg : s.Grows s') : Outgoing m s' out := by
  refine ⟨h.locals, h.madeIn, fun k d hd hk => h.reached k d hd ?_⟩
  cases hs : s.frame? k with
  | none => rfl
  | some f =>
    obtain ⟨f', hf', -⟩ := hg.frames k f hs
    rw [hk] at hf'
    exact absurd hf' (by simp)

/-- The state in which one frame is replaced by one that absorbs what was there. -/
theorem WellMade.set {m : Method} {s : Solver} (h : WellMade m s) {k : Nat} {f out : Frame}
    {merges : MergeIndex} {waiting : List Nat} (hk : k < s.frames.length)
    (hout : Outgoing m s out) (hfout : f.Absorbs out)
    (hknown : ∀ known, s.frame? k = some known → f.Absorbs known)
    (hmade : f.All fun v => v.MadeIn m)
    (hmembers : ∀ slot, ∀ v ∈ merges.members slot, v.MadeIn m) :
    WellMade m { s with frames := s.frames.set k (some f), merges, waiting } := by
  have hframe : ∀ j, Solver.frame? { s with frames := s.frames.set k (some f), merges, waiting } j =
      if j = k then some f else s.frame? j := frame?_set hk f
  refine ⟨by simpa using h.size, ?_, ?_, hmembers, ?_⟩
  · intro j g hj
    rw [hframe] at hj
    split at hj
    · cases hj
      exact hfout.locals.length_eq.trans hout.locals
    · exact h.locals j g hj
  · intro j g hj
    rw [hframe] at hj
    split at hj
    · cases hj
      exact hmade
    · exact h.frames j g hj
  · intro j d hd
    obtain ⟨hhere, hnowhere⟩ := h.unstale j d hd
    refine ⟨fun g hg => ?_, fun hnone i g hg => ?_⟩
    · rw [hframe] at hg
      split at hg
      · rename_i hjk
        cases hg
        subst hjk
        cases hs : s.frame? j with
        | none => exact hfout.without (hout.reached j d hd hs)
        | some known => exact (hknown known hs).without (hhere known hs)
      · exact hhere g hg
    · rw [hframe] at hnone hg
      split at hnone
      · exact absurd hnone (by simp)
      · split at hg
        · cases hg
          exact hfout.without (hout.reached j d hd hnone)
        · exact hnowhere hnone i g hg

/-- **Carrying a frame over an edge**: the frame there then absorbs it. -/
theorem arrive_spec {m : Method} {s s' : Solver} {out : Frame} {target : Nat}
    (h : s.arrive out target = .ok s') (hs : WellMade m s) (hout : Outgoing m s out)
    (ht : target < m.insns.length) :
    s.Grows s' ∧ WellMade m s' ∧ ∃ f, s'.frame? target = some f ∧ f.Absorbs out := by
  have hlt : target < s.frames.length := hs.size ▸ ht
  unfold arrive at h
  cases hk : s.frame? target with
  | none =>
    have hk' : (s.frames[target]?).join = none := hk
    simp only [hk', Except.ok.injEq] at h
    have hframe : ∀ j, s'.frame? j = if j = target then some out else s.frame? j := by
      rw [← h]
      exact frame?_set hlt out
    refine ⟨⟨by simp [← h], ?_, ?_, ?_⟩, ?_, out, by simp [hframe], .refl out⟩
    · intro k hk
      rw [← h]
      exact mem_enqueue.mpr (Or.inl hk)
    · intro k f hf
      refine ⟨f, ?_, .refl f⟩
      rw [hframe]
      split
      · rename_i hkt
        rw [hkt, hk] at hf
        exact absurd hf (by simp)
      · exact hf
    · intro k hne
      rw [hframe] at hne
      split at hne
      · rename_i hkt
        rw [← h]
        exact mem_enqueue.mpr (Or.inr hkt)
      · exact absurd rfl hne
    · rw [← h]
      exact hs.set hlt hout (.refl out) (fun known hknown => by simp [hk] at hknown) hout.madeIn
        hs.members
  | some known =>
    have hk' : (s.frames[target]?).join = some known := hk
    simp only [hk'] at h
    cases hm : mergeFrames target s.merges known out with
    | error e => simp [hm] at h
    | ok r =>
      obtain ⟨merged, merges⟩ := r
      have hlen : known.locals.length = out.locals.length :=
        (hs.locals _ _ hk).trans hout.locals.symm
      have hmerge := mergeFrames_spec hm hlen
      have hmembers : ∀ slot, ∀ v ∈ merges.members slot, v.MadeIn m :=
        hmerge.members _ (hs.frames _ _ hk) hout.madeIn hs.members
      have hmade : merged.All fun v => v.MadeIn m :=
        hmerge.values _ (fun _ _ _ => trivial) (fun _ => trivial) (hs.frames _ _ hk) hout.madeIn
      simp only [hm] at h
      split at h
      · rename_i hsame
        simp only [Except.ok.injEq] at h
        have hframe : ∀ j, s'.frame? j = s.frame? j := by
          intro j
          rw [← h]
          rfl
        refine ⟨⟨by rw [← h], fun k hk => by rw [← h]; exact hk, ?_, ?_⟩, ?_, known, ?_, ?_⟩
        · intro k f hf
          exact ⟨f, (hframe k).trans hf, .refl f⟩
        · intro k hne
          exact absurd (hframe k) hne
        · rw [← h]
          exact ⟨hs.size, hs.locals, hs.frames, hmembers, hs.unstale⟩
        · rw [hframe, hk]
        · exact hsame ▸ hmerge.overArriving
      · simp only [Except.ok.injEq] at h
        have hframe : ∀ j, s'.frame? j = if j = target then some merged else s.frame? j := by
          rw [← h]
          exact frame?_set hlt merged
        refine ⟨⟨by simp [← h], ?_, ?_, ?_⟩, ?_, merged, by simp [hframe], hmerge.overArriving⟩
        · intro k hk
          rw [← h]
          exact mem_enqueue.mpr (Or.inl hk)
        · intro k f hf
          rw [hframe]
          split
          · rename_i hkt
            rw [hkt, hk] at hf
            cases hf
            exact ⟨merged, rfl, hmerge.overKnown⟩
          · exact ⟨f, hf, .refl f⟩
        · intro k hne
          rw [hframe] at hne
          split at hne
          · rename_i hkt
            rw [← h]
            exact mem_enqueue.mpr (Or.inr hkt)
          · exact absurd rfl hne
        · rw [← h]
          refine hs.set hlt hout hmerge.overArriving (fun k hk' => ?_) hmade hmembers
          rw [hk] at hk'
          cases hk'
          exact hmerge.overKnown

theorem arriveAll_spec {m : Method} {out : Frame} : ∀ {targets : List Nat} {s s' : Solver},
    s.arriveAll out targets = .ok s' → WellMade m s → Outgoing m s out →
    (∀ t ∈ targets, t < m.insns.length) →
    s.Grows s' ∧ WellMade m s' ∧ ∀ t ∈ targets, ∃ f, s'.frame? t = some f ∧ f.Absorbs out := by
  intro targets
  induction targets with
  | nil =>
    intro s s' h hs _ _
    simp only [arriveAll, Except.ok.injEq] at h
    subst h
    exact ⟨.refl s, hs, by simp⟩
  | cons target rest ih =>
    intro s s' h hs hout hlt
    unfold arriveAll at h
    cases ha : s.arrive out target with
    | error e => simp [ha] at h
    | ok s₁ =>
      simp only [ha] at h
      obtain ⟨hg, hs₁, f, hf, hfout⟩ := arrive_spec ha hs hout (hlt target (by simp))
      obtain ⟨hg', hs', hrest⟩ := ih h hs₁ (hout.grows hg) fun t ht => hlt t (by simp [ht])
      refine ⟨hg.trans hg', hs', List.forall_mem_cons.mpr ⟨?_, hrest⟩⟩
      obtain ⟨f', hf', habs⟩ := hg'.frames target f hf
      exact ⟨f', hf', habs.trans hfout⟩

/-! ## 4. Visits -/

/-- The frame of an instruction has been carried over all its edges. -/
def SettledAt (m : Method) (g : FlowGraph) (s : Solver) (k : Nat) : Prop :=
  ∀ i f, m.insns[k]? = some i → s.frame? k = some f →
    ∃ out, f.after k i = .ok out ∧
      ∀ t ∈ FlowGraph.next g.successors k, ∃ h, s.frame? t = some h ∧ h.Absorbs out

/-- A frame that has not changed stays carried over its edges. -/
theorem SettledAt.grows {m : Method} {g : FlowGraph} {s s' : Solver} {k : Nat}
    (h : SettledAt m g s k) (hg : s.Grows s') (hk : k ∉ s'.waiting) : SettledAt m g s' k := by
  have hsame : s'.frame? k = s.frame? k := by
    by_contra hne
    exact hk (hg.changed k hne)
  intro i f hi hf
  obtain ⟨out, hafter, hnext⟩ := h i f hi (hsame ▸ hf)
  refine ⟨out, hafter, fun t ht => ?_⟩
  obtain ⟨f₁, hf₁, ha₁⟩ := hnext t ht
  obtain ⟨f₂, hf₂, ha₂⟩ := hg.frames t f₁ hf₁
  exact ⟨f₂, hf₂, ha₂.trans ha₁⟩

/-- The frame after an instruction may be carried over its edges. -/
theorem WellMade.outgoing {m : Method} {s : Solver} (hs : WellMade m s) {k : Nat} {i : Insn}
    {f out : Frame} (hi : m.insns[k]? = some i) (hf : s.frame? k = some f)
    (hafter : f.after k i = .ok out) : Outgoing m s out where
  locals := (Frame.after_locals_length hafter).trans (hs.locals k f hf)
  madeIn := Frame.after_madeIn hafter hi (hs.frames k f hf)
  reached := by
    intro j d hd hj
    have hne : d.insn? ≠ some k := by
      rw [hd]
      rintro hjk
      cases hjk
      rw [hf] at hj
      exact absurd hj (by simp)
    exact Frame.after_without hafter hne ((hs.unstale j d hd).2 hj k f hf)

/-- **A visit** carries the frame of an instruction over its edges. -/
theorem visit_spec {m : Method} {g : FlowGraph} {s s' : Solver} {k : Nat}
    (h : visit m g s k = .ok s') (hgraph : g.Describes m) (hs : WellMade m s) :
    s.Grows s' ∧ WellMade m s' ∧ (k ∉ s'.waiting → SettledAt m g s' k) := by
  unfold visit at h
  simp only at h
  split at h
  · rename_i i frame hi hframe
    have hframe' : s.frame? k = some frame := hframe
    cases hafter : frame.after k i with
    | error e => simp [hafter] at h
    | ok out =>
      simp only [hafter] at h
      have hout := hs.outgoing hi hframe' hafter
      obtain ⟨hg, hs', hnext⟩ := arriveAll_spec h
        (show WellMade m { s with iterations := s.iterations + 1, maxStack := _ } from
          ⟨hs.size, hs.locals, hs.frames, hs.members, hs.unstale⟩)
        ⟨hout.locals, hout.madeIn, hout.reached⟩ fun t ht => hgraph.next_lt ht
      refine ⟨⟨hg.size, hg.waiting, hg.frames, hg.changed⟩, hs', fun hk i' f hi' hf => ?_⟩
      have hsame : s'.frame? k = s.frame? k := by
        by_contra hne
        exact hk (hg.changed k hne)
      rw [hi] at hi'
      cases hi'
      rw [hsame, hframe'] at hf
      cases hf
      exact ⟨out, hafter, hnext⟩
  · rename_i hnone
    simp only [Except.ok.injEq] at h
    subst h
    refine ⟨⟨rfl, fun _ h => h, fun _ f h => ⟨f, h, .refl f⟩, fun _ h => absurd rfl h⟩,
      ⟨hs.size, hs.locals, hs.frames, hs.members, hs.unstale⟩, ?_⟩
    intro _ i f hi hf
    exact absurd hf (hnone i f hi)

/-- What is taken from the waiting ones is all that is missing afterwards. -/
theorem take?_spec {order : SolverOrder} {waiting rest : List Nat} {k : Nat}
    (h : take? order waiting = some (k, rest)) : ∀ j ∈ waiting, j = k ∨ j ∈ rest := by
  unfold take? at h
  cases order with
  | fifo =>
    cases waiting with
    | nil => simp at h
    | cons i waiting =>
      simp only [Option.some.injEq, Prod.mk.injEq] at h
      obtain ⟨rfl, rfl⟩ := h
      exact fun j hj => by simpa using hj
  | lifo =>
    cases hl : waiting.getLast? with
    | none => simp [hl] at h
    | some i =>
      simp only [hl, Option.some.injEq, Prod.mk.injEq] at h
      obtain ⟨rfl, rfl⟩ := h
      intro j hj
      have hne : waiting ≠ [] := by
        rintro rfl
        simp at hj
      have hcat := List.dropLast_append_getLast hne
      rw [← hcat, List.mem_append, List.mem_singleton] at hj
      rw [List.getLast?_eq_some_getLast hne, Option.some.injEq] at hl
      rcases hj with hj | hj
      · exact Or.inr hj
      · exact Or.inl (hj.trans hl)

theorem take?_eq_none {order : SolverOrder} {waiting : List Nat} (h : take? order waiting = none) :
    waiting = [] := by
  unfold take? at h
  cases order with
  | fifo => cases waiting <;> simp at h ⊢
  | lifo =>
    cases hl : waiting.getLast? with
    | none => exact List.getLast?_eq_none_iff.mp hl
    | some i => simp [hl] at h

/-- What holds between two visits. -/
structure Invariant (m : Method) (g : FlowGraph) (entry : Frame) (s : Solver) : Prop where
  made : WellMade m s
  settled : ∀ k, k ∉ s.waiting → SettledAt m g s k
  first : ∃ f, s.frame? 0 = some f ∧ f.Absorbs entry

/-- **A visit keeps the invariant.** -/
theorem Invariant.visit {m : Method} {g : FlowGraph} {order : SolverOrder} {entry : Frame}
    {s s' : Solver} {k : Nat} {waiting : List Nat} (hs : Invariant m g entry s)
    (hgraph : g.Describes m) (ht : take? order s.waiting = some (k, waiting))
    (hv : Solver.visit m g { s with waiting } k = .ok s') : Invariant m g entry s' := by
  have hmade : WellMade m { s with waiting } :=
    ⟨hs.made.size, hs.made.locals, hs.made.frames, hs.made.members, hs.made.unstale⟩
  obtain ⟨hg, hs', hk⟩ := visit_spec hv hgraph hmade
  refine ⟨hs', fun j hj => ?_, ?_⟩
  · by_cases hjk : j = k
    · exact hjk ▸ hk (hjk ▸ hj)
    · have hwait : j ∉ s.waiting := fun hwait => by
        rcases take?_spec ht j hwait with h | h
        · exact hjk h
        · exact hj (hg.waiting j h)
      have hsettled : SettledAt m g { s with waiting } j := hs.settled j hwait
      exact hsettled.grows hg hj
  · obtain ⟨f, hf, ha⟩ := hs.first
    obtain ⟨f', hf', ha'⟩ := hg.frames 0 f hf
    exact ⟨f', hf', ha'.trans ha⟩

/-- **When the solver stops, nothing waits.** -/
theorem run_spec {m : Method} {g : FlowGraph} {order : SolverOrder} {limit : Nat} {entry : Frame}
    (hgraph : g.Describes m) : ∀ {fuel : Nat} {s s' : Solver},
    run m g order limit fuel s = .ok s' → Invariant m g entry s →
    Invariant m g entry s' ∧ s'.waiting = [] := by
  intro fuel
  induction fuel with
  | zero =>
    intro s s' h hs
    unfold run at h
    split at h
    · rename_i hw
      simp only [Except.ok.injEq] at h
      subst h
      exact ⟨hs, by simpa using hw⟩
    · exact absurd h (by simp)
  | succ fuel ih =>
    intro s s' h hs
    unfold run at h
    cases ht : take? order s.waiting with
    | none =>
      simp only [ht, Except.ok.injEq] at h
      subst h
      exact ⟨hs, take?_eq_none ht⟩
    | some r =>
      obtain ⟨k, waiting⟩ := r
      simp only [ht] at h
      cases hv : visit m g { s with waiting } k with
      | error e => simp [hv] at h
      | ok s₁ =>
        simp only [hv] at h
        exact ih h (hs.visit hgraph ht hv)

end Solver

/-! ## 5. The first frame -/

namespace Frame

theorem parameters_length (carried : Option (List Bool)) : ∀ (ts : List Ty) (arg : Nat),
    (parameters carried arg ts).length = ts.length
  | [], _ => rfl
  | _ :: ts, arg => by simp [parameters, parameters_length carried ts (arg + 1)]

/-- A method whose parameters do not fit has no first frame. -/
theorem entry_fits {m : Method} {f : Frame} (h : entry m = .ok f) : m.paramSlots ≤ m.maxLocals := by
  unfold entry at h
  split at h
  · exact absurd h (by simp)
  · omega

theorem entry_locals_length {m : Method} {f : Frame} (h : entry m = .ok f) :
    f.locals.length = m.maxLocals := by
  have hfit := entry_fits h
  unfold entry at h
  rw [if_neg (by omega)] at h
  simp only [Except.ok.injEq] at h
  rw [← h]
  unfold Method.paramSlots at hfit ⊢
  cases hstatic : m.isStatic <;> simp [hstatic, parameters_length] at hfit ⊢ <;> omega

theorem entry_stack {m : Method} {f : Frame} (h : entry m = .ok f) : f.stack = [] := by
  unfold entry at h
  split at h
  · exact absurd h (by simp)
  · simp only [Except.ok.injEq] at h
    rw [← h]

/-- What a first frame knows of is parameters. -/
theorem mem_parameters {carried : Option (List Bool)} {v : FlowValue} :
    ∀ {ts : List Ty} {arg : Nat}, v ∈ parameters carried arg ts → (∃ t n, v = .argument t n) ∨
    ∃ t, v = .untrackable t
  | [], _, h => by simp [parameters] at h
  | t :: ts, arg, h => by
    simp only [parameters, List.mem_cons] at h
    rcases h with h | h
    · rw [h]
      cases carried with
      | none => exact Or.inr ⟨_, rfl⟩
      | some flags =>
        simp only
        split
        · exact Or.inl ⟨t, arg, rfl⟩
        · exact Or.inr ⟨_, rfl⟩
    · exact mem_parameters h

/-- A parameter whose point comes along stands where its number says. -/
theorem parameters_getElem? {carried : Option (List Bool)} {v : FlowValue} {d : Definition}
    (hd : v.definition? = some d) : ∀ {ts : List Ty} {arg j : Nat},
    (parameters carried arg ts)[j]? = some v → j < ts.length ∧ ∃ t, v = .argument t (arg + j)
  | [], _, _, h => nomatch h
  | t :: ts, arg, 0, h => by
    obtain rfl := Option.some.inj h
    have hmarked : ∀ marked : Bool,
        (if marked then FlowValue.argument t arg else .ofType t).definition? = some d →
        (if marked then FlowValue.argument t arg else .ofType t) = .argument t (arg + 0) := by
      intro marked hd
      cases marked with
      | true => rfl
      | false => cases hd
    exact ⟨by simp, t, hmarked _ hd⟩
  | t :: ts, arg, j + 1, h => by
    obtain ⟨hj, t', ht'⟩ :=
      parameters_getElem? hd (show (parameters carried (arg + 1) ts)[j]? = some v from h)
    refine ⟨Nat.succ_lt_succ hj, t', ht'.trans ?_⟩
    rw [Nat.add_assoc, Nat.add_comm 1 j]

/-- In a first frame only parameters have a definition, and each stands in its local. -/
theorem entry_getElem? {m : Method} {f : Frame} (h : entry m = .ok f) {l : Nat} {v : FlowValue}
    {d : Definition} (hv : f.locals[l]? = some v) (hd : v.definition? = some d) :
    ∃ t n, v = .argument t n ∧ n < m.desc.params.length ∧
    l = (if m.isStatic then 0 else 1) + n := by
  unfold entry at h
  split at h
  · cases h
  · obtain rfl := Except.ok.inj h
    have hunknown : ∀ t, v ≠ .untrackable t := by
      rintro t rfl
      cases hd
    have hgiven : ∀ j, (parameters (Carrier.carriedArguments? m.name m.desc) 0 m.desc.params ++
        List.replicate (m.maxLocals - m.paramSlots) (.untrackable none))[j]? = some v →
        ∃ t, v = .argument t j ∧ j < m.desc.params.length := by
      intro j hj
      rw [List.getElem?_append] at hj
      split at hj
      · obtain ⟨hlt, t, ht⟩ := parameters_getElem? hd hj
        exact ⟨t, by rwa [Nat.zero_add] at ht, hlt⟩
      · exact absurd (List.mem_replicate.mp (List.mem_of_getElem? hj)).2 (hunknown _)
    simp only [List.append_assoc] at hv
    cases hstatic : m.isStatic with
    | true =>
      rw [hstatic] at hv
      obtain ⟨t, ht, hlt⟩ := hgiven l hv
      exact ⟨t, l, ht, hlt, (Nat.zero_add l).symm⟩
    | false =>
      rw [hstatic] at hv
      cases l with
      | zero => exact absurd (Option.some.inj hv).symm (hunknown _)
      | succ j =>
        obtain ⟨t, ht, hlt⟩ := hgiven j hv
        exact ⟨t, j, ht, hlt, Nat.add_comm j 1⟩

theorem mem_entry {m : Method} {f : Frame} (h : entry m = .ok f) {v : FlowValue}
    (hv : v ∈ f.locals) : (∃ t n, v = .argument t n) ∨ ∃ t, v = .untrackable t := by
  unfold entry at h
  split at h
  · exact absurd h (by simp)
  · simp only [Except.ok.injEq] at h
    rw [← h] at hv
    simp only [List.mem_append] at hv
    rcases hv with (hv | hv) | hv
    · split at hv
      · simp at hv
      · exact Or.inr ⟨_, List.mem_singleton.mp hv⟩
    · exact mem_parameters hv
    · exact Or.inr ⟨_, (List.mem_replicate.mp hv).2⟩

end Frame

/-! ## 6. The analysis of a method -/

/-- What holds of the analysis of a method. -/
structure Analysis.Sound (m : Method) (a : Analysis) : Prop where
  graph : a.graph.Describes m
  first : ∃ entry f, Frame.entry m = .ok entry ∧ a.frame? 0 = some f ∧ f.Absorbs entry
  locals : ∀ k f, a.frame? k = some f → f.locals.length = m.maxLocals
  frames : ∀ k f, a.frame? k = some f → f.All fun v => v.MadeIn m
  members : ∀ slot, ∀ v ∈ a.merges.members slot, v.MadeIn m
  /-- No frame describes a value by the instruction it stands before. -/
  unstale : ∀ k f d, a.frame? k = some f → d.insn? = some k →
    f.All fun v => v.definition? ≠ some d
  /-- Every instruction with a frame has an effect on it, which the frames of its successors
  absorb. -/
  edges : ∀ k i f, m.insns[k]? = some i → a.frame? k = some f →
    ∃ out, f.after k i = .ok out ∧
      ∀ t ∈ FlowGraph.next a.graph.successors k, ∃ h, a.frame? t = some h ∧ h.Absorbs out

/-- At the start only the first instruction has a frame. -/
theorem Solver.start_frame? {m : Method} {entry f : Frame} {k : Nat}
    (h : (start m entry).frame? k = some f) : k = 0 ∧ f = entry := by
  unfold frame? start at h
  rw [List.getElem?_set] at h
  split at h
  · split at h
    · exact ⟨by omega, (Option.some.inj h).symm⟩
    · exact absurd h (by simp)
  · rw [List.getElem?_replicate] at h
    split at h <;> exact absurd h (by simp)

/-- The invariant holds at the start. -/
theorem Solver.start_invariant {m : Method} {g : FlowGraph} {entry : Frame}
    (hgraph : g.Describes m) (hentry : Frame.entry m = .ok entry) :
    Invariant m g entry (start m entry) := by
  have hpos : 0 < m.insns.length := List.length_pos_iff.mpr hgraph.nonempty
  have hframe : (start m entry).frame? 0 = some entry := by simp [frame?, start, hpos]
  have hvalues : ∀ P : FlowValue → Prop, (∀ t n, P (.argument t n)) → (∀ t, P (.untrackable t)) →
      entry.All P := by
    intro P harg hunknown
    refine ⟨fun v hv => ?_, fun v hv => ?_⟩
    · rcases Frame.mem_entry hentry hv with ⟨t, n, rfl⟩ | ⟨t, rfl⟩
      · exact harg t n
      · exact hunknown t
    · rw [Frame.entry_stack hentry] at hv
      simp at hv
  have hwithout : ∀ k d, d.insn? = some k → entry.All fun v => v.definition? ≠ some d := by
    intro k d hd
    refine hvalues _ (fun t n h => ?_) (fun t h => by simp at h)
    simp only [FlowValue.definition?, FlowValue.base, Option.some.injEq] at h
    rw [← h] at hd
    exact absurd hd (by simp [Definition.insn?])
  refine ⟨⟨by simp [start], ?_, ?_, ?_, ?_⟩, ?_, entry, hframe, .refl entry⟩
  · intro k f hf
    rw [(start_frame? hf).2]
    exact Frame.entry_locals_length hentry
  · intro k f hf
    rw [(start_frame? hf).2]
    exact hvalues _ (fun _ _ => trivial) fun _ => trivial
  · intro slot v hv
    simp [start, MergeIndex.members, MergeIndex.empty] at hv
  · intro k d hd
    exact ⟨fun f hf => (start_frame? hf).2 ▸ hwithout k d hd,
      fun _ j f hf => (start_frame? hf).2 ▸ hwithout k d hd⟩
  · intro k hk i f _ hf
    exact absurd (by simp [start, (start_frame? hf).1] : k ∈ (start m entry).waiting) hk

/-- **The frames that an analysis finds are a fixed point.** -/
theorem Analysis.ofMethod_sound {order : SolverOrder} {limit : Nat} {m : Method} {a : Analysis}
    (h : Analysis.ofMethod order limit m = .ok a) : a.Sound m := by
  unfold Analysis.ofMethod at h
  cases hg : FlowGraph.ofMethod m with
  | error e => simp [hg] at h
  | ok graph =>
    cases he : Frame.entry m with
    | error e => simp [hg, he] at h
    | ok entry =>
      cases hr : Solver.run m graph order limit limit (Solver.start m entry) with
      | error e => simp [hg, he, hr] at h
      | ok s =>
        simp only [hg, he, hr, Except.ok.injEq] at h
        subst h
        have hgraph := FlowGraph.ofMethod_describes hg
        obtain ⟨hinv, hwaiting⟩ :=
          Solver.run_spec hgraph hr (Solver.start_invariant hgraph he)
        obtain ⟨f, hf, habs⟩ := hinv.first
        exact
          { graph := hgraph
            first := ⟨entry, f, he, hf, habs⟩
            locals := hinv.made.locals
            frames := hinv.made.frames
            members := hinv.made.members
            unstale := fun k f d hf hd => (hinv.made.unstale k d hd).1 f hf
            edges := fun k i f hi hf => hinv.settled k (by simp [hwaiting]) i f hi hf }

end Provenance
