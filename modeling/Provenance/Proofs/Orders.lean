/-
# What the order of visits leaves alone, and what it does not

The waiting instructions may be visited in either order.  The frames that come out stand at the
same instructions and have the same shape (`Analysis.ofMethod_shape`): whether an instruction can be
done, and how many locals and operands it leaves, depends on no more than the shape of the frame
before it (`Frame.after_shape`).  So the frames of one analysis bound what any other run of the
solver meets, and a method that one order accepts is refused by the other one only if it is stopped.

The values in the frames do depend on the order.  A slot takes the merge of another slot only as
long as it has no members of its own, so it matters which of two values comes first
(`Analysis.movingLoop_tracked`).
-/
import Provenance.Proofs.FixedPoint

namespace Provenance

/-! ## 1. The shape of a frame -/

namespace Frame

/-- How many locals a frame has, and how many operands. -/
def shape (f : Frame) : Nat × Nat := (f.locals.length, f.stack.length)

@[simp] theorem shape_mk (L S : List FlowValue) :
    (⟨L, S⟩ : Frame).shape = (L.length, S.length) := rfl

theorem Absorbs.shape {f g : Frame} (h : f.Absorbs g) : f.shape = g.shape := by
  unfold Frame.shape
  rw [h.locals.length_eq, h.stack.length_eq]

theorem popPush_append {k : Nat} {L out result S : List FlowValue} {count : Nat}
    (hout : out.length = count) :
    popPush ⟨L, out ++ S⟩ k count result = .ok ⟨L, result ++ S⟩ := by
  subst hout
  simp [popPush, withStack]

/-- Every case is an effect. -/
theorem Effect.after {k : Nat} {i : Insn} {f g : Frame} (h : Effect k i f g) :
    f.after k i = .ok g := by
  cases h with
  | idle h => rcases h with rfl | ⟨l, rfl⟩ | ⟨l, rfl⟩ <;> rfl
  | load S hl => simp only [Frame.after, hl, withStack]
  | store v S hl => simp only [Frame.after, hl, if_true]
  | call L S hargs hresult =>
    have htake : (_ ++ S).take _ = _ := List.take_left' hargs
    have hdrop : (_ ++ S).drop _ = S := List.drop_left' hargs
    unfold Frame.after
    simp only [List.length_append, hargs, htake, hdrop, hresult, withStack]
    rw [if_neg (by omega)]
  | exchange L S hout hresult =>
    cases i <;> simp only [Insn.leaves?, Option.some.injEq, reduceCtorEq] at hresult <;>
      exact hresult ▸ popPush_append hout
  | _ => rfl

/-- A call with as many operands leaves as many results. -/
theorem callResult_shape {k : Nat} {m : MethodRef} {args args' result : List FlowValue}
    (h : callResult k m args = .ok result) (hlen : args.length = args'.length) :
    ∃ result', callResult k m args' = .ok result' ∧ result.length = result'.length := by
  unfold callResult at h ⊢
  split at h
  · rename_i hpass
    cases args with
    | nil => simp at h
    | cons v rest =>
      obtain ⟨v', rest', rfl⟩ := List.exists_cons_of_length_eq_add_one hlen.symm
      simp only [Except.ok.injEq] at h
      subst h
      simp [hpass]
  · rename_i hpass
    rw [if_neg hpass]
    exact ⟨result, h, rfl⟩

theorem shape_cons {v : FlowValue} {L S L' S' : List FlowValue}
    (h : (⟨L, v :: S⟩ : Frame).shape = (⟨L', S'⟩ : Frame).shape) :
    ∃ v' S'', S' = v' :: S'' ∧ (⟨L, S⟩ : Frame).shape = (⟨L', S''⟩ : Frame).shape := by
  simp only [shape_mk, List.length_cons, Prod.mk.injEq] at h
  obtain ⟨v', S'', rfl⟩ := List.exists_cons_of_length_eq_add_one h.2.symm
  exact ⟨v', S'', rfl, by simpa using h⟩

theorem shape_append {out L S L' S' : List FlowValue}
    (h : (⟨L, out ++ S⟩ : Frame).shape = (⟨L', S'⟩ : Frame).shape) :
    ∃ out' S'', S' = out' ++ S'' ∧ out.length = out'.length ∧
      (⟨L, S⟩ : Frame).shape = (⟨L', S''⟩ : Frame).shape := by
  simp only [shape_mk, List.length_append, Prod.mk.injEq] at h
  refine ⟨S'.take out.length, S'.drop out.length, (List.take_append_drop _ _).symm, ?_, ?_⟩
  · rw [List.length_take]
    omega
  · simp only [shape_mk, List.length_drop, h.1, Prod.mk.injEq, true_and]
    omega

/-- **Whether an instruction can be done, and the shape of what it leaves, depend on the shape of
the frame before it.** -/
theorem after_shape {k : Nat} {i : Insn} {f f' g : Frame} (h : f.after k i = .ok f')
    (hshape : f.shape = g.shape) : ∃ g', g.after k i = .ok g' ∧ f'.shape = g'.shape := by
  obtain ⟨L', S'⟩ := g
  have heffect := after_effect h
  cases heffect with
  | idle hi => exact ⟨_, (Effect.idle hi).after, hshape⟩
  | literal c L S =>
    simp only [shape_mk, Prod.mk.injEq] at hshape
    exact ⟨_, (Effect.literal c L' S').after, by simp [hshape]⟩
  | @load l v L S hl =>
    simp only [shape_mk, Prod.mk.injEq] at hshape
    have hlt : l < L'.length := hshape.1 ▸ (List.getElem?_eq_some_iff.mp hl).1
    exact ⟨_, (Effect.load S' (List.getElem?_eq_getElem hlt)).after, by simp [hshape]⟩
  | @store l L v S hl =>
    obtain ⟨v', S', rfl, htail⟩ := shape_cons hshape
    simp only [shape_mk, Prod.mk.injEq] at htail
    have hl' : l < L'.length := htail.1 ▸ hl
    exact ⟨_, (Effect.store v' S' hl').after, by simpa using htail⟩
  | dup v L S =>
    obtain ⟨v', S', rfl, htail⟩ := shape_cons hshape
    exact ⟨_, (Effect.dup v' L' S').after, by simpa using htail⟩
  | dupX1 v w L S =>
    obtain ⟨v', S', rfl, htail⟩ := shape_cons hshape
    obtain ⟨w', S', rfl, htail⟩ := shape_cons htail
    exact ⟨_, (Effect.dupX1 v' w' L' S').after, by simpa using htail⟩
  | dup2 v w L S =>
    obtain ⟨v', S', rfl, htail⟩ := shape_cons hshape
    obtain ⟨w', S', rfl, htail⟩ := shape_cons htail
    exact ⟨_, (Effect.dup2 v' w' L' S').after, by simpa using htail⟩
  | swap v w L S =>
    obtain ⟨v', S', rfl, htail⟩ := shape_cons hshape
    obtain ⟨w', S', rfl, htail⟩ := shape_cons htail
    exact ⟨_, (Effect.swap v' w' L' S').after, by simpa using htail⟩
  | binary op t second first L S =>
    obtain ⟨v', S', rfl, htail⟩ := shape_cons hshape
    obtain ⟨w', S', rfl, htail⟩ := shape_cons htail
    exact ⟨_, (Effect.binary op t v' w' L' S').after, by simpa using htail⟩
  | convert source target v L S =>
    obtain ⟨v', S', rfl, htail⟩ := shape_cons hshape
    exact ⟨_, (Effect.convert source target v' L' S').after, by simpa using htail⟩
  | call L S hargs hresult =>
    obtain ⟨args', S', rfl, hlen, htail⟩ := shape_append hshape
    obtain ⟨result', hresult', hlen'⟩ := callResult_shape hresult hlen
    refine ⟨_, (Effect.call L' S' (hlen.symm.trans hargs) hresult').after, ?_⟩
    simpa [hlen'] using htail
  | exchange L S hout hresult =>
    obtain ⟨out', S', rfl, hlen, htail⟩ := shape_append hshape
    exact ⟨_, (Effect.exchange L' S' (hlen.symm.trans hout) hresult).after, by simpa using htail⟩

end Frame

/-! ## 2. A run beside an analysis -/

namespace Solver

variable {m : Method} {a : Analysis}

/-- Every frame that the solver has found so far has the shape of the one in the analysis. -/
def Fits (a : Analysis) (s : Solver) : Prop :=
  ∀ k f, s.frame? k = some f → ∃ g, a.frame? k = some g ∧ f.shape = g.shape

theorem mergeFrames_shape {k : Nat} {x : MergeIndex} {known arriving : Frame}
    (h : known.shape = arriving.shape) :
    ∃ merged x', mergeFrames k x known arriving = .ok (merged, x') ∧
    merged.shape = known.shape := by
  unfold Frame.shape at h
  simp only [Prod.mk.injEq] at h
  cases hm : mergeFrames k x known arriving with
  | error e => simp [mergeFrames, h.2] at hm
  | ok r =>
    obtain ⟨merged, x'⟩ := r
    exact ⟨merged, x', rfl, (mergeFrames_spec hm h.1).overKnown.shape⟩

theorem Fits.set {s : Solver} (h : Fits a s) {k : Nat} {f g : Frame} (hg : a.frame? k = some g)
    (hf : f.shape = g.shape) {merges : MergeIndex} {waiting : List Nat} :
    Fits a { s with frames := s.frames.set k (some f), merges, waiting } := by
  intro j f' hj
  by_cases hk : k < s.frames.length
  · rcases frame?_of_set hk hj with hj' | ⟨rfl, rfl⟩
    · exact h j f' hj'
    · exact ⟨g, hg, hf⟩
  · rw [List.set_eq_of_length_le (by omega)] at hj
    exact h j f' hj

/-- A frame that fits can be carried over an edge. -/
theorem arrive_fits {s : Solver} (h : Fits a s) {out g : Frame} {target : Nat}
    (hg : a.frame? target = some g) (hout : out.shape = g.shape) :
    ∃ s', s.arrive out target = .ok s' ∧ Fits a s' := by
  unfold arrive
  cases hk : s.frame? target with
  | none =>
    have hk' : (s.frames[target]?).join = none := hk
    simp only [hk']
    exact ⟨_, rfl, h.set hg hout⟩
  | some known =>
    have hk' : (s.frames[target]?).join = some known := hk
    obtain ⟨g', hg', hknown⟩ := h target known hk
    obtain rfl : g' = g := Option.some.inj (hg'.symm.trans hg)
    obtain ⟨merged, x', hm, hmerged⟩ :=
      mergeFrames_shape (k := target) (x := s.merges) (hknown.trans hout.symm)
    simp only [hk', hm]
    split
    · exact ⟨_, rfl, h⟩
    · exact ⟨_, rfl, h.set hg (hmerged.trans hknown)⟩

theorem arriveAll_fits {out : Frame} : ∀ {targets : List Nat} {s : Solver}, Fits a s →
    (∀ t ∈ targets, ∃ g, a.frame? t = some g ∧ out.shape = g.shape) →
    ∃ s', s.arriveAll out targets = .ok s' ∧ Fits a s' := by
  intro targets
  induction targets with
  | nil => intro s h _; exact ⟨s, rfl, h⟩
  | cons target rest ih =>
    intro s h htargets
    obtain ⟨⟨g, hg, hout⟩, hrest⟩ := List.forall_mem_cons.mp htargets
    obtain ⟨s₁, hs₁, h₁⟩ := arrive_fits h hg hout
    obtain ⟨s₂, hs₂, h₂⟩ := ih h₁ hrest
    exact ⟨s₂, by simp only [arriveAll, hs₁, hs₂], h₂⟩

/-- **A visit cannot fail** where the analysis has the frames. -/
theorem visit_fits (ha : a.Sound m) {s : Solver} (h : Fits a s) (k : Nat) :
    ∃ s', visit m a.graph s k = .ok s' ∧ Fits a s' := by
  unfold visit
  simp only
  split
  · rename_i i f hi hf
    obtain ⟨g, hg, hshape⟩ := h k f hf
    obtain ⟨out, hout, hnext⟩ := ha.edges k i g hi hg
    obtain ⟨out', hout', hshape'⟩ := Frame.after_shape hout hshape.symm
    simp only [hout']
    refine arriveAll_fits (s := { s with iterations := _, maxStack := _ }) h fun t ht => ?_
    obtain ⟨g', hg', habs⟩ := hnext t ht
    exact ⟨g', hg', hshape'.symm.trans habs.shape.symm⟩
  · exact ⟨_, rfl, h⟩

/-- **A run beside an analysis** ends with frames that fit, or is stopped. -/
theorem run_fits (ha : a.Sound m) (order : SolverOrder) (limit : Nat) : ∀ (fuel : Nat) {s : Solver},
    Fits a s → (∃ s', run m a.graph order limit fuel s = .ok s' ∧ Fits a s') ∨
      run m a.graph order limit fuel s = .error (.noConvergence limit) := by
  intro fuel
  induction fuel with
  | zero =>
    intro s h
    unfold run
    split
    · exact Or.inl ⟨s, rfl, h⟩
    · exact Or.inr rfl
  | succ fuel ih =>
    intro s h
    unfold run
    split
    · exact Or.inl ⟨s, rfl, h⟩
    · rename_i index waiting _
      obtain ⟨s₁, hs₁, h₁⟩ := visit_fits ha (s := { s with waiting }) h index
      simp only [hs₁]
      exact ih h₁

end Solver

/-! ## 3. Two analyses of a method -/

namespace Analysis

/-- A run of the solver beside an analysis of the same method. -/
theorem Sound.other {m : Method} {a : Analysis} (ha : a.Sound m)
    (hgraph : FlowGraph.ofMethod m = .ok a.graph) (order : SolverOrder) (limit : Nat) :
    (∃ a', ofMethod order limit m = .ok a' ∧
      ∀ k f, a'.frame? k = some f → ∃ g, a.frame? k = some g ∧ f.shape = g.shape) ∨
    ofMethod order limit m = .error (.noConvergence limit) := by
  obtain ⟨entry, f, hentry, hf, habs⟩ := ha.first
  have hstart : Solver.Fits a (Solver.start m entry) := by
    have hnone : Solver.Fits a ⟨List.replicate m.insns.length none, .empty, [], 0, 0⟩ := by
      intro k g hg
      unfold Solver.frame? at hg
      rw [List.getElem?_replicate] at hg
      split at hg <;> exact absurd hg (by simp)
    exact hnone.set hf habs.shape.symm
  unfold ofMethod
  simp only [hgraph, hentry]
  rcases Solver.run_fits ha order limit limit hstart with ⟨s, hs, hfits⟩ | hstopped
  · simp only [hs]
    exact Or.inl ⟨_, rfl, hfits⟩
  · refine Or.inr ?_
    simp only [hstopped]

theorem ofMethod_graph {order : SolverOrder} {limit : Nat} {m : Method} {a : Analysis}
    (h : ofMethod order limit m = .ok a) : FlowGraph.ofMethod m = .ok a.graph := by
  unfold ofMethod at h
  cases hg : FlowGraph.ofMethod m with
  | error e => simp [hg] at h
  | ok graph =>
    simp only [hg] at h
    split at h
    · exact absurd h (by simp)
    · split at h
      · exact absurd h (by simp)
      · cases h
        rfl

/-- **The order of visits leaves the shape of the frames alone.**  Whatever order and limit a method
was analysed with, any other order finds frames at the same instructions and of the same shape,
unless it is stopped; so a method that is refused under one order is not accepted under the other.
-/
theorem ofMethod_shape {order : SolverOrder} {limit : Nat} {m : Method} {a : Analysis}
    (h : ofMethod order limit m = .ok a) (order' : SolverOrder) (limit' : Nat) :
    (∃ a', ofMethod order' limit' m = .ok a' ∧
      ∀ k, (a'.frame? k).map Frame.shape = (a.frame? k).map Frame.shape) ∨
    ofMethod order' limit' m = .error (.noConvergence limit') := by
  rcases (ofMethod_sound h).other (ofMethod_graph h) order' limit' with ⟨a', h', hfits'⟩ | hstopped
  · refine Or.inl ⟨a', h', fun k => ?_⟩
    -- and the other way round
    rcases (ofMethod_sound h').other (ofMethod_graph h') order limit with ⟨b, hb, hfits⟩ | hfalse
    · obtain rfl : a = b := Except.ok.inj (h.symm.trans hb)
      cases hk : a.frame? k with
      | some f =>
        obtain ⟨g, hg, hshape⟩ := hfits k f hk
        simp [hg, hshape]
      | none =>
        cases hk' : a'.frame? k with
        | none => rfl
        | some f =>
          obtain ⟨g, hg, -⟩ := hfits' k f hk'
          exact absurd (hk.symm.trans hg) (by simp)
    · exact absurd (h.symm.trans hfalse) (by simp)
  · exact Or.inr hstopped

/-- A loop whose body overwrites a local with a new value, and now and then moves it back and forth.
-/
def movingLoop : Method :=
  ⟨"demo/A", "f", ⟨[.int], .void⟩, true, 2, 0,
    [.invoke ⟨.static, "demo/R", "next", ⟨[], .char⟩⟩, .store 1,
      .label 0, .invoke ⟨.static, "demo/R", "next", ⟨[], .char⟩⟩, .store 1,
      .load 0, .ifZero .eq 1, .load 1, .store 1,
      .label 1, .goto 0]⟩

theorem movingLoop_isOk (order : SolverOrder) :
    (ofMethod order defaultLimit movingLoop).isOk = true := by
  cases order <;> decide +kernel

theorem movingLoop_shape : ∃ a a', ofMethod .fifo defaultLimit movingLoop = .ok a ∧
    ofMethod .lifo defaultLimit movingLoop = .ok a' ∧
    ∀ k, (a'.frame? k).map Frame.shape = (a.frame? k).map Frame.shape := by
  cases h : ofMethod .fifo defaultLimit movingLoop with
  | error e =>
    have hok := movingLoop_isOk .fifo
    rw [h] at hok
    cases hok
  | ok a =>
    rcases ofMethod_shape h .lifo defaultLimit with ⟨a', h', hshape⟩ | hstopped
    · exact ⟨a, a', rfl, h', hshape⟩
    · have hok := movingLoop_isOk .lifo
      rw [hstopped] at hok
      cases hok

/-- Whether a local before an instruction can be followed in the end. -/
def localTrackable? (order : SolverOrder) (m : Method) (k l : Nat) : Option Bool :=
  match ofMethod order defaultLimit m with
  | .ok a => ((a.frame? k).bind fun f => f.locals[l]?).map a.merges.isTrackable
  | .error _ => none

/-- **The values in the frames do depend on the order.**  What the local of the loop holds at its
head cannot be followed in the one order, because a new value came there before the merge at the end
of the body; in the other order it can. -/
theorem movingLoop_tracked :
    localTrackable? .fifo movingLoop 2 1 = some false ∧
      localTrackable? .lifo movingLoop 2 1 = some true := by
  decide +kernel

end Analysis

end Provenance
