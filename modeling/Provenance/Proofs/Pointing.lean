/-
# Woven code stores exact points

Wherever woven code stands, a predicate on the code that is left says that every point stored from
there on is that of the value it is stored for, up to the next block (`Woven.Points`).  It is shown
of the code for a point, of each piece that can stand in a plan, and so of a whole block
(`Woven.points_block`): a block that is entered with origins that its frame recalls hands such
origins to every block that may follow.
-/
import Provenance.Proofs.Recalling
import Provenance.Proofs.Weaving

namespace Provenance

/-! ## 1. Code that stores exact points -/

/-- A call that takes the operands of the copy that weaving may put in its place: a bulk copy all of
its five, a clone the array. -/
structure MethodRef.Copies (m : MethodRef) : Prop where
  bulk : Carrier.isArrayCopy m = true → m.operandCount = 5
  clone : (Carrier.clonedArray? m).isSome → m.operandCount = 1

/-- A woven method whose calls take the operands of the copies that are put in their places. -/
structure Woven.Copying (v : Woven) : Prop where
  copies : ∀ target, .invoke target ∈ v.method.insns → target.Copies
  /-- A clone never stays what it was. -/
  replaced : ∀ k f target, v.method.insns[k]? = some (.invoke target) → v.frame? k = some f →
    (Carrier.clonedArray? target).isSome → (v.plan.replaced.lookup k).isSome

/-- Instructions that store no points and do not jump. -/
def Insn.Silent : Insn → Prop
  | .hook h => ∀ i : Insn, i.stores h = []
  | i => i.jumpTarget? = none

variable {v : Woven} {Q : Origins → Prop} {g g' : Origins} {rest code : List Insn}
    {k : Nat} {i : Insn}
  {f out : Frame}

/-- The code for the point of a value, by its definition. -/
inductive Plan.Fetches (p : Plan) : Definition → List Insn → Prop where
  | literal {k : Nat} {place : ClassConstant} (h : p.constants.lookup k = some place) :
      Fetches p (.literal k) [.hook (.constantPoint place)]
  | read {k l : Nat} (h : p.localOf (.point k) = some l) : Fetches p (.read k) [.load l]
  | result {k l : Nat} (h : p.localOf (.record k) = some l) :
      Fetches p (.result k) [.load l, .hook .invocationReturnPoint]
  | parameter {n l : Nat} (h : p.localOf .own = some l) :
      Fetches p (.parameter n) [.load l, .hook (.invocationArgPoint n)]

theorem Plan.fetches_of_pointCode {p : Plan} {u : FlowValue} {d : Definition}
    (h : p.PointCode u code) (hd : u.definition? = some d) : p.Fetches d code := by
  rcases h with h | ⟨hnone, -⟩
  · unfold loadPoint at h
    unfold FlowValue.definition? at hd
    cases hb : u.base with
    | constant t k n =>
      rw [hb] at hd h
      obtain rfl := Option.some.inj hd
      cases hl : p.constants.lookup k with
      | none => simp [hl] at h
      | some place =>
        obtain rfl : _ = code := by simpa [hl] using h
        exact .literal hl
    | element t k | field t k key =>
      rw [hb] at hd h
      obtain rfl := Option.some.inj hd
      cases hl : p.pointLocals.lookup k with
      | none => simp [hl] at h
      | some l =>
        obtain rfl : _ = code := by simpa [hl] using h
        exact .read hl
    | returned t k =>
      rw [hb] at hd h
      obtain rfl := Option.some.inj hd
      cases hl : p.kept.lookup k with
      | none => simp [hl] at h
      | some l =>
        obtain rfl : _ = code := by simpa [hl] using h
        exact .result hl
    | argument t n =>
      rw [hb] at hd h
      obtain rfl := Option.some.inj hd
      cases hl : p.ownRecord with
      | none => simp [hl] at h
      | some l =>
        obtain rfl : _ = code := by simpa [hl] using h
        exact .parameter hl
    | _ => rw [hb] at hd; cases hd
  · rw [hnone] at hd
    cases hd

namespace Woven

/-- The frame of an instruction recalls where the values came from with which its block is entered.
-/
def Recalls (v : Woven) (k : Nat) (g : Origins) : Prop :=
  ∀ i, v.method.insns[k]? = some i → ∃ f, v.frame? k = some f ∧ v.plan.Recalled f g

/-- Code from which on every point that is stored is exact: at each instruction, on the way to the
block that a jump leads to, and up to the end, where something else holds. -/
def Points (v : Woven) (Q : Origins → Prop) : List Insn → Origins → Prop
  | [], g => Q g
  | i :: rest, g =>
    (∀ h, i = .hook h → v.plan.StoresExactly v.method v.context.analysis g h) ∧
      (∀ l k, i.jumpTarget? = some l → v.method.labelAt? l = some k → v.Recalls k (g.after i)) ∧
      (i.fallsThrough = true → v.Points Q rest (g.after i))

theorem points_silent (hi : i.Silent) (h : v.Points Q rest (g.after i)) :
    v.Points Q (i :: rest) g := by
  refine ⟨fun hk hhook j f _ _ s hs => ?_, fun l t hl => ?_, fun _ => h⟩
  · subst hhook
    rw [hi j] at hs
    cases hs
  · cases i with
    | hook hk => cases hl
    | _ => exact nomatch hi.symm.trans hl

/-- A hook that stores points. -/
theorem points_hook {h : Hook} (hi : v.method.insns[g.here.insn]? = some i)
    (hf : v.frame? g.here.insn = some f)
    (hstores : ∀ s ∈ i.stores h, ∀ d, (f.top s.operand).definition? = some d →
      v.plan.Exact (g.stack s.point) (g.stack s.value) d)
    (hrest : v.Points Q rest (g.after (.hook h))) : v.Points Q (.hook h :: rest) g := by
  refine ⟨fun h' hh j f' hj hf' => ?_, (fun l t hl => nomatch hl), fun _ => hrest⟩
  obtain rfl := Insn.hook.inj hh
  obtain rfl := Option.some.inj (hi.symm.trans hj)
  obtain rfl := Option.some.inj (hf.symm.trans hf')
  exact hstores

/-! ## 2. Pushing points -/

/-- Code that pushes some point. -/
theorem points_loading (hcode : v.plan.Loading code)
    (hrest : ∀ point, v.Points Q rest (g.push point)) : v.Points Q (code ++ rest) g := by
  cases hcode with
  | constant place => exact points_silent (fun _ => rfl) (hrest _)
  | null | read _ | merge _ => exact points_silent rfl (hrest _)
  | result _ | argument _ _ => exact points_silent rfl (points_silent (fun _ => rfl) (hrest _))

/-- **The code for a point** pushes a point that is exact. -/
theorem points_point {u : FlowValue} {o : Origin} (hu : v.plan.Stems g.locals u o)
    (hcode : v.plan.PointCode u code)
    (hrest : ∀ point, (∀ d, u.definition? = some d → v.plan.Exact point o d) →
      v.Points Q rest (g.push point)) : v.Points Q (code ++ rest) g := by
  cases hd : u.definition? with
  | none =>
    exact points_loading (Plan.loading_of_pointCode hcode) fun point =>
      hrest point fun d hd' => nomatch hd.symm.trans hd'
  | some d =>
    replace hrest (point : Origin) (h : v.plan.Exact point o d) : v.Points Q rest (g.push point) :=
      hrest point fun d' hd' => Option.some.inj (hd.symm.trans hd') ▸ h
    have hrecalls := hu.recalls d hd
    cases Plan.fetches_of_pointCode hcode hd with
    | @literal k place hplace =>
      obtain ⟨e, he, ho⟩ := hrecalls
      exact points_silent (fun _ => rfl) (hrest _ ⟨e, place, he, ho, hplace, rfl⟩)
    | @read k l hl =>
      obtain ⟨e, he, ho, hlocal⟩ := hrecalls
      exact points_silent rfl (hrest _ ⟨e, he, ho, hlocal l hl⟩)
    | @result k l hl =>
      obtain ⟨e, he, ho, hlocal⟩ := hrecalls
      refine points_silent rfl (points_silent (fun _ => rfl)
        (hrest (g.locals l).returned ⟨e, he, ho, ?_⟩))
      rw [hlocal l hl]
      rfl
    | @parameter n l hl =>
      obtain ⟨ho, hlocal⟩ := hrecalls
      refine points_silent rfl (points_silent (fun _ => rfl)
        (hrest ((g.locals l).argument n) ⟨ho, ?_⟩))
      rw [hlocal l hl]
      rfl

/-! ## 3. In front of an instruction -/

/-- The origins with which an execution of an instruction goes on; if `filled` holds, the local for
the point of what it reads has got that point. -/
structure Awaits (v : Woven) (e : Execution) (f : Frame) (filled : Prop) (g : Origins) : Prop where
  here : g.here = e
  recalled : v.plan.Recalled f g
  point : filled → ∀ l, v.plan.localOf (.point e.insn) = some l → g.locals l = .readPoint e

variable {e : Execution} {filled : Prop} {l : Nat}

theorem frame?_locals_length (hf : v.frame? k = some f) {u : LocalUse}
    (hl : v.plan.localOf u = some l) : f.locals.length ≤ l := by
  rw [v.analysed.locals k f hf]
  exact (v.planned.above u l hl).1

/-- What the frame before an instruction holds is not defined there. -/
theorem frame?_use (hf : v.frame? k = some f) {u : LocalUse} (hu : u = .point k ∨ u = .record k) :
    f.All fun w => ∀ d, w.definition? = some d → d.use? ≠ some u := by
  have hinsn : ∀ d : Definition, d.use? = some u → d.insn? = some k := by
    intro d huse
    rcases hu with rfl | rfl <;> cases d <;> simp [Definition.use?] at huse <;>
      simp [Definition.insn?, huse]
  exact ⟨fun w hw d hd huse => (v.analysed.unstale k f d hf (hinsn d huse)).locals w hw hd,
    fun w hw d hd huse => (v.analysed.unstale k f d hf (hinsn d huse)).stack w hw hd⟩

/-- A local for the members of a merge recalls no definition. -/
theorem recalled_setMerge {slot : MergeSlot} (hrecalled : v.plan.Recalled f g) (o : Origin)
    (hl : v.plan.localOf (.merge slot) = some l) (hroom : f.locals.length ≤ l) :
    v.plan.Recalled f (g.setLocal l o) := by
  refine hrecalled.setLocal (u := .merge slot) o hroom (fun u hu => v.planned.apart u _ l hu hl) ?_
  exact ⟨fun w _ d _ => by cases d <;> simp [Definition.use?],
    fun w _ d _ => by cases d <;> simp [Definition.use?]⟩

theorem Awaits.setMerge {slot : MergeSlot} (h : v.Awaits e f filled g)
    (hf : v.frame? e.insn = some f) (o : Origin) (hl : v.plan.localOf (.merge slot) = some l) :
    v.Awaits e f filled (g.setLocal l o) := by
  refine ⟨h.here, recalled_setMerge h.recalled o hl (frame?_locals_length hf hl),
    fun hfilled j hj => ?_⟩
  refine (if_neg fun hjl => ?_).trans (h.point hfilled j hj)
  exact LocalUse.noConfusion (v.planned.apart _ _ l (hjl ▸ hj) hl)

theorem Awaits.setPoint (h : v.Awaits e f filled g) (hf : v.frame? e.insn = some f)
    (hl : v.plan.localOf (.point e.insn) = some l) :
    v.Awaits e f True (g.setLocal l (.readPoint e)) := by
  refine ⟨h.here, ?_, fun _ j hj => ?_⟩
  · exact h.recalled.setLocal (u := .point e.insn) _ (frame?_locals_length hf hl)
      (fun u hu => v.planned.apart u _ l hu hl) (frame?_use hf (.inl rfl))
  · obtain rfl := Option.some.inj (hl.symm.trans hj)
    exact if_pos rfl

/-- A point that is taken, for a read to come. -/
theorem after_elementPoint (g : Origins) (l : Nat) :
    ((g.after .dup2).after (.hook .elementPoint)).after (.store l) =
      g.setLocal l (.readPoint g.here) := by
  have hstack : (((g.after .dup2).after (.hook .elementPoint)).after (.store l)).stack =
      g.stack := by
    funext n
    rcases n with _ | _ | n <;> rfl
  exact congrArg (Origins.mk g.here _) hstack

theorem after_fieldPoint (g : Origins) (key : String) (l : Nat) :
    ((g.after .dup).after (.hook (.fieldPoint key))).after (.store l) =
      g.setLocal l (.readPoint g.here) := by
  have hstack : (((g.after .dup).after (.hook (.fieldPoint key))).after (.store l)).stack =
      g.stack := by
    funext n
    rcases n with _ | n <;> rfl
  exact congrArg (Origins.mk g.here _) hstack

/-- The object whose field is written, put on top. -/
theorem after_over (g : Origins) : (g.after .dup2).after .pop = g.push (g.stack 1) := by
  have hstack : ((g.after .dup2).after .pop).stack = (g.push (g.stack 1)).stack := by
    funext n
    rcases n with _ | _ | _ | n <;> rfl
  exact congrArg (Origins.mk g.here _) hstack

/-- The code for a point does not touch the locals. -/
theorem store_not_mem_of_loading (h : v.plan.Loading code) : .store l ∉ code := by
  cases h <;> simp

/-- **The code in front of an instruction.** -/
theorem points_beforePiece (hf : v.frame? e.insn = some f)
    (hpiece : Plan.BeforePiece v.context v.plan e.insn code) (h : v.Awaits e f filled g)
    (hrest : ∀ g', v.Awaits e f (filled ∨ ∃ l, v.plan.localOf (.point e.insn) = some l ∧
      .store l ∈ code) g' → v.Points Q rest g') : v.Points Q (code ++ rest) g := by
  have hall {g' : Origins} (h' : v.Awaits e f True g') : v.Points Q rest g' :=
    hrest g' ⟨h'.here, h'.recalled, fun _ => h'.point trivial⟩
  have hsame {g' : Origins} (h' : v.Awaits e f filled g')
      (hstore : ∀ l, v.plan.localOf (.point e.insn) = some l → .store l ∉ code) :
      v.Points Q rest g' := by
    refine hrest g' ⟨h'.here, h'.recalled, fun hfilled => ?_⟩
    rcases hfilled with hfilled | ⟨l, hl, hmem⟩
    · exact h'.point hfilled
    · exact absurd hmem (hstore l hl)
  cases hpiece with
  | @element l hl hi =>
    refine points_silent rfl (points_silent (fun _ => rfl) (points_silent rfl ?_))
    rw [after_elementPoint, h.here]
    exact hall (h.setPoint hf hl)
  | @field l fd hl hi =>
    refine points_silent rfl (points_silent (fun _ => rfl) (points_silent rfl ?_))
    rw [after_fieldPoint, h.here]
    exact hall (h.setPoint hf hl)
  | @join slot inner l t code hl hmember hk hcode =>
    rw [List.append_assoc]
    refine points_loading (Plan.loading_of_loadPoint hcode) fun point => points_silent rfl ?_
    refine hsame (h.setMerge hf point hl) fun j hj hmem => ?_
    rcases List.mem_append.mp hmem with hmem | hmem
    · exact store_not_mem_of_loading (Plan.loading_of_loadPoint hcode) hmem
    · obtain rfl := Insn.store.inj (List.mem_singleton.mp hmem)
      exact LocalUse.noConfusion (v.planned.apart _ _ j hj hl)
  | @fieldStore f' fd code hi hf' hcode =>
    obtain rfl := Option.some.inj (hf.symm.trans hf')
    rw [List.append_assoc, List.append_assoc, List.cons_append, List.cons_append, List.nil_append]
    refine points_silent rfl (points_silent rfl ?_)
    rw [after_over]
    refine points_point (g := g.push (g.stack 1)) (h.recalled.top 0) hcode fun point hpoint => ?_
    have hnext := hsame h fun l _ hmem =>
      store_not_mem_of_loading (l := l) (Plan.loading_of_pointCode hcode) (by simpa using hmem)
    refine points_hook (h.here.symm ▸ hi) (h.here.symm ▸ hf) (fun s hs d hd => ?_) hnext
    obtain rfl := List.mem_singleton.mp hs
    exact hpoint d hd
  | @returning f' t l code hi ht hf' hl hcode =>
    obtain rfl := Option.some.inj (hf.symm.trans hf')
    rw [List.append_assoc]
    refine points_silent rfl ?_
    refine points_point (g := g.push (g.locals l)) (h.recalled.top 0) (.inl hcode)
      fun point hpoint => ?_
    have hnext := hsame h fun l _ hmem =>
      store_not_mem_of_loading (l := l) (Plan.loading_of_loadPoint hcode) (by simpa using hmem)
    refine points_hook (h.here.symm ▸ hi) (h.here.symm ▸ hf) (fun s hs d hd => ?_) hnext
    obtain rfl := List.mem_singleton.mp hs
    exact hpoint d hd

/-- All code in front of an instruction, piece by piece. -/
theorem points_before (hf : v.frame? e.insn = some f) : ∀ {edits : List (Nat × List Insn)}
    {filled : Prop} {g : Origins},
    (∀ x ∈ edits, Plan.BeforePiece v.context v.plan x.1 x.2) → v.Awaits e f filled g →
    (∀ g', v.Awaits e f (filled ∨ ∃ l code, v.plan.localOf (.point e.insn) = some l ∧
      (e.insn, code) ∈ edits ∧ .store l ∈ code) g' → v.Points Q rest g') →
    v.Points Q (Plan.codeAt e.insn edits ++ rest) g := by
  intro edits
  induction edits with
  | nil =>
    intro filled g _ h hrest
    refine hrest g ⟨h.here, h.recalled, fun hfilled => ?_⟩
    rcases hfilled with hfilled | ⟨_, _, _, hmem, _⟩
    · exact h.point hfilled
    · cases hmem
  | cons x edits ih =>
    intro filled g hpieces h hrest
    obtain ⟨k, code⟩ := x
    obtain ⟨hpiece, hothers⟩ := List.forall_mem_cons.mp hpieces
    have hcodeAt : Plan.codeAt e.insn ((k, code) :: edits) =
        (if k = e.insn then code else []) ++ Plan.codeAt e.insn edits := rfl
    rw [hcodeAt, List.append_assoc]
    by_cases hk : k = e.insn
    · subst hk
      rw [if_pos rfl]
      refine points_beforePiece hf hpiece h fun g₁ h₁ => ih hothers h₁ fun g₂ h₂ => hrest g₂ ?_
      refine ⟨h₂.here, h₂.recalled, fun hfilled => h₂.point ?_⟩
      rcases hfilled with hfilled | ⟨l, code', hl, hmem, hstore⟩
      · exact .inl (.inl hfilled)
      · rcases List.mem_cons.mp hmem with hmem | hmem
        · exact .inl (.inr ⟨l, hl, (Prod.mk.inj hmem).2 ▸ hstore⟩)
        · exact .inr ⟨l, code', hl, hmem, hstore⟩
    · rw [if_neg hk, List.nil_append]
      refine ih hothers h fun g' h' => hrest g' ⟨h'.here, h'.recalled, fun hfilled => h'.point ?_⟩
      rcases hfilled with hfilled | ⟨l, code', hl, hmem, hstore⟩
      · exact .inl hfilled
      · rcases List.mem_cons.mp hmem with hmem | hmem
        · exact absurd (Prod.mk.inj hmem).1.symm hk
        · exact .inr ⟨l, code', hl, hmem, hstore⟩

/-- The points of the arguments of a call, put into its record one after the other. -/
theorem points_arguments {o : Origin} (hf : v.frame? g.here.insn = some f)
    (hrecalled : v.plan.Recalled f g) : ∀ {args : List (Nat × Nat × List Insn)},
    (∀ x ∈ args, Plan.ArgumentPiece v.context v.plan g.here.insn x.2.1 x.2.2) →
    v.Points Q rest (g.push o) →
    v.Points Q ((args.flatMap fun x => x.2.2 ++ [.hook (.invocationSetArg x.2.1)]) ++ rest)
      (g.push o) := by
  intro args
  induction args with
  | nil => exact fun _ hrest => hrest
  | cons x args ih =>
    intro hpieces hrest
    obtain ⟨hpiece, hpieces⟩ := List.forall_mem_cons.mp hpieces
    obtain ⟨target, f', ⟨hi, -⟩, -, hf', hcode⟩ := hpiece.call
    obtain rfl := Option.some.inj (hf.symm.trans hf')
    have hnext := ih hpieces hrest
    rw [List.flatMap_cons, List.append_assoc, List.append_assoc]
    refine points_point (g := g.push o) (hrecalled.top _) (.inl hcode) fun point hpoint => ?_
    refine points_hook hi hf (fun s hs d hd => ?_) hnext
    obtain rfl := List.mem_singleton.mp hs
    exact hpoint d hd

/-- **The code that gives a call its record.** -/
theorem points_record (hi : v.method.insns[e.insn]? = some i) (hf : v.frame? e.insn = some f)
    (h : v.Awaits e f True g)
    (hrest : ∀ g', g'.here = e → v.plan.Recalled f g' → v.plan.Provided g' → v.Points Q rest g') :
    v.Points Q (v.plan.recordCode e.insn i ++ rest) g := by
  obtain ⟨rfl, hrecalled, hpoint⟩ := h
  replace hpoint := hpoint trivial
  have hunkept (hl : v.plan.localOf (.record g.here.insn) = none) : v.Points Q rest g :=
    hrest g rfl hrecalled ⟨hpoint, fun l hl' => nomatch hl.symm.trans hl'⟩
  rcases Plan.recordCode_cases v.planned hi with hnone | ⟨target, put, rfl, -, hput, hcode⟩
  · rw [hnone]
    exact hunkept (Plan.localOf_record_of_recordCode_nil hnone)
  · rw [hcode, List.cons_append, List.append_assoc]
    refine points_silent (fun _ => rfl) ?_
    refine points_arguments (o := .record g.here) hf hrecalled (fun x hx => ?_)
      (points_silent (fun _ => rfl) ?_)
    · obtain ⟨hmem, hk⟩ := List.mem_filter.mp hx
      exact of_decide_eq_true hk ▸ v.planned.arguments x hmem
    · cases hput with
      | dropped hl => exact points_silent rfl (hunkept hl)
      | @kept l hl =>
        refine points_silent rfl
          (hrest (g.setLocal l (.record g.here)) rfl ?_ ⟨fun j hj => ?_, fun j hj => ?_⟩)
        · exact hrecalled.setLocal (u := .record g.here.insn) _ (frame?_locals_length hf hl)
            (fun u hu => v.planned.apart u _ l hu hl) (frame?_use hf (.inr rfl))
        · refine (if_neg fun hjl => ?_).trans (hpoint j hj)
          exact LocalUse.noConfusion (v.planned.apart _ _ l (hjl ▸ hj) hl)
        · obtain rfl := Option.some.inj (hl.symm.trans hj)
          exact if_pos rfl

/-- **All that stands in front of an instruction.** -/
theorem points_ahead (hi : v.method.insns[e.insn]? = some i) (hf : v.frame? e.insn = some f)
    (hhere : g.here = e) (hrecalled : v.plan.Recalled f g)
    (hrest : ∀ g', g'.here = e → v.plan.Recalled f g' → v.plan.Provided g' → v.Points Q rest g') :
    v.Points Q (v.plan.ahead e.insn i ++ rest) g := by
  unfold Plan.ahead
  rw [List.append_assoc]
  refine points_before hf v.planned.before ⟨hhere, hrecalled, False.elim⟩ fun g₁ h₁ => ?_
  refine points_record hi hf ⟨h₁.here, h₁.recalled, fun _ l hl => h₁.point ?_ l hl⟩ hrest
  -- the local for the point of a read is filled in front of the read
  rcases v.planned.served _ l hl with ⟨-, hmem⟩ | ⟨fd, -, hmem⟩
  · exact .inr ⟨l, _, hl, hmem, by simp⟩
  · exact .inr ⟨l, _, hl, hmem, by simp⟩

/-! ## 4. The instruction and what stands in its place -/

/-- What holds after an instruction holds where the method may go on. -/
theorem recalls_next (hi : v.method.insns[k]? = some i) (hf : v.frame? k = some f)
    (hout : f.after k i = .ok out) (hrecalled : v.plan.Recalled out g) {t : Nat}
    (ht : t ∈ FlowGraph.next v.context.analysis.graph.successors k) : v.Recalls t g := by
  obtain ⟨out', hout', hedges⟩ := v.analysed.edges k i f hi hf
  obtain rfl := Except.ok.inj (hout.symm.trans hout')
  obtain ⟨h, hh, habsorbs⟩ := hedges t ht
  exact fun j _ => ⟨h, hh, hrecalled.absorbs habsorbs⟩

/-- A mask has a mark for every operand. -/
theorem mask_length {p : Plan} {ts : List Ty} {us : List FlowValue} {mask : List Char}
    {loads : List Insn} (h : p.Marked ts us mask loads) : mask.length = ts.length := by
  induction h with
  | done => rfl
  | marked _ _ ih => exact congrArg (· + 1) ih
  | unmarked _ ih => exact congrArg (· + 1) ih

/-- Storing at marked operands finds the values under the points. -/
theorem value_of_marked {points : Nat} {s : Storing} : ∀ {mask : List Char},
    s ∈ Storing.marked points mask → s.value = points + s.operand
  | [], hs => nomatch hs
  | mark :: mask, hs => by
    unfold Storing.marked at hs
    simp only at hs
    split at hs
    · rcases List.mem_cons.mp hs with rfl | hs
      · rfl
      · exact value_of_marked hs
    · exact value_of_marked hs

/-- The points of marked operands are pushed one after the other. -/
theorem points_marked {ts : List Ty} {us : List FlowValue} {mask : List Char} {loads : List Insn}
    (points : Nat) (hm : v.plan.Marked ts us mask loads) (hrecalled : v.plan.Recalled f g) :
    us = (List.range mask.length).reverse.map f.top → ∀ ps : List Origin,
    (∀ qs : List Origin, qs.length = mask.count 'T' →
      (∀ s ∈ Storing.marked points mask, ∀ d, (f.top s.operand).definition? = some d →
        ∀ below, v.plan.Exact (Origins.onto qs below s.point) (g.stack s.operand) d) →
      v.Points Q rest { g with stack := Origins.onto (qs ++ ps) g.stack }) →
    v.Points Q (loads ++ rest) { g with stack := Origins.onto ps g.stack } := by
  have hnext : ∀ {u : FlowValue} {us : List FlowValue} {mark : Char} {mask : List Char},
      u :: us = (List.range (mark :: mask).length).reverse.map f.top →
      u = f.top mask.length ∧ us = (List.range mask.length).reverse.map f.top := by
    intro u us mark mask h
    rw [List.length_cons, List.range_succ, List.reverse_append] at h
    exact List.cons.inj h
  induction hm with
  | done => exact fun _ ps hrest => hrest [] rfl fun s hs => nomatch hs
  | @marked u ts us mask code loads hcode _ ih =>
    intro hall ps hrest
    obtain ⟨rfl, hus⟩ := hnext hall
    rw [List.append_assoc]
    refine points_point (g := { g with stack := Origins.onto ps g.stack })
      (hrecalled.top mask.length) (.inl hcode)
      fun point hpoint => ih hus (point :: ps) fun qs hqs hexact => ?_
    have hgoal := hrest (qs ++ [point]) (by simp [hqs]) fun s hs d hd below => ?_
    · rwa [List.append_assoc] at hgoal
    · rw [Origins.onto_append]
      rcases List.mem_cons.mp hs with rfl | hs
      · rw [← hqs, ← Nat.zero_add qs.length, Origins.onto_add]
        exact hpoint d hd
      · exact hexact s hs d hd _
  | @unmarked t u ts us mask loads _ ih =>
    intro hus ps hrest
    exact ih (hnext hus).2 ps hrest

/-- Code that takes operands away and leaves others, whose points it has stored. -/
theorem recalled_exchanged {outs result S L : List FlowValue} {os : List Origin}
    (h : v.plan.Recalled ⟨L, outs ++ S⟩ g)
    (hresult : List.Forall₂ (v.plan.Stems g.locals) result os) (hlocals : g'.locals = g.locals)
    (hstack : ∀ n, g'.stack n = Origins.onto os (fun n => g.stack (n + outs.length)) n) :
    v.plan.Recalled ⟨L, result ++ S⟩ g' := by
  have hexchanged := h.exchanged outs hresult
  refine ⟨fun l u hu => hlocals ▸ hexchanged.locals l u hu, fun n u hu => ?_⟩
  rw [hlocals, hstack]
  exact hexchanged.stack n u hu

/-- **The code in the place of an instruction.** -/
theorem points_replaced (hc : v.Copying) (hi : v.method.insns[g.here.insn]? = some i)
    (hf : v.frame? g.here.insn = some f) (hrecalled : v.plan.Recalled f g)
    (hout : f.after g.here.insn i = .ok out)
    (hpiece : Plan.ReplacedPiece v.context v.sites v.plan g.here.insn code)
    (hrest : i.fallsThrough = true → ∀ g', g'.here = g.here → v.plan.Recalled out g' →
      v.Points Q rest g') : v.Points Q (code ++ rest) g := by
  have hinsn {j : Insn} (hj : v.method.insns[g.here.insn]? = some j) : i = j :=
    Option.some.inj (hi.symm.trans hj)
  cases hpiece with
  | @arrayStore f' elem code hi' hf' hcode =>
    obtain rfl := hinsn hi'
    obtain rfl := Option.some.inj (hf.symm.trans hf')
    rw [List.append_assoc]
    refine points_point (hrecalled.top 0) hcode fun point hpoint => ?_
    refine points_hook hi hf (fun s hs d hd => ?_) (hrest rfl _ rfl ?_)
    · obtain rfl := List.mem_singleton.mp hs
      exact hpoint d hd
    · obtain ⟨outs, L, S, rfl, rfl, houts⟩ := Frame.after_exchange hout rfl
      refine recalled_exchanged hrecalled .nil rfl fun n => ?_
      rw [houts]
      rfl
  | @concat f' args mask loads hi' hf' hmarked =>
    obtain rfl := hinsn hi'
    obtain rfl := Option.some.inj (hf.symm.trans hf')
    have hmask : (String.ofList mask).toList = mask := String.toList_ofList
    rw [List.append_assoc]
    refine points_marked (mask.count 'T') hmarked hrecalled (by rw [mask_length hmarked]) []
      fun qs hqs hexact => ?_
    rw [List.append_nil]
    refine points_hook hi hf (fun s hs d hd => ?_) (hrest rfl _ rfl ?_)
    · simp only [Insn.stores, markedCount, hmask] at hs
      have hvalue : Origins.onto qs g.stack s.value = g.stack s.operand := by
        rw [value_of_marked hs, Nat.add_comm, ← hqs, Origins.onto_add]
      have hpoint := hexact s hs d hd g.stack
      rw [← hvalue] at hpoint
      exact hpoint
    · obtain ⟨outs, L, S, rfl, rfl, houts⟩ := Frame.after_exchange hout rfl
      have hunknown : v.plan.Stems g.locals (.ofType .string) .unknown :=
        Plan.stems_of_no_definition rfl
      refine recalled_exchanged hrecalled (.cons hunknown .nil) rfl fun n => ?_
      cases n with
      | zero => rfl
      | succ n =>
        have hbelow : Origins.onto qs g.stack (n + args.length + qs.length) =
            g.stack (n + args.length) := Origins.onto_add qs g.stack _
        rw [hqs, ← hmask, Nat.add_assoc] at hbelow
        rw [houts]
        exact hbelow
  | @stringComparison equal target hi' hsite =>
    have hkind := hinsn hi'
    have hcompares : i.jumpTarget? = some target ∧ i.fallsThrough = true ∧ i.pops = 2 ∧
        i.leaves? g.here.insn = some [] := by
      cases equal <;> simp [hkind, Insn.jumpTarget?, Insn.fallsThrough, Insn.pops,
        Insn.effect, Insn.leaves?]
    obtain ⟨hjump, hfalls, hpops, hleaves⟩ := hcompares
    obtain ⟨outs, L, S, rfl, rfl, houts⟩ := Frame.after_exchange hout hleaves
    have hgoes : v.plan.Recalled ⟨L, [] ++ S⟩ ((g.after (.hook .stringEquals)).after
        (.ifZero (if equal then .ne else .eq) target)) := by
      refine recalled_exchanged hrecalled .nil rfl fun n => ?_
      rw [houts, hpops]
      rfl
    have hnext := hrest hfalls ((g.after (.hook .stringEquals)).after
      (.ifZero (if equal then .ne else .eq) target)) rfl hgoes
    refine points_silent (fun _ => rfl) ⟨fun h hh => ?_, fun l t hl ht => ?_, fun _ => hnext⟩
    · cases hh
    · obtain ⟨t', ht', hedge⟩ := v.analysed.graph.jump hi hjump
      obtain rfl : target = l := Option.some.inj hl
      obtain rfl := Option.some.inj (ht.symm.trans ht')
      exact recalls_next hi hf hout hgoes hedge
  | @arrayCopy target hi' hcopy =>
    obtain rfl := hinsn hi'
    refine points_silent (fun _ => rfl) (hrest rfl _ rfl ?_)
    cases Frame.after_effect hout with
    | idle hidle => simp at hidle
    | exchange L S houts hresult => cases hresult
    | call L S hargs hresult =>
      obtain rfl := Frame.callResult_arrayCopy hcopy hresult
      refine recalled_exchanged hrecalled .nil rfl fun n => ?_
      rw [hargs, (hc.copies target (List.mem_of_getElem? hi)).bulk hcopy]
      rfl
  | @arrayClone target hi' hcopy hclone =>
    obtain rfl := hinsn hi'
    refine points_silent (fun _ => rfl) (hrest rfl _ rfl ?_)
    cases Frame.after_effect hout with
    | idle hidle => simp at hidle
    | exchange L S houts hresult => cases hresult
    | call L S hargs hresult =>
      obtain ⟨t, ht⟩ := Option.isSome_iff_exists.mp hclone
      obtain rfl := Frame.callResult_clone ht hresult
      have hunknown : v.plan.Stems g.locals (.ofType t) .unknown := Plan.stems_of_no_definition rfl
      refine recalled_exchanged hrecalled (.cons hunknown .nil) rfl fun n => ?_
      rw [hargs, (hc.copies target (List.mem_of_getElem? hi)).clone hclone]
      rfl

/-- **An instruction that stays what it was.** -/
theorem points_insn (hi : v.method.insns[g.here.insn]? = some i)
    (hf : v.frame? g.here.insn = some f) (hrecalled : v.plan.Recalled f g)
    (hprovided : v.plan.Provided g) (hout : f.after g.here.insn i = .ok out)
    (hclone : ∀ target, i = .invoke target → Carrier.clonedArray? target = none)
    (hrest : i.fallsThrough = true → ∀ g', g'.here = g.here → v.plan.Recalled out g' →
      v.Points Q rest g') : v.Points Q (i :: rest) g := by
  have hafter : v.plan.Recalled out (g.after i) :=
    hrecalled.after hprovided (fun u l hl => frame?_locals_length hf hl) hclone hout
  refine ⟨fun h hh => ?_, fun l t hl ht => ?_, fun hfalls => hrest hfalls (g.after i) rfl hafter⟩
  · rw [hh] at hout
    cases hout
  · obtain ⟨t', ht', hedge⟩ := v.analysed.graph.jump hi hl
    obtain rfl := Option.some.inj (ht.symm.trans ht')
    exact recalls_next hi hf hout hafter hedge

theorem points_inPlace (hc : v.Copying) (hi : v.method.insns[g.here.insn]? = some i)
    (hf : v.frame? g.here.insn = some f) (hrecalled : v.plan.Recalled f g)
    (hprovided : v.plan.Provided g) (hout : f.after g.here.insn i = .ok out)
    (hrest : i.fallsThrough = true → ∀ g', g'.here = g.here → v.plan.Recalled out g' →
      v.Points Q rest g') : v.Points Q (v.plan.inPlace g.here.insn i ++ rest) g := by
  unfold Plan.inPlace
  cases hreplaced : v.plan.replaced.lookup g.here.insn with
  | some code =>
    exact points_replaced hc hi hf hrecalled hout
      (v.planned.replaced _ (mem_of_lookup hreplaced)) hrest
  | none =>
    refine points_insn hi hf hrecalled hprovided hout (fun target htarget => ?_) hrest
    subst htarget
    by_contra hclone
    have hsome := hc.replaced _ f target hi hf (Option.isSome_iff_ne_none.mpr hclone)
    rw [hreplaced] at hsome
    cases hsome

/-! ## 5. Behind an instruction -/

/-- **The code behind an instruction.** -/
theorem points_afterPiece (hi : v.method.insns[k]? = some i) (hout : f.after k i = .ok out)
    (hrecalled : v.plan.Recalled out g) (hroom : ∀ u l, v.plan.localOf u = some l →
      out.locals.length ≤ l)
    (hpiece : Plan.AfterPiece v.context v.sites v.plan k code)
    (hrest : ∀ g', g'.here = g.here → v.plan.Recalled out g' → v.Points Q rest g') :
    v.Points Q (code ++ rest) g := by
  cases hpiece with
  | @member slot l u code hl hmember hmerged hk hcode =>
    rw [List.append_assoc]
    exact points_loading (Plan.loading_of_loadPoint hcode) fun point => points_silent rfl
      (hrest (g.setLocal l point) rfl (recalled_setMerge hrecalled point hl (hroom _ l hl)))
  | @literal text classId offset hsite hi' =>
    obtain rfl := Option.some.inj (hi.symm.trans hi')
    refine points_silent (fun _ => rfl) (hrest _ rfl ?_)
    cases Frame.after_effect hout with
    | idle hidle => simp at hidle
    | exchange L S houts hresult => cases hresult
    | literal c L S =>
      have hunknown : v.plan.Stems g.locals (.ofType .string) .unknown :=
        Plan.stems_of_no_definition rfl
      exact hrecalled.exchanged [.ofType .string] (.cons hunknown .nil)

theorem points_behind (hi : v.method.insns[k]? = some i) (hout : f.after k i = .ok out)
    (hroom : ∀ u l, v.plan.localOf u = some l → out.locals.length ≤ l) :
    ∀ {edits : List (Nat × List Insn)} {g : Origins},
    (∀ x ∈ edits, Plan.AfterPiece v.context v.sites v.plan x.1 x.2) → v.plan.Recalled out g →
    (∀ g', g'.here = g.here → v.plan.Recalled out g' → v.Points Q rest g') →
    v.Points Q (Plan.codeAt k edits ++ rest) g := by
  intro edits
  induction edits with
  | nil => exact fun _ hrecalled hrest => hrest _ rfl hrecalled
  | cons x edits ih =>
    intro g hpieces hrecalled hrest
    obtain ⟨j, code⟩ := x
    obtain ⟨hpiece, hothers⟩ := List.forall_mem_cons.mp hpieces
    have hcodeAt : Plan.codeAt k ((j, code) :: edits) =
        (if j = k then code else []) ++ Plan.codeAt k edits := rfl
    rw [hcodeAt, List.append_assoc]
    split
    · rename_i hjk
      subst hjk
      refine points_afterPiece hi hout hrecalled hroom hpiece fun g₁ hhere₁ h₁ => ?_
      exact ih hothers h₁ fun g₂ hhere₂ h₂ => hrest g₂ (hhere₂.trans hhere₁) h₂
    · exact ih hothers hrecalled hrest

/-! ## 6. Blocks -/

/-- **A whole block** stores exact points, and hands over what the next frame recalls. -/
theorem points_block (hc : v.Copying) (hi : v.method.insns[k]? = some i) (h : v.Recalls k g) :
    v.Points (v.Recalls (k + 1)) (v.plan.block k i) (g.enter k) := by
  obtain ⟨f, hf, hrecalled⟩ := h i hi
  obtain ⟨out, hout, -⟩ := v.analysed.edges k i f hi hf
  replace hrecalled : v.plan.Recalled f (g.enter k) := ⟨hrecalled.locals, hrecalled.stack⟩
  have hroom : ∀ u l, v.plan.localOf u = some l → out.locals.length ≤ l := by
    intro u l hl
    rw [Frame.after_locals_length hout]
    exact frame?_locals_length hf hl
  have hbehind (hfalls : i.fallsThrough = true) {g' : Origins} (h' : v.plan.Recalled out g') :
      v.Points (v.Recalls (k + 1)) (v.plan.behind k ++ []) g' := by
    refine points_behind hi hout hroom v.planned.after h' fun g'' _ h'' j hj => ?_
    have hlt := (List.getElem?_eq_some_iff.mp hj).1
    exact recalls_next hi hf hout h'' (v.analysed.graph.following hi hfalls hlt) j hj
  rw [← List.append_nil (v.plan.block k i)]
  cases hlabel : i.label? with
  | none =>
    rw [Plan.block_other _ _ hlabel, List.append_assoc, List.append_assoc]
    refine points_ahead (e := (g.enter k).here) hi hf rfl hrecalled fun g₁ hhere₁ h₁ hprovided => ?_
    obtain rfl : k = g₁.here.insn := congrArg Execution.insn hhere₁.symm
    exact points_inPlace hc hi hf h₁ hprovided hout fun hfalls g₂ _ h₂ => hbehind hfalls h₂
  | some l =>
    obtain rfl : i = .label l := by
      cases i <;> simp [Insn.label?] at hlabel
      rw [hlabel]
    obtain rfl : f = out := Except.ok.inj hout
    rw [Plan.block_label, List.cons_append, List.append_assoc]
    refine points_silent rfl (points_ahead (e := (g.enter k).here) hi hf rfl hrecalled ?_)
    exact fun g₁ _ h₁ _ => hbehind rfl h₁

end Woven

end Provenance
