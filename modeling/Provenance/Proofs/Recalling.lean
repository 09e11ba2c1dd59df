/-
# What the locals of woven code recall

A value of a frame that has a single definition came from there, and as long as it is in the frame,
the local in which weaving keeps the point or the record of that definition still holds what belongs
to the same execution (`Plan.Recalls`).  This is kept by every instruction (`Plan.Recalled.after`):
one that defines a value anew finds the local filled by the code in front of it, and no frame before
it holds the value it has defined at an earlier execution.
-/
import Provenance.Proofs.Origins

namespace Provenance

/-! ## 1. Values -/

/-- What the local for a definition is for; the point of a literal needs none. -/
def Definition.use? : Definition → Option LocalUse
  | .literal _ => none
  | .read k => some (.point k)
  | .result k => some (.record k)
  | .parameter _ => some .own

namespace Plan

/-- The value of a definition, and what belongs to it in the locals of woven code. -/
def Recalls (p : Plan) (L : Nat → Origin) (o : Origin) : Definition → Prop
  | .literal k => ∃ e, e.insn = k ∧ (o = .literal e ∨ o = .result e)
  | .read k => ∃ e, e.insn = k ∧ o = .result e ∧
      ∀ l, p.localOf (.point k) = some l → L l = .readPoint e
  | .result k => ∃ e, e.insn = k ∧ o = .result e ∧
      ∀ l, p.localOf (.record k) = some l → L l = .record e
  | .parameter n => o = .parameter n ∧ ∀ l, p.localOf .own = some l → L l = .ownRecord

/-- A value of a frame and where it came from. -/
structure Stems (p : Plan) (L : Nat → Origin) (v : FlowValue) (o : Origin) : Prop where
  recalls : ∀ d, v.definition? = some d → p.Recalls L o d
  literal : v.literal?.isSome → o.isLiteral = true
  other : v.definition?.isSome → v.literal? = none → o.isLiteral = false

variable {p : Plan} {L L' : Nat → Origin} {v w : FlowValue} {o : Origin} {d : Definition}

theorem Recalls.congr (h : p.Recalls L o d)
    (hL : ∀ u l, d.use? = some u → p.localOf u = some l → L' l = L l) : p.Recalls L' o d := by
  cases d with
  | literal k => exact h
  | read k =>
    obtain ⟨e, hk, ho, hl⟩ := h
    exact ⟨e, hk, ho, fun l hlocal => (hL _ l rfl hlocal).trans (hl l hlocal)⟩
  | result k =>
    obtain ⟨e, hk, ho, hl⟩ := h
    exact ⟨e, hk, ho, fun l hlocal => (hL _ l rfl hlocal).trans (hl l hlocal)⟩
  | parameter n => exact ⟨h.1, fun l hlocal => (hL _ l rfl hlocal).trans (h.2 l hlocal)⟩

theorem Stems.congr (h : p.Stems L v o)
    (hL : ∀ d u l, v.definition? = some d → d.use? = some u → p.localOf u = some l → L' l = L l) :
    p.Stems L' v o :=
  ⟨fun d hd => (h.recalls d hd).congr fun u l hu hl => hL d u l hd hu hl, h.literal, h.other⟩

theorem literal?_of_no_definition (h : v.definition? = none) : v.literal? = none := by
  cases hl : v.literal? with
  | none => rfl
  | some n =>
    obtain ⟨k, hk⟩ := FlowValue.definition?_of_literal (v := v) (by rw [hl]; rfl)
    rw [h] at hk
    cases hk

/-- Of a value without a definition nothing is said. -/
theorem stems_of_no_definition (h : v.definition? = none) : p.Stems L v o := by
  refine ⟨fun d hd => ?_, fun hl => ?_, fun hd _ => ?_⟩
  · rw [h] at hd
    cases hd
  · rw [literal?_of_no_definition h] at hl
    cases hl
  · rw [h] at hd
    cases hd

/-- A value with the same definition that is a literal just as well. -/
theorem Stems.same (h : p.Stems L v o) (hd : w.definition? = v.definition?)
    (hl : w.literal? = v.literal?) : p.Stems L w o :=
  ⟨fun d hw => h.recalls d (hd ▸ hw), fun hw => h.literal (hl ▸ hw),
    fun hw hnone => h.other (hd ▸ hw) (hl ▸ hnone)⟩

theorem Stems.moved (h : p.Stems L v o) (k : Nat) : p.Stems L (v.moved k) o :=
  h.same (by simp) (by simp)

theorem Stems.retyped (h : p.Stems L v o) (t : Ty) : p.Stems L (v.retyped t) o :=
  h.same (by simp) (by simp)

theorem Stems.keeps (h : p.Stems L v o) (hw : w.Keeps v) : p.Stems L w o := by
  cases hd : w.definition? with
  | none => exact stems_of_no_definition hd
  | some d => exact hw d hd ▸ h

/-- A literal that is converted to another size. -/
theorem Stems.cast (h : p.Stems L v o) (t : Ty) (k : Nat) : p.Stems L (.cast t k v) o.widened := by
  refine ⟨fun d hd => ?_, fun hl => ?_, fun _ _ => ?_⟩
  · have hrecalls := h.recalls d hd
    cases d with
    | literal j =>
      obtain ⟨e, he, rfl | rfl⟩ := hrecalls
      · exact ⟨e, he, Or.inr rfl⟩
      · exact ⟨e, he, Or.inr rfl⟩
    | read j =>
      obtain ⟨e, he, rfl, hlocal⟩ := hrecalls
      exact ⟨e, he, rfl, hlocal⟩
    | result j =>
      obtain ⟨e, he, rfl, hlocal⟩ := hrecalls
      exact ⟨e, he, rfl, hlocal⟩
    | parameter n =>
      obtain ⟨rfl, hlocal⟩ := hrecalls
      exact ⟨rfl, hlocal⟩
  · cases hl
  · cases o <;> rfl

theorem Stems.converted (h : p.Stems L v o) (k : Nat) (source target : Ty) :
    p.Stems L (Frame.converted k source target v) (o.converted source target) := by
  unfold Frame.converted Origin.converted
  split
  · exact h.retyped target
  · split
    · rename_i hcast
      rw [if_pos (Bool.and_eq_true_iff.mp hcast).1]
      exact h.cast target k
    · exact stems_of_no_definition rfl

theorem Stems.combined {second : FlowValue} {o' : Origin} (h : p.Stems L v o)
    (h' : p.Stems L second o') (op : BinaryOp) (t : Ty) :
    p.Stems L (Frame.combined op t v second) (.combined op o o') := by
  -- an operand whose definition counts is a literal exactly if its origin is
  have hmask : ∀ {a b : FlowValue} {oa ob : Origin}, p.Stems L a oa → p.Stems L b ob →
      a.literal?.isSome → b.literal?.isNone → b.definition?.isSome →
      oa.isLiteral = true ∧ ob.isLiteral = false := fun ha hb hla hlb hdb =>
    ⟨ha.literal hla, hb.other hdb (Option.isNone_iff_eq_none.mp hlb)⟩
  cases hd : (Frame.combined op t v second).definition? with
  | none => exact stems_of_no_definition hd
  | some d =>
    cases op with
    | and =>
      simp only [Frame.combined, Bool.and_eq_true] at hd ⊢
      split
      · rename_i hc
        rw [if_pos hc] at hd
        obtain ⟨hs, hv⟩ := hmask h' h hc.1 hc.2 (by rw [hd]; rfl)
        simpa [Origin.combined, hs, hv] using h
      · rename_i hc
        rw [if_neg hc] at hd
        split
        · rename_i hc'
          rw [if_pos hc'] at hd
          obtain ⟨hv, hs⟩ := hmask h h' hc'.1 hc'.2 (by rw [hd]; rfl)
          simpa [Origin.combined, hs, hv] using h'
        · rename_i hc'
          rw [if_neg hc'] at hd
          cases hd
    | ushr =>
      simp only [Frame.combined] at hd ⊢
      split
      · rename_i hc
        simpa [Origin.combined, h'.literal hc] using h
      · rename_i hc
        rw [if_neg hc] at hd
        cases hd
    | _ => cases hd

/-! ## 2. Frames -/

/-- All values of a frame and where they came from. -/
structure Recalled (p : Plan) (f : Frame) (g : Origins) : Prop where
  locals : ∀ l v, f.locals[l]? = some v → p.Stems g.locals v (g.locals l)
  stack : ∀ n v, f.stack[n]? = some v → p.Stems g.locals v (g.stack n)

variable {f out h : Frame} {g g' : Origins}

/-- The value some places below the top, or the one that stands for a missing operand. -/
theorem Recalled.top (hf : p.Recalled f g) (n : Nat) : p.Stems g.locals (f.top n) (g.stack n) := by
  unfold Frame.top Frame.peek?
  cases hn : f.stack[n]? with
  | none => exact stems_of_no_definition rfl
  | some v => exact hf.stack n v hn

/-- A frame that absorbs another one. -/
theorem Recalled.absorbs (hf : p.Recalled f g) (hh : h.Absorbs f) : p.Recalled h g := by
  have hkeeps : ∀ {vs ws : List FlowValue} {n : Nat} {v : FlowValue},
      List.Forall₂ FlowValue.Keeps vs ws → vs[n]? = some v → ∃ w, ws[n]? = some w ∧ v.Keeps w := by
    intro vs ws n v hvw hv
    obtain ⟨hlt, rfl⟩ := List.getElem?_eq_some_iff.mp hv
    have hlt' : n < ws.length := hvw.length_eq ▸ hlt
    exact ⟨ws[n], List.getElem?_eq_getElem hlt', hvw.get hlt hlt'⟩
  refine ⟨fun l v hv => ?_, fun n v hv => ?_⟩
  · obtain ⟨w, hw, hvw⟩ := hkeeps hh.locals hv
    exact (hf.locals l w hw).keeps hvw
  · obtain ⟨w, hw, hvw⟩ := hkeeps hh.stack hv
    exact (hf.stack n w hw).keeps hvw

/-- The locals change, but none that recalls a definition of the frame. -/
theorem Recalled.congr (hf : p.Recalled f g) (hstack : g'.stack = g.stack)
    (hlocals : ∀ l < f.locals.length, g'.locals l = g.locals l)
    (huse : f.All fun v => ∀ d u l, v.definition? = some d → d.use? = some u →
      p.localOf u = some l → g'.locals l = g.locals l) : p.Recalled f g' := by
  refine ⟨fun l v hv => ?_, fun n v hv => ?_⟩
  · rw [hlocals l (List.getElem?_eq_some_iff.mp hv).1]
    exact (hf.locals l v hv).congr (huse.locals v (List.mem_of_getElem? hv))
  · rw [hstack]
    exact (hf.stack n v hv).congr (huse.stack v (List.mem_of_getElem? hv))

/-- A local is filled that recalls no definition of the frame. -/
theorem Recalled.setLocal {u : LocalUse} {l : Nat} (hf : p.Recalled f g) (o : Origin)
    (hroom : f.locals.length ≤ l)
    (happart : ∀ u', p.localOf u' = some l → u' = u)
    (huse : f.All fun v => ∀ d, v.definition? = some d → d.use? ≠ some u) :
    p.Recalled f (g.setLocal l o) := by
  have hother : ∀ {v : FlowValue}, (∀ d, v.definition? = some d → d.use? ≠ some u) →
      ∀ d u' j, v.definition? = some d → d.use? = some u' → p.localOf u' = some j →
      (g.setLocal l o).locals j = g.locals j := by
    intro v hv d u' j hd hu' hj
    refine if_neg fun hjl => hv d hd ?_
    rw [hu', happart u' (hjl ▸ hj)]
  refine hf.congr rfl (fun j hj => if_neg (by omega)) ⟨fun v hv => ?_, fun v hv => ?_⟩
  · exact hother (huse.locals v hv)
  · exact hother (huse.stack v hv)

/-- Operands that are taken off. -/
theorem Recalled.dropped {Ls outs S : List FlowValue} (hf : p.Recalled ⟨Ls, outs ++ S⟩ g) :
    p.Recalled ⟨Ls, S⟩ { g with stack := fun n => g.stack (n + outs.length) } := by
  refine ⟨hf.locals, fun n v hv => hf.stack (n + outs.length) v ?_⟩
  simpa [List.getElem?_append_right] using hv

theorem Recalled.pushed {v : FlowValue} {o : Origin} (hf : p.Recalled f g)
    (hv : p.Stems g.locals v o) : p.Recalled ⟨f.locals, v :: f.stack⟩ (g.push o) := by
  refine ⟨hf.locals, fun n u hu => ?_⟩
  cases n with
  | zero => exact Option.some.inj hu ▸ hv
  | succ n => exact hf.stack n u hu

/-- Operands that give way to others. -/
theorem Recalled.exchanged {Ls result S : List FlowValue} {os : List Origin} (outs : List FlowValue)
    (hf : p.Recalled ⟨Ls, outs ++ S⟩ g) (hresult : List.Forall₂ (p.Stems g.locals) result os) :
    p.Recalled ⟨Ls, result ++ S⟩
      { g with stack := Origins.onto os fun n => g.stack (n + outs.length) } := by
  induction hresult with
  | nil => exact hf.dropped
  | cons hv _ ih => exact ih.pushed hv

/-! ## 3. Instructions -/

/-- What the instruction at the execution under way needs the locals to hold. -/
structure Provided (p : Plan) (g : Origins) : Prop where
  point : ∀ l, p.localOf (.point g.here.insn) = some l → g.locals l = .readPoint g.here
  record : ∀ l, p.localOf (.record g.here.insn) = some l → g.locals l = .record g.here

/-- A value read by the execution under way. -/
theorem Provided.read (hg : p.Provided g) (hv : v.definition? = some (.read g.here.insn))
    (hl : v.literal? = none) : p.Stems g.locals v (.result g.here) := by
  refine ⟨fun d hd => ?_, fun hsome => ?_, fun _ _ => rfl⟩
  · obtain rfl := Option.some.inj (hv.symm.trans hd)
    exact ⟨_, rfl, rfl, hg.point⟩
  · rw [hl] at hsome
    cases hsome

/-- What a call returns. -/
theorem Provided.returned (hg : p.Provided g) (t : Ty) :
    p.Stems g.locals (.returned t g.here.insn) (.result g.here) := by
  refine ⟨fun d hd => ?_, (fun hsome => nomatch hsome), fun _ _ => rfl⟩
  obtain rfl := Option.some.inj hd
  exact ⟨_, rfl, rfl, hg.record⟩

theorem stems_constant (L : Nat → Origin) (t : Ty) (n : Int64) (e : Execution) :
    p.Stems L (.constant t e.insn n) (.literal e) := by
  refine ⟨fun d hd => ?_, fun _ => rfl, (fun _ h => nomatch h)⟩
  obtain rfl := Option.some.inj hd
  exact ⟨e, rfl, .inl rfl⟩

/-- **What a call leaves.** -/
theorem Recalled.call {m : MethodRef} {args result : List FlowValue}
    (hg : p.Provided g) (hargs : ∀ v, args[0]? = some v → p.Stems g.locals v (g.stack 0))
    (h : Frame.callResult g.here.insn m args = .ok result)
    (hclone : Carrier.clonedArray? m = none) :
    List.Forall₂ (p.Stems g.locals) result (g.left (.invoke m)) := by
  have hunknown (t : Ty) (o : Origin) : p.Stems g.locals (.ofType t) o := stems_of_no_definition rfl
  unfold Frame.callResult at h
  unfold Origins.left
  simp only
  split at h
  · rename_i hpass
    have hret : m.desc.ret ≠ .void := by
      simp only [Carrier.isPassThrough, Bool.and_eq_true, decide_eq_true_eq] at hpass
      exact Frame.ret_ne_void_of_descriptor ['(', 'B', ')'] (by decide) hpass.2
    rw [if_neg hret, if_pos hpass]
    cases args with
    | nil => cases h
    | cons last rest =>
      obtain rfl := Except.ok.inj h
      exact .cons ((hargs last rfl).retyped _) .nil
  · rename_i hpass
    rw [if_neg hpass]
    split at h
    · rename_i hchar
      have hret : m.desc.ret ≠ .void := by
        simp only [Carrier.isCharAt, Bool.and_eq_true, decide_eq_true_eq] at hchar
        exact Frame.ret_ne_void_of_descriptor ['(', 'I', ')'] (by decide) hchar.2
      obtain rfl := Except.ok.inj h
      rw [if_neg hret]
      exact .cons (hg.read rfl rfl) .nil
    · rw [hclone] at h
      simp only at h
      split at h
      · rename_i hcarries
        have hret : m.desc.ret ≠ .void := by
          intro hvoid
          simp [Carrier.carriesResult, hvoid] at hcarries
        obtain rfl := Except.ok.inj h
        rw [if_neg hret]
        exact .cons (hg.returned _) .nil
      · split at h
        · rename_i hret
          obtain rfl := Except.ok.inj h
          rw [if_pos hret]
          exact .nil
        · rename_i hret
          obtain rfl := Except.ok.inj h
          rw [if_neg hret]
          exact .cons (hunknown _ _) .nil

/-- What is left by an instruction that neither moves nor combines values, nor calls. -/
theorem Recalled.leaves {i : Insn} {result : List FlowValue} (hg : p.Provided g)
    (h : i.leaves? g.here.insn = some result) :
    List.Forall₂ (p.Stems g.locals) result (g.left i) := by
  have hunknown (t : Ty) (o : Origin) : p.Stems g.locals (.ofType t) o := stems_of_no_definition rfl
  cases i with
  | arrayLoad t =>
    obtain rfl := Option.some.inj h
    refine .cons ?_ .nil
    split
    · exact hg.read rfl rfl
    · exact hunknown _ _
  | getField fd =>
    obtain rfl := Option.some.inj h
    refine .cons ?_ .nil
    split
    · exact hg.read rfl rfl
    · exact hunknown _ _
  | arrayLength | newArray _ | concat _ =>
    obtain rfl := Option.some.inj h
    exact .cons (hunknown _ _) .nil
  | pop | arrayStore _ | putField _ | ifZero _ _ | ifNull _ | ifNonNull _ | ifCmp _ _ | ifRefEq _
  | ifRefNe _ | ret _ =>
    obtain rfl := Option.some.inj h
    exact .nil
  | _ => cases h

/-- **What an instruction does to a frame, it does to the origins.** -/
theorem Recalled.after {i : Insn} (hf : p.Recalled f g) (hg : p.Provided g)
    (hroom : ∀ u l, p.localOf u = some l → f.locals.length ≤ l)
    (hclone : ∀ target, i = .invoke target → Carrier.clonedArray? target = none)
    (h : f.after g.here.insn i = .ok out) : p.Recalled out (g.after i) := by
  cases Frame.after_effect h with
  | idle hidle =>
    rcases hidle with rfl | ⟨l, rfl⟩ | ⟨l, rfl⟩ <;> exact ⟨hf.locals, hf.stack⟩
  | literal c L S =>
    cases c with
    | int n => exact hf.pushed (stems_constant _ _ _ _)
    | _ => exact hf.pushed (stems_of_no_definition rfl)
  | load S hl => exact hf.pushed ((hf.locals _ _ hl).moved _)
  | @store l L v S hl =>
    have hother : ∀ u j, p.localOf u = some j → (g.after (.store l)).locals j = g.locals j :=
      fun u j hj => if_neg (Nat.ne_of_gt (Nat.lt_of_lt_of_le hl (hroom u j hj)))
    refine ⟨fun j w hw => ?_, fun n w hw => ?_⟩
    · refine Stems.congr (L := g.locals) ?_ fun _ u j' _ _ hj' => hother u j' hj'
      show p.Stems g.locals w (if j = l then g.stack 0 else g.locals j)
      rw [List.getElem?_set] at hw
      split at hw
      · rename_i hlj
        obtain rfl := Option.some.inj hw
        rw [if_pos hlj.symm]
        exact (hf.stack 0 v rfl).moved _
      · rename_i hlj
        rw [if_neg (Ne.symm hlj)]
        exact hf.locals j w hw
    · exact (hf.stack (n + 1) w hw).congr fun _ u j' _ _ hj' => hother u j' hj'
  | dup v L S =>
    exact hf.exchanged [v] (.cons ((hf.stack 0 v rfl).moved _) (.cons (hf.stack 0 v rfl) .nil))
  | dupX1 v w L S =>
    exact hf.exchanged [v, w] (.cons (hf.stack 0 v rfl) (.cons (hf.stack 1 w rfl)
      (.cons ((hf.stack 0 v rfl).moved _) .nil)))
  | dup2 v w L S =>
    exact hf.exchanged [v, w] (.cons ((hf.stack 0 v rfl).moved _)
      (.cons ((hf.stack 1 w rfl).moved _)
        (.cons (hf.stack 0 v rfl) (.cons (hf.stack 1 w rfl) .nil))))
  | swap v w L S =>
    exact hf.exchanged [v, w] (.cons ((hf.stack 1 w rfl).moved _)
      (.cons ((hf.stack 0 v rfl).moved _) .nil))
  | binary op t second first L S =>
    exact hf.exchanged [second, first]
      (.cons ((hf.stack 1 first rfl).combined (hf.stack 0 second rfl) op t) .nil)
  | convert source target v L S =>
    exact hf.exchanged [v] (.cons ((hf.stack 0 v rfl).converted _ source target) .nil)
  | @call m args result L S hargs hresult =>
    have hfirst : ∀ v, args[0]? = some v → p.Stems g.locals v (g.stack 0) :=
      fun v hv => hf.stack 0 v (by
        rw [List.getElem?_append_left (List.getElem?_eq_some_iff.mp hv).1]
        exact hv)
    have hleft := Recalled.call hg hfirst hresult (hclone m rfl)
    have hout := hf.exchanged _ hleft
    rw [hargs] at hout
    exact hout
  | @exchange _ outs result L S houts hresult =>
    have hleft := Recalled.leaves hg hresult
    have hstore : (g.after i).locals = g.locals := by
      cases i with
      | store l => cases hresult
      | _ => rfl
    have hout := hf.exchanged _ hleft
    rw [houts] at hout
    exact ⟨hstore ▸ hout.locals, hstore ▸ hout.stack⟩

end Plan

end Provenance
