/-
# What an instruction does to a frame

`Frame.Effect` lists the ways in which a frame can change, once and for all: every other fact
about `Frame.after` is read off its cases.  The main ones are that the heights of the stack are as
`Insn.effect` says (`Frame.after_height`), that a local is only touched where there is one
(`Frame.after_local`), and that a definition either was there before or is made by this very
instruction (`Frame.after_definition`).
-/
import Provenance.Flow.Frame
import Provenance.Proofs.Merging

namespace Provenance

/-! ## 1. The cases -/

/-- What an instruction leaves that neither moves nor combines values, nor calls. -/
def Insn.leaves? (k : Nat) : Insn → Option (List FlowValue)
  | .pop | .arrayStore _ | .putField _ | .ifZero _ _ | .ifNull _ | .ifNonNull _ | .ifCmp _ _
  | .ifRefEq _ | .ifRefNe _ | .ret _ => some []
  | .arrayLoad t => some [if t.isTrackedElement then .element t k else .ofType t]
  | .arrayLength => some [.ofType .int]
  | .newArray t => some [.ofType (.array t)]
  | .getField fd => some [if Carrier.carriesField fd then .field fd.ty k fd.key else .ofType fd.ty]
  | .concat _ => some [.ofType .string]
  | _ => none

namespace Frame

/-- The effect of the instruction at `k`, case by case. -/
inductive Effect (k : Nat) : Insn → Frame → Frame → Prop where
  | idle {i : Insn} {f : Frame} (h : i = .nop ∨ (∃ l, i = .label l) ∨ ∃ l, i = .goto l) :
      Effect k i f f
  | literal (c : Constant) (L S : List FlowValue) :
      Effect k (.const c) ⟨L, S⟩ ⟨L, ofConstant k c :: S⟩
  | load {l : Nat} {v : FlowValue} {L : List FlowValue} (S : List FlowValue) (h : L[l]? = some v) :
      Effect k (.load l) ⟨L, S⟩ ⟨L, v.moved k :: S⟩
  | store {l : Nat} {L : List FlowValue} (v : FlowValue) (S : List FlowValue) (h : l < L.length) :
      Effect k (.store l) ⟨L, v :: S⟩ ⟨L.set l (v.moved k), S⟩
  | dup (v : FlowValue) (L S : List FlowValue) :
      Effect k .dup ⟨L, v :: S⟩ ⟨L, v.moved k :: v :: S⟩
  | dupX1 (v w : FlowValue) (L S : List FlowValue) :
      Effect k .dupX1 ⟨L, v :: w :: S⟩ ⟨L, v :: w :: v.moved k :: S⟩
  | dup2 (v w : FlowValue) (L S : List FlowValue) :
      Effect k .dup2 ⟨L, v :: w :: S⟩ ⟨L, v.moved k :: w.moved k :: v :: w :: S⟩
  | swap (v w : FlowValue) (L S : List FlowValue) :
      Effect k .swap ⟨L, v :: w :: S⟩ ⟨L, w.moved k :: v.moved k :: S⟩
  | binary (op : BinaryOp) (t : Ty) (second first : FlowValue) (L S : List FlowValue) :
      Effect k (.binary op t) ⟨L, second :: first :: S⟩ ⟨L, combined op t first second :: S⟩
  | convert (source target : Ty) (v : FlowValue) (L S : List FlowValue) :
      Effect k (.convert source target) ⟨L, v :: S⟩ ⟨L, converted k source target v :: S⟩
  | call {m : MethodRef} {args result : List FlowValue} (L S : List FlowValue)
      (hargs : args.length = m.operandCount) (hresult : callResult k m args = .ok result) :
      Effect k (.invoke m) ⟨L, args ++ S⟩ ⟨L, result ++ S⟩
  | exchange {i : Insn} {out result : List FlowValue} (L S : List FlowValue)
      (hout : out.length = i.pops) (hresult : i.leaves? k = some result) :
      Effect k i ⟨L, out ++ S⟩ ⟨L, result ++ S⟩

/-- Replacing operands succeeds only if they are there. -/
theorem popPush_eq_ok {f g : Frame} {k count : Nat} {result : List FlowValue}
    (h : f.popPush k count result = .ok g) :
    ∃ out S, out.length = count ∧ f = ⟨f.locals, out ++ S⟩ ∧ g = ⟨f.locals, result ++ S⟩ := by
  unfold popPush at h
  split at h
  · exact absurd h (by simp)
  · rename_i hlen
    simp only [Except.ok.injEq] at h
    refine ⟨f.stack.take count, f.stack.drop count, ?_, ?_, h.symm⟩
    · rw [List.length_take]
      omega
    · rw [List.take_append_drop]

/-- **Every effect is one of the cases.** -/
theorem after_effect {k : Nat} {i : Insn} {f g : Frame} (h : f.after k i = .ok g) :
    Effect k i f g := by
  have hexchange : ∀ {count : Nat} {result : List FlowValue},
      f.popPush k count result = .ok g → count = i.pops → i.leaves? k = some result →
      Effect k i f g := by
    intro count result hp hc hr
    obtain ⟨out, S, hout, hf, hg⟩ := popPush_eq_ok hp
    rw [hf, hg]
    exact Effect.exchange f.locals S (hout.trans hc) hr
  obtain ⟨L, S⟩ := f
  unfold after at h
  cases i with
  | nop => cases h; exact Effect.idle (Or.inl rfl)
  | label l => cases h; exact Effect.idle (Or.inr (Or.inl ⟨l, rfl⟩))
  | goto l => cases h; exact Effect.idle (Or.inr (Or.inr ⟨l, rfl⟩))
  | const c => cases h; exact Effect.literal c L S
  | load l =>
    simp only at h
    cases hl : L[l]? with
    | none => simp [hl] at h
    | some v =>
      simp only [hl] at h
      cases h
      exact Effect.load S hl
  | store l =>
    cases S with
    | nil => simp at h
    | cons v S =>
      simp only at h
      split at h
      · rename_i hlt
        cases h
        exact Effect.store v S hlt
      · exact absurd h (by simp)
  | dup =>
    match S, h with
    | v :: S, h => cases h; exact Effect.dup v L S
  | dupX1 =>
    match S, h with
    | v :: w :: S, h => cases h; exact Effect.dupX1 v w L S
  | dup2 =>
    match S, h with
    | v :: w :: S, h => cases h; exact Effect.dup2 v w L S
  | swap =>
    match S, h with
    | v :: w :: S, h => cases h; exact Effect.swap v w L S
  | binary op t =>
    match S, h with
    | v :: w :: S, h => cases h; exact Effect.binary op t v w L S
  | convert source target =>
    match S, h with
    | v :: S, h => cases h; exact Effect.convert source target v L S
  | invoke m =>
    simp only at h
    split at h
    · exact absurd h (by simp)
    · rename_i hlen
      cases hr : callResult k m (S.take m.operandCount) with
      | error e => simp [hr] at h
      | ok result =>
        simp only [hr] at h
        cases h
        have hargs : (S.take m.operandCount).length = m.operandCount := by
          rw [List.length_take]
          omega
        have := Effect.call (k := k) L (S.drop m.operandCount) hargs hr
        rwa [List.take_append_drop] at this
  | hook hk => exact absurd h (by simp)
  | _ => exact hexchange h rfl rfl

/-- An instruction that neither moves nor combines values, nor calls. -/
theorem after_exchange {k : Nat} {i : Insn} {f g : Frame} {result : List FlowValue}
    (h : f.after k i = .ok g) (hresult : i.leaves? k = some result) :
    ∃ outs L S, f = ⟨L, outs ++ S⟩ ∧ g = ⟨L, result ++ S⟩ ∧ outs.length = i.pops := by
  cases after_effect h with
  | idle hidle => rcases hidle with rfl | ⟨l, rfl⟩ | ⟨l, rfl⟩ <;> cases hresult
  | exchange L S hout hresult' =>
    obtain rfl := Option.some.inj (hresult.symm.trans hresult')
    exact ⟨_, L, S, rfl, rfl, hout⟩
  | _ => cases hresult

/-! ## 2. Heights and locals -/

/-- An instruction touches only locals that there are. -/
theorem after_local {k l : Nat} {i : Insn} {f g : Frame} (h : f.after k i = .ok g)
    (hl : i.local? = some l) : l < f.locals.length := by
  replace h := after_effect h
  cases h with
  | load S h =>
    simp only [Insn.local?, Option.some.injEq] at hl
    exact hl ▸ (List.getElem?_eq_some_iff.mp h).1
  | store v S h =>
    simp only [Insn.local?, Option.some.injEq] at hl
    exact hl ▸ h
  | idle h => rcases h with rfl | ⟨_, rfl⟩ | ⟨_, rfl⟩ <;> simp [Insn.local?] at hl
  | exchange L S hout hresult =>
    cases i <;> simp [Insn.local?, Insn.leaves?] at hl hresult
  | _ => simp [Insn.local?] at hl

/-- No instruction changes the number of locals. -/
theorem after_locals_length {k : Nat} {i : Insn} {f g : Frame} (h : f.after k i = .ok g) :
    g.locals.length = f.locals.length := by
  cases after_effect h <;> simp

theorem descriptorChars_ne_nil (t : Ty) : t.descriptorChars ≠ [] := by
  cases t <;> simp [Ty.descriptorChars]

/-- The last letter of a method's descriptor is that of its result. -/
theorem ret_getLast?_of_descriptor {d : MethodDesc} (cs : List Char) (c : Char)
    (h : d.descriptor = String.ofList (cs ++ [c])) : d.ret.descriptorChars.getLast? = some c := by
  have hchars : d.descriptorChars = cs ++ [c] := String.ofList_injective h
  have hlast : d.descriptorChars.getLast? = some c := by simp [hchars]
  obtain ⟨x, xs, hret⟩ := List.exists_cons_of_ne_nil (descriptorChars_ne_nil d.ret)
  rw [MethodDesc.descriptorChars, hret, List.getLast?_append] at hlast
  rw [hret]
  simpa using hlast

/-- So it tells whether there is a result. -/
theorem ret_ne_void_of_descriptor {d : MethodDesc} (cs : List Char) {c : Char} (hc : c ≠ 'V')
    (h : d.descriptor = String.ofList (cs ++ [c])) : d.ret ≠ .void := by
  intro hv
  have hlast := ret_getLast?_of_descriptor cs c h
  rw [hv] at hlast
  exact hc (by simpa [Ty.descriptorChars] using hlast.symm)

/-- A descriptor that speaks of no arrays and ends as that of a method without a result is one. -/
theorem ret_eq_void_of_descriptor {d : MethodDesc} (cs : List Char) (hcs : '[' ∉ cs)
    (h : d.descriptor = String.ofList (cs ++ ['V'])) : d.ret = .void := by
  have hlast := ret_getLast?_of_descriptor cs 'V' h
  cases hret : d.ret with
  | void => rfl
  | array elem =>
    have hchars : d.descriptorChars = cs ++ ['V'] := String.ofList_injective h
    have hmem : '[' ∈ d.descriptorChars := by
      simp [MethodDesc.descriptorChars, hret, Ty.descriptorChars]
    rw [hchars] at hmem
    simp [hcs] at hmem
  | object name =>
    rw [hret, Ty.descriptorChars, List.getLast?_concat] at hlast
    simp at hlast
  | _ => simp [hret, Ty.descriptorChars] at hlast

/-- A call whose result is followed is no bulk copy. -/
theorem isArrayCopy_of_carriesResult {m : MethodRef}
    (h : Carrier.carriesResult m.owner m.name m.desc = true) : Carrier.isArrayCopy m = false := by
  rw [Bool.eq_false_iff]
  intro hcopy
  simp only [Carrier.isArrayCopy, Bool.and_eq_true, decide_eq_true_eq] at hcopy
  have hlast := ret_getLast?_of_descriptor (d := m.desc)
    "(Ljava/lang/Object;ILjava/lang/Object;II)".toList 'V' (hcopy.2.trans (by decide))
  unfold Carrier.carriesResult at h
  cases hret : m.desc.ret <;> simp [hret, Ty.descriptorChars] at h hlast

/-- What the analysis takes a call to leave is what its descriptor says, except that a clone of a
followed array always leaves one. -/
theorem callResult_length {k : Nat} {m : MethodRef} {args result : List FlowValue}
    (h : callResult k m args = .ok result)
    (hclone : (Carrier.clonedArray? m).isSome → m.desc.ret ≠ .void) :
    result.length = if m.desc.ret = .void then 0 else 1 := by
  unfold callResult at h
  split at h
  · rename_i hp
    have hret : m.desc.ret ≠ .void := by
      simp only [Carrier.isPassThrough, Bool.and_eq_true, decide_eq_true_eq] at hp
      exact ret_ne_void_of_descriptor ['(', 'B', ')'] (c := 'I') (by decide) hp.2
    cases args with
    | nil => simp at h
    | cons last rest =>
      simp only [Except.ok.injEq] at h
      simp [← h, hret]
  · split at h
    · rename_i hp
      have hret : m.desc.ret ≠ .void := by
        simp only [Carrier.isCharAt, Bool.and_eq_true, decide_eq_true_eq] at hp
        exact ret_ne_void_of_descriptor ['(', 'I', ')'] (c := 'C') (by decide) hp.2
      simp only [Except.ok.injEq] at h
      simp [← h, hret]
    · split at h
      · rename_i array ha
        simp only [Except.ok.injEq] at h
        simp [← h, hclone (by simp [ha])]
      · split at h
        · rename_i hc
          have hret : m.desc.ret ≠ .void := by
            intro hv
            simp [Carrier.carriesResult, hv] at hc
          simp only [Except.ok.injEq] at h
          simp [← h, hret]
        · split at h
          · rename_i hv
            simp only [Except.ok.injEq] at h
            simp [← h, hv]
          · rename_i hv
            simp only [Except.ok.injEq] at h
            simp [← h, hv]

/-- The bulk copy leaves nothing. -/
theorem callResult_arrayCopy {k : Nat} {m : MethodRef} {args result : List FlowValue}
    (hcopy : Carrier.isArrayCopy m = true) (h : callResult k m args = .ok result) :
    result = [] := by
  have hcarries : ¬Carrier.carriesResult m.owner m.name m.desc = true := by
    intro hcarries
    rw [isArrayCopy_of_carriesResult hcarries] at hcopy
    cases hcopy
  simp only [Carrier.isArrayCopy, Bool.and_eq_true, decide_eq_true_eq] at hcopy
  obtain ⟨⟨howner, hname⟩, hdesc⟩ := hcopy
  have hret : m.desc.ret = .void :=
    ret_eq_void_of_descriptor "(Ljava/lang/Object;ILjava/lang/Object;II)".toList (by decide)
      (hdesc.trans (by decide))
  have hpass : ¬Carrier.isPassThrough m = true := by
    simp [Carrier.isPassThrough, howner, Carrier.systemClass]
  have hchar : ¬Carrier.isCharAt m = true := by
    simp [Carrier.isCharAt, howner, Carrier.systemClass, Ty.stringClass]
  have hclone : Carrier.clonedArray? m = none := by
    simp [Carrier.clonedArray?, hname]
  unfold callResult at h
  rw [if_neg hpass, if_neg hchar, hclone] at h
  simp only [hcarries, hret, if_true, Bool.false_eq_true, if_false] at h
  exact (Except.ok.inj h).symm

/-- A clone leaves an array of which nothing is known. -/
theorem callResult_clone {k : Nat} {m : MethodRef} {t : Ty} {args result : List FlowValue}
    (hclone : Carrier.clonedArray? m = some t) (h : callResult k m args = .ok result) :
    result = [.ofType t] := by
  have hname : m.name = "clone" := by
    unfold Carrier.clonedArray? at hclone
    split at hclone
    · rename_i hcond
      simp only [Bool.and_eq_true, decide_eq_true_eq] at hcond
      exact hcond.1.1
    · cases hclone
  have hpass : ¬Carrier.isPassThrough m = true := by simp [Carrier.isPassThrough, hname]
  have hchar : ¬Carrier.isCharAt m = true := by simp [Carrier.isCharAt, hname]
  unfold callResult at h
  rw [if_neg hpass, if_neg hchar, hclone] at h
  exact (Except.ok.inj h).symm

/-- **Heights are as `Insn.effect` says.** -/
theorem after_height {k : Nat} {i : Insn} {f g : Frame} (h : f.after k i = .ok g)
    (hclone : ∀ m, i = .invoke m → (Carrier.clonedArray? m).isSome → m.desc.ret ≠ .void) :
    i.pops ≤ f.stack.length ∧ g.stack.length = f.stack.length - i.pops + i.pushes := by
  replace h := after_effect h
  cases h with
  | idle h => rcases h with rfl | ⟨_, rfl⟩ | ⟨_, rfl⟩ <;> simp [Insn.pops, Insn.pushes, Insn.effect]
  | call L S hargs hresult =>
    have := callResult_length hresult (hclone _ rfl)
    simp only [Insn.pops, Insn.pushes, Insn.effect, List.length_append, hargs, this]
    omega
  | exchange L S hout hresult =>
    have hpush : ∀ result, i.leaves? k = some result → result.length = i.pushes := by
      intro result hr
      cases i <;> simp [Insn.leaves?] at hr <;> simp [← hr, Insn.pushes, Insn.effect]
    simp only [List.length_append, hout, hpush _ hresult]
    omega
  | _ => simp [Insn.pops, Insn.pushes, Insn.effect]

/-! ## 3. Where the values of a frame come from -/

/-- All values of a frame have a property. -/
structure All (P : FlowValue → Prop) (f : Frame) : Prop where
  locals : ∀ v ∈ f.locals, P v
  stack : ∀ v ∈ f.stack, P v

/-- The values that the instruction at `k` defines. -/
inductive Fresh (k : Nat) : Insn → FlowValue → Prop where
  | literal (c : Int32) : Fresh k (.const (.int c)) (.constant .int k c.toInt64)
  | element (t : Ty) : Fresh k (.arrayLoad t) (.element t k)
  | charAt {m : MethodRef} (h : Carrier.isCharAt m = true) : Fresh k (.invoke m) (.element .char k)
  | field (fd : FieldRef) : Fresh k (.getField fd) (.field fd.ty k fd.key)
  | returned {m : MethodRef} (hpass : Carrier.isPassThrough m = false)
      (hclone : Carrier.clonedArray? m = none)
      (h : Carrier.carriesResult m.owner m.name m.desc = true) :
      Fresh k (.invoke m) (.returned m.desc.ret k)

/-- The types that the instruction at `k` gives to a value. -/
def Retypes (i : Insn) (t : Ty) : Prop := isNarrow t = true ∨ ∃ m, i = .invoke m ∧ t = m.desc.ret

/-- What holds of the values after the instruction at `k` if a property holds of the values before
it. -/
structure Leads (k : Nat) (i : Insn) (P Q : FlowValue → Prop) : Prop where
  kept : ∀ v, P v → Q v
  moved : ∀ v, P v → Q (v.moved k)
  retyped : ∀ t v, Retypes i t → P v → Q (v.retyped t)
  cast : ∀ t v, t = .int ∨ t = .long → v.mayBeTrackable = true → P v → Q (.cast t k v)
  unknown : ∀ t, Q (.untrackable t)
  fresh : ∀ v, Fresh k i v → Q v

theorem Leads.converted {k : Nat} {source target : Ty} {P Q : FlowValue → Prop}
    (hP : Leads k (.convert source target) P Q) {v : FlowValue} (h : P v) :
    Q (converted k source target v) := by
  unfold Frame.converted
  split
  · rename_i hnarrow
    exact hP.retyped target v (Or.inl (Bool.and_eq_true_iff.mp hnarrow).2) h
  · split
    · rename_i hcast
      simp only [Bool.and_eq_true, Bool.or_eq_true, decide_eq_true_eq] at hcast
      exact hP.cast target v (hcast.1.elim (fun h => Or.inr h.2) fun h => Or.inl h.2) hcast.2 h
    · exact hP.unknown _

/-- An operator leaves one of its operands or a value of which nothing is known. -/
theorem combined_cases (op : BinaryOp) (t : Ty) (first second : FlowValue) :
    combined op t first second = first ∨ combined op t first second = second ∨
      combined op t first second = .ofType t := by
  unfold combined
  split
  · split
    · exact Or.inl rfl
    · split
      · exact Or.inr (Or.inl rfl)
      · exact Or.inr (Or.inr rfl)
  · split
    · exact Or.inl rfl
    · exact Or.inr (Or.inr rfl)
  · exact Or.inr (Or.inr rfl)

theorem Leads.callResult {k : Nat} {m : MethodRef} {P Q : FlowValue → Prop}
    (hP : Leads k (.invoke m) P Q) {args result : List FlowValue} (hargs : ∀ v ∈ args, P v)
    (h : callResult k m args = .ok result) : ∀ v ∈ result, Q v := by
  unfold Frame.callResult at h
  split at h
  · cases args with
    | nil => simp at h
    | cons last rest =>
      simp only [Except.ok.injEq] at h
      rw [← h]
      intro v hv
      rw [List.mem_singleton.mp hv]
      exact hP.retyped _ _ (Or.inr ⟨m, rfl, rfl⟩) (hargs last (by simp))
  · rename_i hpass
    split at h
    · rename_i hchar
      simp only [Except.ok.injEq] at h
      rw [← h]
      intro v hv
      rw [List.mem_singleton.mp hv]
      exact hP.fresh _ (.charAt hchar)
    · split at h
      · simp only [Except.ok.injEq] at h
        rw [← h]
        intro v hv
        rw [List.mem_singleton.mp hv]
        exact hP.unknown _
      · rename_i hclone
        split at h
        · rename_i hcarries
          simp only [Except.ok.injEq] at h
          rw [← h]
          intro v hv
          rw [List.mem_singleton.mp hv]
          exact hP.fresh _ (.returned (by simpa using hpass) hclone hcarries)
        · split at h
          · simp only [Except.ok.injEq] at h
            simp [← h]
          · simp only [Except.ok.injEq] at h
            rw [← h]
            intro v hv
            rw [List.mem_singleton.mp hv]
            exact hP.unknown _

theorem Leads.leaves {k : Nat} {i : Insn} {P Q : FlowValue → Prop} (hP : Leads k i P Q)
    {result : List FlowValue} (h : i.leaves? k = some result) : ∀ v ∈ result, Q v := by
  cases i with
  | arrayLoad t =>
    simp only [Insn.leaves?, Option.some.injEq] at h
    rw [← h]
    intro v hv
    rw [List.mem_singleton.mp hv]
    split
    · exact hP.fresh _ (.element t)
    · exact hP.unknown _
  | getField fd =>
    simp only [Insn.leaves?, Option.some.injEq] at h
    rw [← h]
    intro v hv
    rw [List.mem_singleton.mp hv]
    split
    · exact hP.fresh _ (.field fd)
    · exact hP.unknown _
  | _ =>
    simp only [Insn.leaves?, Option.some.injEq, reduceCtorEq] at h
    try rw [← h]
    try intro v hv
    try (rw [List.mem_singleton.mp hv]; exact hP.unknown _)
    try simp at hv

/-- **What holds of all values before an instruction leads to what holds of all values after it.**
-/
theorem after_leads {k : Nat} {i : Insn} {f g : Frame} {P Q : FlowValue → Prop}
    (h : f.after k i = .ok g) (hP : Leads k i P Q) (hf : f.All P) : g.All Q := by
  replace h := after_effect h
  obtain ⟨hL, hS⟩ := hf
  have hkept : ∀ {vs : List FlowValue}, (∀ v ∈ vs, P v) → ∀ v ∈ vs, Q v :=
    fun h v hv => hP.kept v (h v hv)
  cases h with
  | idle _ => exact ⟨hkept hL, hkept hS⟩
  | literal c L S =>
    refine ⟨hkept hL, List.forall_mem_cons.mpr ⟨?_, hkept hS⟩⟩
    cases c with
    | int n => exact hP.fresh _ (.literal n)
    | _ => exact hP.unknown _
  | load S hl =>
    have hv := hP.moved _ (hL _ (List.mem_of_getElem? hl))
    exact ⟨hkept hL, List.forall_mem_cons.mpr ⟨hv, hkept hS⟩⟩
  | store w S hl =>
    obtain ⟨hw, hS⟩ := List.forall_mem_cons.mp hS
    refine ⟨fun v hv => ?_, hkept hS⟩
    rcases List.mem_or_eq_of_mem_set hv with hv | rfl
    · exact hkept hL v hv
    · exact hP.moved _ hw
  | dup w L S =>
    have hw := hP.moved _ (hS w (by simp))
    exact ⟨hkept hL, List.forall_mem_cons.mpr ⟨hw, hkept hS⟩⟩
  | dupX1 w u L S =>
    simp only [List.forall_mem_cons] at hS
    obtain ⟨hw, hu, hS⟩ := hS
    refine ⟨hkept hL, ?_⟩
    simp only [List.forall_mem_cons]
    exact ⟨hP.kept _ hw, hP.kept _ hu, hP.moved _ hw, hkept hS⟩
  | dup2 w u L S =>
    simp only [List.forall_mem_cons] at hS
    obtain ⟨hw, hu, hS⟩ := hS
    refine ⟨hkept hL, ?_⟩
    simp only [List.forall_mem_cons]
    exact ⟨hP.moved _ hw, hP.moved _ hu, hP.kept _ hw, hP.kept _ hu, hkept hS⟩
  | swap w u L S =>
    simp only [List.forall_mem_cons] at hS
    obtain ⟨hw, hu, hS⟩ := hS
    refine ⟨hkept hL, ?_⟩
    simp only [List.forall_mem_cons]
    exact ⟨hP.moved _ hu, hP.moved _ hw, hkept hS⟩
  | binary op t second first L S =>
    simp only [List.forall_mem_cons] at hS
    obtain ⟨hsecond, hfirst, hS⟩ := hS
    refine ⟨hkept hL, List.forall_mem_cons.mpr ⟨?_, hkept hS⟩⟩
    rcases combined_cases op t first second with h | h | h <;> rw [h]
    · exact hP.kept _ hfirst
    · exact hP.kept _ hsecond
    · exact hP.unknown _
  | convert source target w L S =>
    obtain ⟨hw, hS⟩ := List.forall_mem_cons.mp hS
    exact ⟨hkept hL, List.forall_mem_cons.mpr ⟨hP.converted hw, hkept hS⟩⟩
  | @call m args result L S hargs hresult =>
    obtain ⟨hout, hS⟩ := List.forall_mem_append.mp hS
    exact ⟨hkept hL, List.forall_mem_append.mpr ⟨hP.callResult hout hresult, hkept hS⟩⟩
  | @exchange i out result L S hout hresult =>
    obtain ⟨-, hS⟩ := List.forall_mem_append.mp hS
    exact ⟨hkept hL, List.forall_mem_append.mpr ⟨hP.leaves hresult, hkept hS⟩⟩

/-- **A definition after an instruction was there before, or is made by it.**  So a frame without
a definition does not get it from another instruction. -/
theorem after_without {k : Nat} {i : Insn} {f g : Frame} {d : Definition}
    (h : f.after k i = .ok g) (hk : d.insn? ≠ some k)
    (hf : f.All fun v => v.definition? ≠ some d) : g.All fun v => v.definition? ≠ some d := by
  refine after_leads h ?_ hf
  exact
    { kept := fun v hv => hv
      moved := fun v hv => by simpa using hv
      retyped := fun t v _ hv => by simpa using hv
      cast := fun t v _ _ hv => hv
      unknown := fun t hd => by simp at hd
      fresh := fun v hv hd => by
        cases hv <;> simp only [FlowValue.definition?, FlowValue.base, Option.some.injEq] at hd <;>
          exact hk (hd ▸ rfl) }

end Frame

/-! ## 4. Values made where they say -/

/-- The instruction that a value names as its definition is one that defines such a value. -/
def FlowValue.MadeIn (m : Method) (v : FlowValue) : Prop :=
  match v.base with
  | .constant _ k n => ∃ c, m.insns[k]? = some (.const (.int c)) ∧ n = c.toInt64
  | .element _ k =>
    (∃ t, m.insns[k]? = some (.arrayLoad t)) ∨
      ∃ target, m.insns[k]? = some (.invoke target) ∧ Carrier.isCharAt target = true
  | .field _ k key => ∃ fd, m.insns[k]? = some (.getField fd) ∧ key = fd.key
  | .returned _ k =>
    ∃ target, m.insns[k]? = some (.invoke target) ∧ Carrier.clonedArray? target = none ∧
      Carrier.carriesResult target.owner target.name target.desc = true
  | _ => True

namespace FlowValue

@[simp] theorem madeIn_moved (m : Method) (k : Nat) (v : FlowValue) :
    (v.moved k).MadeIn m ↔ v.MadeIn m := by
  cases v <;> rfl

@[simp] theorem madeIn_retyped (m : Method) (t : Ty) (v : FlowValue) :
    (v.retyped t).MadeIn m ↔ v.MadeIn m := by
  induction v with
  | copy k v ih => exact ih
  | _ => rfl

end FlowValue

/-- **What an instruction makes names that instruction.** -/
theorem Frame.after_madeIn {m : Method} {k : Nat} {i : Insn} {f g : Frame}
    (h : f.after k i = .ok g) (hi : m.insns[k]? = some i) (hf : f.All fun v => v.MadeIn m) :
    g.All fun v => v.MadeIn m := by
  refine after_leads h ?_ hf
  exact
    { kept := fun v hv => hv
      moved := fun v hv => by simpa using hv
      retyped := fun t v _ hv => by simpa using hv
      cast := fun t v _ _ hv => hv
      unknown := fun t => trivial
      fresh := fun v hv => by
        cases hv with
        | literal c => exact ⟨c, hi, rfl⟩
        | element t => exact Or.inl ⟨t, hi⟩
        | charAt hchar => exact Or.inr ⟨_, hi, hchar⟩
        | field fd => exact ⟨fd, hi, rfl⟩
        | returned _ hclone hcarries => exact ⟨_, hi, hclone, hcarries⟩ }

end Provenance
