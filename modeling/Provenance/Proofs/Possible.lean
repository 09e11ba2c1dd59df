/-
# The values that an analysis can come to

A value that can be followed is a literal, a read, a result or a parameter of the method, or the
merge of one of its slots, below moves and conversions made by its instructions; and its type is one
that the method mentions, or `int`, `long` or `Object`.  With at most so many moves and conversions
there are only finitely many of them (`possible_finite`).

Each instruction puts at most one move or conversion on a value (`Frame.after_permitted`), and
merging keeps the number of those that the value of a frame has (`Possible.of_covers`).  So their
number is bounded by the number of instructions whose frame has been found.
-/
import Mathlib.Data.Finite.Prod
import Mathlib.Data.Finset.Prod
import Mathlib.Data.Set.Finite.Lattice
import Provenance.Proofs.CommonTypes
import Provenance.Proofs.FixedPoint

namespace Provenance

/-! ## 1. Types -/

/-- The types that an instruction mentions as those of values it makes. -/
def Insn.mentions : Insn → List Ty
  | .arrayLoad t => [t]
  | .getField fd => [fd.ty]
  | .invoke m => [m.desc.ret]
  | _ => []

/-- The types that the values of a method can have. -/
def Method.valueTypes (m : Method) : List Ty :=
  [.byte, .char, .short, .int, .long, .object Ty.objectClass] ++ m.desc.params ++
    m.insns.flatMap Insn.mentions

namespace Method

variable {m : Method}

theorem mem_valueTypes_of_param {t : Ty} (h : t ∈ m.desc.params) : t ∈ m.valueTypes :=
  List.mem_append_left _ (List.mem_append_right _ h)

theorem mem_valueTypes_of_mentions {k : Nat} {i : Insn} {t : Ty} (hi : m.insns[k]? = some i)
    (h : t ∈ i.mentions) : t ∈ m.valueTypes :=
  List.mem_append_right _ (List.mem_flatMap.mpr ⟨i, List.mem_of_getElem? hi, h⟩)

theorem mem_valueTypes_of_narrow {t : Ty} (h : Frame.isNarrow t = true) : t ∈ m.valueTypes := by
  refine List.mem_append_left _ (List.mem_append_left _ ?_)
  cases t <;> simp [Frame.isNarrow] at h ⊢

theorem mem_valueTypes_of_cast {t : Ty} (h : t = .int ∨ t = .long) : t ∈ m.valueTypes := by
  refine List.mem_append_left _ (List.mem_append_left _ ?_)
  rcases h with rfl | rfl <;> simp

theorem mem_valueTypes_of_retypes {k : Nat} {i : Insn} {t : Ty} (hi : m.insns[k]? = some i)
    (h : Frame.Retypes i t) : t ∈ m.valueTypes := by
  rcases h with h | ⟨target, rfl, rfl⟩
  · exact mem_valueTypes_of_narrow h
  · exact mem_valueTypes_of_mentions hi (by simp [Insn.mentions])

end Method

/-- Where two types meet, there is one of them, `Object` or `int`. -/
theorem mergeTypes_mem {m : Method} {a b t : Ty} (ha : a ∈ m.valueTypes) (hb : b ∈ m.valueTypes)
    (h : mergeTypes (some a) (some b) = some t) : t ∈ m.valueTypes := by
  have hobject : Ty.object Ty.objectClass ∈ m.valueTypes := by simp [Method.valueTypes]
  have hint : Ty.int ∈ m.valueTypes := Method.mem_valueTypes_of_cast (Or.inl rfl)
  have hmeets := mergeTypes_meets a b
  rw [h] at hmeets
  cases hmeets with
  | same => exact ha
  | second => exact hb
  | first => exact ha
  | references => exact hobject
  | integers => exact hint

/-! ## 2. Values -/

/-- The values of the given types that the instruction at `k` defines. -/
def Insn.defines (types : List Ty) (k : Nat) : Insn → List FlowValue
  | .const (.int c) => types.map fun t => .constant t k c.toInt64
  | .arrayLoad _ => types.map fun t => .element t k
  | .getField fd => types.map fun t => .field t k fd.key
  | .invoke _ => types.map (fun t => .element t k) ++ types.map fun t => .returned t k
  | _ => []

/-- The greatest index of a slot: no stack is higher than two operands for each instruction. -/
def Method.slotBound (m : Method) : Nat := m.maxLocals + 2 * m.insns.length

/-- The slots before the instructions of a method. -/
def Method.slots (m : Method) : Finset MergeSlot :=
  (Finset.range m.insns.length ×ˢ Finset.range m.slotBound).biUnion fun p =>
    {⟨p.1, .variable, p.2⟩, ⟨p.1, .operand, p.2⟩}

theorem Method.mem_slots {m : Method} {s : MergeSlot} :
    s ∈ m.slots ↔ s.insn < m.insns.length ∧ s.index < m.slotBound := by
  obtain ⟨k, kind, index⟩ := s
  unfold Method.slots
  simp only [Finset.mem_biUnion, Finset.mem_product, Finset.mem_range, Finset.mem_insert,
    Finset.mem_singleton, Prod.exists]
  constructor
  · rintro ⟨j, l, ⟨hj, hl⟩, h⟩
    rcases h with h | h <;> cases h <;> exact ⟨hj, hl⟩
  · rintro ⟨hk, hindex⟩
    refine ⟨k, index, ⟨hk, hindex⟩, ?_⟩
    cases kind
    · exact Or.inl rfl
    · exact Or.inr rfl

/-- The values that can be followed, with at most so many moves and conversions. -/
inductive Possible (m : Method) : Nat → FlowValue → Prop where
  | defined {d k : Nat} {i : Insn} {v : FlowValue} (hi : m.insns[k]? = some i)
      (hv : v ∈ i.defines m.valueTypes k) : Possible m d v
  | argument {d n : Nat} {t : Ty} (ht : t ∈ m.valueTypes) (hn : n < m.desc.params.length) :
      Possible m d (.argument t n)
  | merged {d : Nat} {t : Ty} {s : MergeSlot} (ht : t ∈ m.valueTypes) (hs : s ∈ m.slots) :
      Possible m d (.merged t s)
  | copy {d k : Nat} {v : FlowValue} (hk : k < m.insns.length) (hv : Possible m d v) :
      Possible m (d + 1) (.copy k v)
  | cast {d k : Nat} {t : Ty} {v : FlowValue} (ht : t ∈ m.valueTypes) (hk : k < m.insns.length)
      (hv : Possible m d v) : Possible m (d + 1) (.cast t k v)

namespace Possible

variable {m : Method}

theorem mono {d : Nat} {v : FlowValue} (h : Possible m d v) {e : Nat} (hde : d ≤ e) :
    Possible m e v := by
  induction h generalizing e with
  | defined hi hv => exact .defined hi hv
  | argument ht hn => exact .argument ht hn
  | merged ht hs => exact .merged ht hs
  | @copy d k v hk _ ih =>
    obtain ⟨e, rfl⟩ := Nat.exists_eq_succ_of_ne_zero (show e ≠ 0 by omega)
    exact .copy hk (ih (by omega))
  | @cast d k t v ht hk _ ih =>
    obtain ⟨e, rfl⟩ := Nat.exists_eq_succ_of_ne_zero (show e ≠ 0 by omega)
    exact .cast ht hk (ih (by omega))

/-- **There are finitely many of them.** -/
theorem finite (m : Method) : ∀ d, {v | Possible m d v}.Finite := by
  intro d
  have htypes : {t | t ∈ m.valueTypes}.Finite := m.valueTypes.finite_toSet
  have hdefined : {v | v ∈ m.insns.zipIdx.flatMap fun p => p.1.defines m.valueTypes p.2}.Finite :=
    List.finite_toSet _
  have hargument : (Set.image2 FlowValue.argument {t | t ∈ m.valueTypes}
      {n | n < m.desc.params.length}).Finite := htypes.image2 _ (Set.finite_lt_nat _)
  have hmerged :
      (Set.image2 FlowValue.merged {t | t ∈ m.valueTypes} (m.slots : Set MergeSlot)).Finite :=
    htypes.image2 _ m.slots.finite_toSet
  have hleaves := (hdefined.union hargument).union hmerged
  induction d with
  | zero =>
    refine hleaves.subset fun v hv => ?_
    cases hv with
    | defined hi hv =>
      exact Or.inl (Or.inl (List.mem_flatMap.mpr ⟨(_, _), List.mem_zipIdx_iff_getElem?.mpr hi, hv⟩))
    | argument ht hn => exact Or.inl (Or.inr ⟨_, ht, _, hn, rfl⟩)
    | merged ht hs => exact Or.inr ⟨_, ht, _, hs, rfl⟩
  | succ d ih =>
    have hcopy := (Set.finite_lt_nat m.insns.length).image2 FlowValue.copy ih
    have hcast := (htypes.prod (Set.finite_lt_nat m.insns.length)).image2
      (fun p v => FlowValue.cast p.1 p.2 v) ih
    refine ((hleaves.union hcopy).union hcast).subset fun v hv => ?_
    cases hv with
    | defined hi hv =>
      exact Or.inl (Or.inl (Or.inl (Or.inl
        (List.mem_flatMap.mpr ⟨(_, _), List.mem_zipIdx_iff_getElem?.mpr hi, hv⟩))))
    | argument ht hn => exact Or.inl (Or.inl (Or.inl (Or.inr ⟨_, ht, _, hn, rfl⟩)))
    | merged ht hs => exact Or.inl (Or.inl (Or.inr ⟨_, ht, _, hs, rfl⟩))
    | copy hk hv => exact Or.inl (Or.inr ⟨_, hk, _, hv, rfl⟩)
    | cast ht hk hv => exact Or.inr ⟨(_, _), ⟨ht, hk⟩, _, hv, rfl⟩

/-- What an instruction defines is a leaf. -/
theorem cases_defines {types : List Ty} {k : Nat} {i : Insn} {v : FlowValue}
    (h : v ∈ i.defines types k) :
    ∃ t ∈ types, (∃ n, v = .constant t k n) ∨ v = .element t k ∨ (∃ key, v = .field t k key) ∨
      v = .returned t k := by
  cases i with
  | const c =>
    cases c with
    | int c =>
      obtain ⟨t, ht, rfl⟩ := List.mem_map.mp h
      exact ⟨t, ht, Or.inl ⟨_, rfl⟩⟩
    | _ => simp [Insn.defines] at h
  | arrayLoad e =>
    obtain ⟨t, ht, rfl⟩ := List.mem_map.mp h
    exact ⟨t, ht, Or.inr (Or.inl rfl)⟩
  | getField fd =>
    obtain ⟨t, ht, rfl⟩ := List.mem_map.mp h
    exact ⟨t, ht, Or.inr (Or.inr (Or.inl ⟨_, rfl⟩))⟩
  | invoke target =>
    rcases List.mem_append.mp h with h | h
    · obtain ⟨t, ht, rfl⟩ := List.mem_map.mp h
      exact ⟨t, ht, Or.inr (Or.inl rfl)⟩
    · obtain ⟨t, ht, rfl⟩ := List.mem_map.mp h
      exact ⟨t, ht, Or.inr (Or.inr (Or.inr rfl))⟩
  | _ => simp [Insn.defines] at h

theorem mayBeTrackable {d : Nat} {v : FlowValue} (h : Possible m d v) :
    v.mayBeTrackable = true := by
  induction h with
  | defined hi hv =>
    obtain ⟨t, -, ⟨n, rfl⟩ | rfl | ⟨key, rfl⟩ | rfl⟩ := cases_defines hv <;> rfl
  | argument ht hn => rfl
  | merged ht hs => rfl
  | copy hk _ ih => exact ih
  | cast ht hk _ ih => exact ih

theorem ty_mem {d : Nat} {v : FlowValue} (h : Possible m d v) :
    ∃ t ∈ m.valueTypes, v.ty? = some t := by
  induction h with
  | defined hi hv =>
    obtain ⟨t, ht, ⟨n, rfl⟩ | rfl | ⟨key, rfl⟩ | rfl⟩ := cases_defines hv <;> exact ⟨t, ht, rfl⟩
  | argument ht hn => exact ⟨_, ht, rfl⟩
  | merged ht hs => exact ⟨_, ht, rfl⟩
  | copy hk _ ih => exact ih
  | cast ht hk _ ih => exact ⟨_, ht, rfl⟩

theorem retyped {d : Nat} {v : FlowValue} (h : Possible m d v) {t : Ty} (ht : t ∈ m.valueTypes) :
    Possible m d (v.retyped t) := by
  induction h with
  | @defined d k i v hi hv =>
    refine .defined hi ?_
    cases i with
    | const c =>
      cases c with
      | int c =>
        obtain ⟨t', -, rfl⟩ := List.mem_map.mp hv
        exact List.mem_map.mpr ⟨t, ht, rfl⟩
      | _ => simp [Insn.defines] at hv
    | arrayLoad e =>
      obtain ⟨t', -, rfl⟩ := List.mem_map.mp hv
      exact List.mem_map.mpr ⟨t, ht, rfl⟩
    | getField fd =>
      obtain ⟨t', -, rfl⟩ := List.mem_map.mp hv
      exact List.mem_map.mpr ⟨t, ht, rfl⟩
    | invoke target =>
      rcases List.mem_append.mp hv with hv | hv
      · obtain ⟨t', -, rfl⟩ := List.mem_map.mp hv
        exact List.mem_append_left _ (List.mem_map.mpr ⟨t, ht, rfl⟩)
      · obtain ⟨t', -, rfl⟩ := List.mem_map.mp hv
        exact List.mem_append_right _ (List.mem_map.mpr ⟨t, ht, rfl⟩)
    | _ => simp [Insn.defines] at hv
  | argument _ hn => exact .argument ht hn
  | merged _ hs => exact .merged ht hs
  | copy hk _ ih => exact .copy hk ih
  | cast _ hk hv _ => exact .cast ht hk hv

/-- **A value that covers another one has no more moves and conversions.** -/
theorem of_covers {x : MergeIndex} {e : Nat} {w : FlowValue} (hw : Possible m e w) :
    ∀ {d : Nat} {v : FlowValue}, Possible m d v → x.covers w v = true → Possible m d w := by
  induction hw with
  | defined hi hv =>
    intro d v _ hc
    exact .defined hi hv
  | argument ht hn =>
    intro d v _ hc
    exact .argument ht hn
  | merged ht hs =>
    intro d v _ _
    exact .merged ht hs
  | copy hk _ ih =>
    intro d v hv hc
    cases hv with
    | copy hj hb =>
      simp only [MergeIndex.covers, Bool.and_eq_true, decide_eq_true_eq, Bool.or_eq_true] at hc
      obtain ⟨-, rfl | hc⟩ := hc
      · exact .copy hk hb
      · exact .copy hk (ih hb hc)
    | defined hi hv =>
      obtain ⟨t, -, ⟨n, rfl⟩ | rfl | ⟨key, rfl⟩ | rfl⟩ := cases_defines hv <;>
        simp [MergeIndex.covers] at hc
    | _ => simp [MergeIndex.covers] at hc
  | cast ht hk _ ih =>
    intro d v hv hc
    cases hv with
    | cast ht' hj hb =>
      simp only [MergeIndex.covers, Bool.and_eq_true, decide_eq_true_eq, Bool.or_eq_true] at hc
      obtain ⟨-, rfl | hc⟩ := hc
      · exact .cast ht hk hb
      · exact .cast ht hk (ih hb hc)
    | defined hi hv =>
      obtain ⟨t, -, ⟨n, rfl⟩ | rfl | ⟨key, rfl⟩ | rfl⟩ := cases_defines hv <;>
        simp [MergeIndex.covers] at hc
    | _ => simp [MergeIndex.covers] at hc

end Possible

/-! ## 3. The values of frames -/

/-- A value of a frame: one that can be followed, or one of which nothing is known. -/
def Permitted (m : Method) (d : Nat) (v : FlowValue) : Prop :=
  (∃ t, v = .untrackable t) ∨ Possible m d v

namespace Permitted

variable {m : Method}

theorem mono {d e : Nat} {v : FlowValue} (h : Permitted m d v) (hde : d ≤ e) : Permitted m e v :=
  h.imp_right fun h => h.mono hde

/-- A value that can be followed as far as it can tell is one that can be. -/
theorem possible {d : Nat} {v : FlowValue} (h : Permitted m d v) (ht : v.mayBeTrackable = true) :
    Possible m d v := by
  rcases h with ⟨t, rfl⟩ | h
  · exact absurd ht (by simp [FlowValue.mayBeTrackable, FlowValue.base])
  · exact h

end Permitted

namespace Frame

variable {m : Method}

/-- **An instruction puts at most one move or conversion on a value.** -/
theorem after_permitted {k d : Nat} {i : Insn} {f g : Frame} (h : f.after k i = .ok g)
    (hi : m.insns[k]? = some i) (hf : f.All (Permitted m d)) : g.All (Permitted m (d + 1)) := by
  have hk : k < m.insns.length := (List.getElem?_eq_some_iff.mp hi).1
  refine after_leads h ?_ hf
  exact
    { kept := fun v hv => hv.mono (Nat.le_succ d)
      moved := by
        rintro v (⟨t, rfl⟩ | hv)
        · exact Or.inl ⟨t, rfl⟩
        · refine Or.inr ?_
          have hmoved : v.moved k = .copy k v := by
            have ht := hv.mayBeTrackable
            cases v with
            | untrackable t => simp [FlowValue.mayBeTrackable, FlowValue.base] at ht
            | _ => rfl
          exact hmoved ▸ .copy hk hv
      retyped := by
        rintro t v ht (⟨t', rfl⟩ | hv)
        · exact Or.inl ⟨_, rfl⟩
        · exact Or.inr ((hv.retyped (Method.mem_valueTypes_of_retypes hi ht)).mono (Nat.le_succ d))
      cast := fun t v ht htrack hv =>
        Or.inr (.cast (Method.mem_valueTypes_of_cast ht) hk (hv.possible htrack))
      unknown := fun t => Or.inl ⟨t, rfl⟩
      fresh := fun v hv => by
        refine Or.inr (.defined hi ?_)
        cases hv with
        | literal c =>
          exact List.mem_map.mpr ⟨_, Method.mem_valueTypes_of_narrow rfl, rfl⟩
        | element t =>
          exact List.mem_map.mpr
            ⟨t, Method.mem_valueTypes_of_mentions hi (by simp [Insn.mentions]), rfl⟩
        | charAt hchar =>
          exact List.mem_append_left _
            (List.mem_map.mpr ⟨_, Method.mem_valueTypes_of_narrow rfl, rfl⟩)
        | field fd =>
          exact List.mem_map.mpr
            ⟨_, Method.mem_valueTypes_of_mentions hi (by simp [Insn.mentions]), rfl⟩
        | returned _ _ _ =>
          exact List.mem_append_right _ (List.mem_map.mpr
            ⟨_, Method.mem_valueTypes_of_mentions hi (by simp [Insn.mentions]), rfl⟩) }

/-- An instruction puts at most two operands on the stack that were not there. -/
theorem after_stack_le {k : Nat} {i : Insn} {f g : Frame} (h : f.after k i = .ok g) :
    g.stack.length ≤ f.stack.length + 2 := by
  have heffect := after_effect h
  cases heffect with
  | @call target args result L S hargs hresult =>
    have hlen : result.length ≤ 1 := by
      unfold callResult at hresult
      repeat' split at hresult
      all_goals
        simp only [Except.ok.injEq, reduceCtorEq] at hresult
        try simp [← hresult]
    simp only [List.length_append]
    omega
  | @exchange i out result L S hout hresult =>
    have hlen : result.length ≤ 1 := by
      cases i <;> simp only [Insn.leaves?, Option.some.injEq, reduceCtorEq] at hresult <;>
        simp [← hresult]
    simp only [List.length_append]
    omega
  | store v S hl =>
    simp only [List.length_cons]
    omega
  | _ => simp

/-- The parameters that a method starts with. -/
theorem parameters_permitted {carried : Option (List Bool)} {m : Method} {v : FlowValue} :
    ∀ {ts : List Ty} {arg : Nat}, v ∈ parameters carried arg ts → (∀ t ∈ ts, t ∈ m.valueTypes) →
    arg + ts.length ≤ m.desc.params.length → Permitted m 0 v := by
  intro ts
  induction ts with
  | nil => intro arg h; simp [parameters] at h
  | cons t ts ih =>
    intro arg h ht hlen
    obtain ⟨ht, hts⟩ := List.forall_mem_cons.mp ht
    simp only [List.length_cons] at hlen
    have hhere : Permitted m 0 (.argument t arg) := Or.inr (.argument ht (by omega))
    simp only [parameters, List.mem_cons] at h
    rcases h with rfl | h
    · cases carried with
      | none => exact Or.inl ⟨_, rfl⟩
      | some flags =>
        simp only
        split
        · exact hhere
        · exact Or.inl ⟨_, rfl⟩
    · exact ih h hts (by omega)

theorem entry_permitted {m : Method} {f : Frame} (h : entry m = .ok f) : f.All (Permitted m 0) := by
  refine ⟨fun v hv => ?_, fun v hv => ?_⟩
  · unfold entry at h
    split at h
    · exact absurd h (by simp)
    · simp only [Except.ok.injEq] at h
      rw [← h] at hv
      simp only [List.mem_append] at hv
      rcases hv with (hv | hv) | hv
      · split at hv
        · simp at hv
        · exact Or.inl ⟨_, List.mem_singleton.mp hv⟩
      · exact parameters_permitted hv (fun t ht => Method.mem_valueTypes_of_param ht) (by simp)
      · exact Or.inl ⟨_, (List.mem_replicate.mp hv).2⟩
  · rw [entry_stack h] at hv
    simp at hv

end Frame

end Provenance
