/-
# Values with a single definition

The description of a value leads, below its moves and conversions, to a definition: a literal, a
read, a call, a parameter.  It leads to none where values meet and where nothing is known.

What this file shows is that merging never makes up a definition.  `MergeIndex.Step` lists the ways
in which two values can merge, once and for all.  If what comes out has a definition, then the two
values were the same (`MergeIndex.merge_definition`), whatever the index knows of other merges.  A
merge of a slot takes its members from the values that meet there (`MergeIndex.mem_members_merge`),
and a value with a definition can always be followed (`MergeIndex.trackable_of_definition`).
-/
import Provenance.Flow.Merge

namespace Provenance

/-! ## 1. Looking up a list of pairs -/

section Lookup

variable {α β : Type} [DecidableEq α]

theorem lookup_cons_if (a k : α) (b : β) (l : List (α × β)) :
    ((k, b) :: l).lookup a = if a = k then some b else l.lookup a := by
  by_cases h : a = k
  · simp [h]
  · have hb : (a == k) = false := beq_false_of_ne h
    simp [List.lookup_cons, hb, h]

theorem lookup_filter_ne (a k : α) (h : a ≠ k) : ∀ l : List (α × β),
    (l.filter fun e => e.1 ≠ k).lookup a = l.lookup a
  | [] => rfl
  | (k', b) :: l => by
    rw [List.filter_cons, lookup_cons_if]
    split
    · rw [lookup_cons_if, lookup_filter_ne a k h l]
    · rename_i hk
      have hk' : k' = k := by simpa using hk
      rw [lookup_filter_ne a k h l, if_neg (hk' ▸ h)]

/-- What is found stands in the list. -/
theorem mem_of_lookup {a : α} {b : β} : ∀ {l : List (α × β)}, l.lookup a = some b → (a, b) ∈ l
  | [], h => by simp at h
  | (k, c) :: l, h => by
    rw [lookup_cons_if] at h
    split at h
    · rename_i hk
      simp only [Option.some.injEq] at h
      simp [hk, h]
    · exact List.mem_cons_of_mem _ (mem_of_lookup h)

end Lookup

/-! ## 2. Definitions -/

/-- What a value stems from, if it stems from a single place. -/
inductive Definition where
  | literal (insn : Nat)
  /-- An element or a field that is read. -/
  | read (insn : Nat)
  /-- A call. -/
  | result (insn : Nat)
  | parameter (arg : Nat)
  deriving DecidableEq, Repr

/-- The instruction of a definition; a parameter has none. -/
def Definition.insn? : Definition → Option Nat
  | literal k | read k | result k => some k
  | parameter _ => none

namespace FlowValue

/-- The definition below all moves and conversions. -/
def definition? (v : FlowValue) : Option Definition :=
  match v.base with
  | .constant _ k _ => some (.literal k)
  | .element _ k | .field _ k _ => some (.read k)
  | .returned _ k => some (.result k)
  | .argument _ n => some (.parameter n)
  | _ => none

@[simp] theorem definition?_copy (k : Nat) (v : FlowValue) :
    (copy k v).definition? = v.definition? := rfl

@[simp] theorem definition?_cast (t : Ty) (k : Nat) (v : FlowValue) :
    (cast t k v).definition? = v.definition? := rfl

@[simp] theorem definition?_merged (t : Ty) (slot : MergeSlot) :
    (merged t slot).definition? = none := rfl

@[simp] theorem definition?_untrackable (t : Option Ty) :
    (untrackable t).definition? = none := rfl

@[simp] theorem definition?_ofType (t : Ty) : (ofType t).definition? = none := rfl

/-- Moving a value leaves its definition. -/
@[simp] theorem definition?_moved (k : Nat) (v : FlowValue) :
    (v.moved k).definition? = v.definition? := by
  cases v <;> rfl

/-- So does giving it another type. -/
@[simp] theorem definition?_retyped (t : Ty) (v : FlowValue) :
    (v.retyped t).definition? = v.definition? := by
  induction v with
  | copy k v ih => exact ih
  | _ => rfl

/-- Below moves and conversions stands neither. -/
theorem base_ne_copy (v : FlowValue) (k : Nat) (u : FlowValue) : v.base ≠ .copy k u := by
  induction v with
  | copy _ _ ih => exact ih
  | cast _ _ _ ih => exact ih
  | _ => simp [base]

theorem base_ne_cast (v : FlowValue) (t : Ty) (k : Nat) (u : FlowValue) :
    v.base ≠ .cast t k u := by
  induction v with
  | copy _ _ ih => exact ih
  | cast _ _ _ ih => exact ih
  | _ => simp [base]

/-- A value without a definition is one of those that meet, or nothing is known of it. -/
theorem base_of_no_definition {v : FlowValue} (h : v.definition? = none) :
    (∃ t, v.base = .untrackable t) ∨ ∃ t slot, v.base = .merged t slot := by
  unfold definition? at h
  cases hb : v.base with
  | untrackable t => exact Or.inl ⟨t, rfl⟩
  | merged t slot => exact Or.inr ⟨t, slot, rfl⟩
  | copy k u => exact absurd hb (base_ne_copy v k u)
  | cast t k u => exact absurd hb (base_ne_cast v t k u)
  | _ => rw [hb] at h; exact absurd h (by simp)

/-- A literal is a value whose definition is one, whether moved or given another type. -/
theorem definition?_of_literal {v : FlowValue} (h : v.literal?.isSome) :
    ∃ k, v.definition? = some (.literal k) := by
  induction v with
  | constant t k n => exact ⟨k, rfl⟩
  | copy k v ih => exact ih h
  | _ => simp [literal?, unmoved] at h

@[simp] theorem literal?_moved (k : Nat) (v : FlowValue) : (v.moved k).literal? = v.literal? := by
  cases v <;> rfl

@[simp] theorem literal?_retyped (t : Ty) (v : FlowValue) :
    (v.retyped t).literal? = v.literal? := by
  induction v with
  | copy k v ih => exact ih
  | _ => rfl

end FlowValue

/-! ## 3. Merging makes up no definition -/

namespace MergeIndex

/-- **A value that covers another one has no definition**, unless they are the same. -/
theorem covers_definition {x : MergeIndex} : ∀ {v w : FlowValue} {d : Definition},
    v.definition? = some d → x.covers v w = true → v = w := by
  intro v
  induction v with
  | copy i a ih =>
    intro w d hd hc
    cases w with
    | copy j b =>
      simp only [covers, Bool.and_eq_true, decide_eq_true_eq, Bool.or_eq_true] at hc
      obtain ⟨rfl, rfl | h⟩ := hc
      · rfl
      · rw [ih hd h]
    | _ => simp [covers] at hc
  | cast t i a ih =>
    intro w d hd hc
    cases w with
    | cast s j b =>
      simp only [covers, Bool.and_eq_true, decide_eq_true_eq, Bool.or_eq_true] at hc
      obtain ⟨⟨rfl, rfl⟩, rfl | h⟩ := hc
      · rfl
      · rw [ih hd h]
    | _ => simp [covers] at hc
  | merged t slot => intro w d hd; simp at hd
  | untrackable t => intro w d hd; simp at hd
  | _ => intro w d _ hc; simp [covers] at hc

/-- The ways in which the values `v` and `w` merge in a slot: the value and the merges that come
out. -/
inductive Step (x : MergeIndex) (slot : MergeSlot) (v w : FlowValue) :
    FlowValue → MergeIndex → Prop where
  /-- The first value stands for the second. -/
  | kept (h : v = w ∨ x.covers v w = true) : Step x slot v w v x
  /-- The second value takes the place of the first. -/
  | replaced (hv : v.mayBeTrackable = true) (hw : w.mayBeTrackable = true) (hne : w ≠ v)
      (h : x.covers w v = true) (hnot : ¬ x.covers v w = true) : Step x slot v w w x
  | forgotten : Step x slot v w (.untrackable (mergeTypes v.ty? w.ty?)) x
  /-- Both become members of the merge of the slot. -/
  | joined {t : Ty} {x' : MergeIndex} (hv : v.mayBeTrackable = true) (hw : w.mayBeTrackable = true)
      (hne : w ≠ v) (hvw : ¬ x.covers v w = true) (hty : mergeTypes v.ty? w.ty? = some t)
      (h : x.mergeAt? slot v w = some x') : Step x slot v w (.merged t slot) x'

theorem merge_step (x : MergeIndex) (slot : MergeSlot) (v w : FlowValue) :
    Step x slot v w (x.merge slot v w).1 (x.merge slot v w).2 := by
  unfold merge
  by_cases heq : v = w
  · rw [if_pos heq]
    exact .kept (Or.inl heq)
  · rw [if_neg heq]
    simp only
    split
    · rename_i htrack
      obtain ⟨hv, hw⟩ := Bool.and_eq_true_iff.mp htrack
      unfold covering?
      by_cases hvw : x.covers v w = true
      · simp only [heq, hvw, decide_false, Bool.false_or, if_true]
        exact .kept (Or.inr hvw)
      · by_cases hwv : x.covers w v = true
        · simp only [heq, hvw, hwv, decide_false, Bool.false_or, if_true]
          exact .replaced hv hw (Ne.symm heq) hwv hvw
        · simp only [heq, hvw, hwv, decide_false, Bool.false_or, Bool.false_eq_true, if_false]
          cases hty : mergeTypes v.ty? w.ty? with
          | none =>
            simp only
            exact hty ▸ .forgotten
          | some t =>
            simp only
            cases hat : x.mergeAt? slot v w with
            | none => exact hty ▸ .forgotten
            | some x' => exact .joined hv hw (Ne.symm heq) hvw hty hat
    · exact .forgotten

/-- **Merging makes up no definition.**  A merge with a definition is one of equal values. -/
theorem merge_definition {x : MergeIndex} {slot : MergeSlot} {v w : FlowValue} {d : Definition}
    (hd : (x.merge slot v w).1.definition? = some d) : (x.merge slot v w).1 = v ∧ v = w := by
  have hstep := merge_step x slot v w
  generalize x.merge slot v w = r at hstep hd ⊢
  obtain ⟨r, x'⟩ := r
  cases hstep with
  | kept h => exact ⟨rfl, h.elim id (covers_definition hd)⟩
  | replaced _ _ hne h => exact absurd (covers_definition hd h) hne
  | forgotten => simp at hd
  | joined => simp at hd

/-- A merge is one of the two values, the merge of its slot, or nothing is known of it. -/
theorem merge_cases (x : MergeIndex) (slot : MergeSlot) (v w : FlowValue) :
    (x.merge slot v w).1 = v ∨ (x.merge slot v w).1 = w ∨
      (∃ t, (x.merge slot v w).1 = .merged t slot) ∨
      ∃ t, (x.merge slot v w).1 = .untrackable t := by
  have hstep := merge_step x slot v w
  generalize x.merge slot v w = r at hstep ⊢
  obtain ⟨r, x'⟩ := r
  cases hstep with
  | kept => exact Or.inl rfl
  | replaced => exact Or.inr (Or.inl rfl)
  | forgotten => exact Or.inr (Or.inr (Or.inr ⟨_, rfl⟩))
  | joined => exact Or.inr (Or.inr (Or.inl ⟨_, rfl⟩))

/-! ## 4. Members come from the values that meet -/

theorem members_put (x : MergeIndex) (slot s : MergeSlot) (ms : List FlowValue) :
    (x.put slot ms).members s = if s = slot then ms else x.members s := by
  unfold members put remove
  rw [lookup_cons_if]
  split
  · rfl
  · rename_i h
    rw [lookup_filter_ne s slot h]

theorem covering?_cases {x : MergeIndex} {v w r : FlowValue} (h : x.covering? v w = some r) :
    r = v ∨ r = w := by
  unfold covering? at h
  split at h
  · exact Or.inl (Option.some.inj h).symm
  · split at h
    · exact Or.inr (Option.some.inj h).symm
    · exact absurd h (by simp)

theorem mem_absorb {x : MergeIndex} {v u : FlowValue} : ∀ {ms : List FlowValue},
    u ∈ x.absorb v ms → u = v ∨ u ∈ ms := by
  intro ms
  induction ms with
  | nil => intro h; exact Or.inl (by simpa [absorb] using h)
  | cons m ms ih =>
    intro h
    unfold absorb at h
    cases hc : x.covering? m v with
    | some r =>
      simp only [hc, List.mem_cons] at h
      rcases h with rfl | h
      · rcases covering?_cases hc with rfl | rfl
        · exact Or.inr (by simp)
        · exact Or.inl rfl
      · exact Or.inr (List.mem_cons_of_mem _ h)
    | none =>
      simp only [hc, List.mem_cons] at h
      rcases h with rfl | h
      · exact Or.inr (by simp)
      · exact (ih h).imp_right (List.mem_cons_of_mem _)

theorem mem_foldl_absorb {x : MergeIndex} {u : FlowValue} : ∀ {vs ms : List FlowValue},
    u ∈ vs.foldl (fun ms v => x.absorb v ms) ms → u ∈ vs ∨ u ∈ ms := by
  intro vs
  induction vs with
  | nil => intro ms h; exact Or.inr h
  | cons v vs ih =>
    intro ms h
    rw [List.foldl_cons] at h
    rcases ih h with h | h
    · exact Or.inl (List.mem_cons_of_mem _ h)
    · rcases mem_absorb h with rfl | h
      · exact Or.inl (by simp)
      · exact Or.inr h

theorem mem_members_mergeAt? {x x' : MergeIndex} {slot s : MergeSlot} {v w u : FlowValue}
    (h : x.mergeAt? slot v w = some x') (hu : u ∈ x'.members s) :
    u ∈ x.members s ∨ u = v ∨ u = w := by
  have harriving : ∀ u ∈ ([v, w].filter fun v => !isHere slot v), u = v ∨ u = w := by
    intro u hu
    simpa using (List.mem_filter.mp hu).1
  unfold mergeAt? at h
  simp only at h
  split at h
  · simp only [Option.some.injEq] at h
    rw [← h, members_put] at hu
    split at hu
    · exact Or.inr (harriving u hu)
    · exact Or.inl hu
  · split at h
    · exact absurd h (by simp)
    · simp only [Option.some.injEq] at h
      rw [← h, members_put] at hu
      split at hu
      · rename_i hs
        rcases mem_foldl_absorb hu with hu | hu
        · exact Or.inr (harriving u hu)
        · exact Or.inl (hs ▸ hu)
      · exact Or.inl hu

/-- **A member was one before, or is one of the values that meet.** -/
theorem mem_members_merge {x : MergeIndex} {slot s : MergeSlot} {v w u : FlowValue}
    (hu : u ∈ (x.merge slot v w).2.members s) : u ∈ x.members s ∨ u = v ∨ u = w := by
  have hstep := merge_step x slot v w
  generalize x.merge slot v w = r at hstep hu
  obtain ⟨r, x'⟩ := r
  cases hstep with
  | kept => exact Or.inl hu
  | replaced => exact Or.inl hu
  | forgotten => exact Or.inl hu
  | joined _ _ _ _ _ hat => exact mem_members_mergeAt? hat hu

/-! ## 5. What has a definition can be followed -/

theorem trackableFrom_of_definition {x : MergeIndex} {v : FlowValue} {d : Definition}
    (h : v.definition? = some d) (fuel : Nat) (visiting : List MergeSlot) (memo : TrackMemo) :
    x.trackableFrom fuel visiting v memo = (true, memo) := by
  unfold FlowValue.definition? at h
  unfold trackableFrom
  cases hb : v.base with
  | untrackable t => rw [hb] at h; exact absurd h (by simp)
  | merged t slot => rw [hb] at h; exact absurd h (by simp)
  | _ => rfl

/-- **A value with a definition can be followed.** -/
theorem trackable_of_definition {x : MergeIndex} {v : FlowValue} {d : Definition}
    (h : v.definition? = some d) (memo : TrackMemo) : x.trackable v memo = (true, memo) :=
  trackableFrom_of_definition h _ _ memo

end MergeIndex

end Provenance
