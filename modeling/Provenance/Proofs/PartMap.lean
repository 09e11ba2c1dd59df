/-
# Parts as a partial map

A list of parts says of some indices from which place they came (`Parts.sourceAt`).  This file says
what the operations on parts do to that partial map, without regard to how the parts are cut.

* `sourceAt_record`: overwriting a range changes the map there and nowhere else;
* `placeAt_window`: the stretches of a range say what the map says of it, provided the parts are in
  order (`Parts.Ordered`), which recording keeps (`Ordered.record`);
* `sourceAt_recordAll`: writing stretches one after the other writes what they say.
-/
import Mathlib.Logic.Basic
import Provenance.Store.Part

namespace Provenance

/-! ## 1. Single parts -/

namespace Part

theorem covers_iff {p : Part} {i : Nat} : p.covers i = true ↔ p.start ≤ i ∧ i < p.stop := by
  simp [covers]

theorem continuesInto_iff {p q : Part} : p.continuesInto q = true ↔
    p.stop = q.start ∧ p.source = q.source ∧ p.sourceIndex + p.length = q.sourceIndex := by
  simp [continuesInto, and_assoc]

end Part

namespace Parts

@[simp] theorem sourceAt_nil (i : Nat) : sourceAt [] i = none := rfl

theorem sourceAt_cons (p : Part) (ps : List Part) (i : Nat) :
    sourceAt (p :: ps) i = if p.covers i then some (p.placeOf i) else sourceAt ps i := by
  unfold sourceAt entryAt?
  rw [List.find?_cons]
  cases p.covers i <;> rfl

theorem sourceAt_append (ps qs : List Part) (i : Nat) :
    sourceAt (ps ++ qs) i = (sourceAt ps i).or (sourceAt qs i) := by
  induction ps with
  | nil => simp
  | cons p ps ih =>
    rw [List.cons_append, sourceAt_cons, sourceAt_cons, ih]
    split <;> simp

/-- An index that no part covers came from nowhere known. -/
theorem sourceAt_eq_none {ps : List Part} {i : Nat} (h : ∀ p ∈ ps, p.covers i = false) :
    sourceAt ps i = none := by
  induction ps with
  | nil => rfl
  | cons p ps ih =>
    rw [sourceAt_cons, h p (by simp)]
    exact ih fun q hq => h q (by simp [hq])

/-! ## 2. Forgetting a range -/

/-- What lies before an index says what the part says there. -/
theorem sourceAt_before (p : Part) (stop i : Nat) :
    sourceAt (p.before stop) i = if i < stop then sourceAt [p] i else none := by
  unfold Part.before
  split
  · have : i < stop → p.covers i = false := fun h => by simp [Part.covers]; omega
    split <;> simp_all [sourceAt_cons]
  · split
    · have : ¬ i < stop → p.covers i = false := fun h => by simp [Part.covers]; omega
      split <;> simp_all [sourceAt_cons]
    · simp only [sourceAt_cons, sourceAt_nil, Part.covers_iff, Part.placeOf, Part.stop] at *
      by_cases hi : i < stop
      · rw [if_pos hi]
        exact if_congr (by omega) rfl rfl
      · rw [if_neg hi, if_neg (by omega)]

/-- What lies from an index on says what the part says there. -/
theorem sourceAt_from (p : Part) (start i : Nat) :
    sourceAt (p.from start) i = if start ≤ i then sourceAt [p] i else none := by
  unfold Part.from
  split
  · have : start ≤ i → p.covers i = false := fun h => by simp [Part.covers]; omega
    split <;> simp_all [sourceAt_cons]
  · split
    · have : ¬ start ≤ i → p.covers i = false := fun h => by simp [Part.covers]; omega
      split <;> simp_all [sourceAt_cons]
    · simp only [sourceAt_cons, sourceAt_nil, Part.covers_iff, Part.placeOf, Part.stop] at *
      by_cases hi : start ≤ i
      · rw [if_pos hi]
        refine if_congr (by omega) ?_ rfl
        rw [show p.sourceIndex + (start - p.start) + (i - start) = p.sourceIndex + (i - p.start) by
          omega]
      · rw [if_neg hi, if_neg (by omega)]

/-- **Forgetting a range** leaves the map as it was outside. -/
theorem sourceAt_clear {index stop : Nat} (hle : index ≤ stop) (ps : List Part) (i : Nat) :
    sourceAt (clear index stop ps) i =
      if index ≤ i ∧ i < stop then none else sourceAt ps i := by
  induction ps with
  | nil => simp [clear]
  | cons p ps ih =>
    have hclear : clear index stop (p :: ps) =
        p.before index ++ p.from stop ++ clear index stop ps := rfl
    have hcons : sourceAt (p :: ps) i = (sourceAt [p] i).or (sourceAt ps i) :=
      sourceAt_append [p] ps i
    rw [hclear, sourceAt_append, sourceAt_append, sourceAt_before, sourceAt_from, ih, hcons]
    by_cases hi : i < index
    · simp [hi, show ¬ stop ≤ i by omega, show ¬ index ≤ i by omega]
    · by_cases hi' : stop ≤ i
      · simp [hi, hi', show ¬ i < stop by omega]
      · simp [hi, hi', show index ≤ i by omega, show i < stop by omega]

/-! ## 3. Putting a part where no other lies -/

/-- A part and the one it continues into, joined. -/
theorem sourceAt_join {p q : Part} (h : p.continuesInto q = true) (ps : List Part) (i : Nat) :
    sourceAt (p.join q :: ps) i = sourceAt (p :: q :: ps) i := by
  obtain ⟨hstop, hsource, hindex⟩ := Part.continuesInto_iff.mp h
  simp only [Part.stop] at hstop
  simp only [sourceAt_cons, Part.covers_iff, Part.placeOf, Part.join, Part.stop, ← hsource]
  by_cases hp : p.start ≤ i ∧ i < p.start + p.length
  · rw [if_pos hp, if_pos (by omega)]
  · by_cases hq : q.start ≤ i ∧ i < q.start + q.length
    · rw [if_neg hp, if_pos hq, if_pos (by omega)]
      congr 2
      omega
    · rw [if_neg hp, if_neg hq, if_neg (by omega)]

theorem sourceAt_prepend (q : Part) (ps : List Part) (i : Nat) :
    sourceAt (prepend q ps) i = sourceAt (q :: ps) i := by
  cases ps with
  | nil => rfl
  | cons p ps =>
    rw [prepend]
    split
    · rename_i h
      exact sourceAt_join h ps i
    · rfl

/-- Parts that cover no index together may change places. -/
theorem sourceAt_swap {p q : Part} {i : Nat} (h : p.covers i = true → q.covers i = false)
    (ps : List Part) : sourceAt (p :: q :: ps) i = sourceAt (q :: p :: ps) i := by
  simp only [sourceAt_cons]
  by_cases hp : p.covers i = true
  · simp [hp, h hp]
  · simp [hp]

/-- **Putting a part where no other part lies** adds what it says to the map. -/
theorem sourceAt_insert {q : Part} {i : Nat} : ∀ {ps : List Part},
    (∀ p ∈ ps, q.covers i = true → p.covers i = false) →
    sourceAt (insert q ps) i = sourceAt (q :: ps) i
  | [], _ => rfl
  | p :: ps, h => by
    have hswap : sourceAt (p :: q :: ps) i = sourceAt (q :: p :: ps) i :=
      sourceAt_swap (fun hp => by
        cases hq : q.covers i with
        | false => rfl
        | true => exact absurd (h p (by simp) hq) (by simp [hp])) ps
    unfold insert
    split
    · split
      · rename_i hcont
        rw [sourceAt_prepend, sourceAt_join hcont, hswap]
      · rw [sourceAt_cons, sourceAt_insert fun p' hp' => h p' (by simp [hp']),
          ← sourceAt_cons, hswap]
    · rw [sourceAt_prepend]

/-! ## 4. Overwriting a range -/

/-- The place some indices further on. -/
def advance (place : Option Place) (count : Nat) : Option Place :=
  place.map fun x => ⟨x.source, x.index + count⟩

/-- No part that is left covers an index of the range that was forgotten. -/
theorem covers_of_mem_clear {index stop i : Nat} (hi : index ≤ i ∧ i < stop) {ps : List Part}
    {p : Part} (hp : p ∈ clear index stop ps) : p.covers i = false := by
  unfold clear at hp
  obtain ⟨whole, -, hp⟩ := List.mem_flatMap.mp hp
  unfold Part.before Part.from at hp
  rcases List.mem_append.mp hp with hp | hp <;> (repeat' split at hp) <;>
    simp_all [Part.covers, Part.stop] <;> omega

/-- **Overwriting a range** changes the map there and nowhere else. -/
theorem sourceAt_record (index length : Nat) (place : Option Place) (ps : List Part) (i : Nat) :
    sourceAt (record index length place ps) i =
      if index ≤ i ∧ i < index + length then advance place (i - index) else sourceAt ps i := by
  unfold record
  split
  · rename_i hlen
    rw [if_neg (by omega)]
  · cases place with
    | none => exact sourceAt_clear (Nat.le_add_right _ _) ps i
    | some place =>
      simp only
      rw [sourceAt_insert, sourceAt_cons, sourceAt_clear (Nat.le_add_right _ _)]
      · simp only [Part.covers_iff, Part.stop]
        split <;> simp_all [advance, Part.placeOf]
      · intro p hp hq
        exact covers_of_mem_clear (Part.covers_iff.mp hq) hp

/-! ## 5. Stretches -/

/-- How many indices stretches cover. -/
def extent : List Stretch → Nat
  | [] => 0
  | s :: ss => s.length + extent ss

/-- Where the value came from that is some indices into stretches. -/
def placeAt : List Stretch → Nat → Option Place
  | [], _ => none
  | s :: ss, i => if i < s.length then advance s.place i else placeAt ss (i - s.length)

@[simp] theorem extent_nil : extent [] = 0 := rfl

@[simp] theorem extent_cons (s : Stretch) (ss : List Stretch) :
    extent (s :: ss) = s.length + extent ss := rfl

@[simp] theorem extent_gap (length : Nat) : extent (gap length) = length := by
  unfold gap
  split <;> simp_all

@[simp] theorem extent_append (ss ts : List Stretch) :
    extent (ss ++ ts) = extent ss + extent ts := by
  induction ss with
  | nil => simp
  | cons s ss ih => simp only [List.cons_append, extent_cons, ih, Nat.add_assoc]

theorem placeAt_gap (length i : Nat) : placeAt (gap length) i = none := by
  unfold gap
  split <;> simp [placeAt, advance]

theorem placeAt_gap_append (length : Nat) (ss : List Stretch) (i : Nat) :
    placeAt (gap length ++ ss) i = if i < length then none else placeAt ss (i - length) := by
  unfold gap
  split
  · simp_all
  · simp [placeAt, advance]

/-- **Writing stretches one after the other** writes what they say. -/
theorem sourceAt_recordAll : ∀ (ss : List Stretch) (index : Nat) (ps : List Part) (i : Nat),
    sourceAt (recordAll index ps ss) i =
      if index ≤ i ∧ i < index + extent ss then placeAt ss (i - index) else sourceAt ps i
  | [], index, ps, i => by
    rw [if_neg (by simp only [extent_nil]; omega)]
    rfl
  | s :: ss, index, ps, i => by
    unfold recordAll
    rw [sourceAt_recordAll ss, sourceAt_record, extent_cons]
    by_cases hlow : index ≤ i
    · by_cases hhere : i < index + s.length
      · rw [if_neg (by omega), if_pos ⟨hlow, hhere⟩, if_pos (by omega), placeAt,
          if_pos (by omega)]
      · by_cases hlast : i < index + (s.length + extent ss)
        · rw [if_pos (by omega), if_pos ⟨hlow, hlast⟩, placeAt, if_neg (by omega),
            Nat.sub_add_eq]
        · rw [if_neg (by omega), if_neg (by omega), if_neg (by omega)]
    · rw [if_neg (by omega), if_neg (by omega), if_neg (by omega)]

/-! ## 6. Parts in order -/

/-- Parts in ascending order, none of them empty, no two overlapping. -/
structure Ordered (ps : List Part) : Prop where
  positive : ∀ p ∈ ps, 0 < p.length
  apart : ps.Pairwise fun p q => p.stop ≤ q.start

namespace Ordered

theorem nil : Ordered [] := ⟨by simp, .nil⟩

theorem cons {p : Part} {ps : List Part} (hp : 0 < p.length) (hps : Ordered ps)
    (h : ∀ q ∈ ps, p.stop ≤ q.start) : Ordered (p :: ps) :=
  ⟨by simpa using ⟨hp, hps.positive⟩, List.pairwise_cons.mpr ⟨h, hps.apart⟩⟩

theorem tail {p : Part} {ps : List Part} (h : Ordered (p :: ps)) : Ordered ps :=
  ⟨fun q hq => h.positive q (by simp [hq]), (List.pairwise_cons.mp h.apart).2⟩

theorem head {p : Part} {ps : List Part} (h : Ordered (p :: ps)) : 0 < p.length :=
  h.positive p (by simp)

theorem after {p : Part} {ps : List Part} (h : Ordered (p :: ps)) : ∀ q ∈ ps, p.stop ≤ q.start :=
  (List.pairwise_cons.mp h.apart).1

/-- Pieces of a part lie within it. -/
theorem mem_pieces {p q : Part} {index stop : Nat} (h : q ∈ p.before index ++ p.from stop) :
    p.start ≤ q.start ∧ q.stop ≤ p.stop ∧ (0 < p.length → 0 < q.length) := by
  unfold Part.before Part.from at h
  rcases List.mem_append.mp h with h | h <;> (repeat' split at h) <;>
    simp_all [Part.stop] <;> omega

/-- Forgetting a range keeps parts in order. -/
theorem clear {index stop : Nat} (hle : index ≤ stop) : ∀ {ps : List Part}, Ordered ps →
    Ordered (clear index stop ps)
  | [], _ => nil
  | p :: ps, h => by
    have hrest := clear hle h.tail
    have hpieces : ∀ q ∈ p.before index ++ p.from stop, p.start ≤ q.start ∧ q.stop ≤ p.stop ∧
        0 < q.length := fun q hq => by
      obtain ⟨h1, h2, h3⟩ := mem_pieces hq
      exact ⟨h1, h2, h3 h.head⟩
    have hlater : ∀ q ∈ Parts.clear index stop ps, p.stop ≤ q.start := fun q hq => by
      obtain ⟨whole, hwhole, hq⟩ := List.mem_flatMap.mp hq
      exact Nat.le_trans (h.after whole hwhole) (mem_pieces hq).1
    refine ⟨fun q hq => ?_, ?_⟩
    · rcases List.mem_append.mp hq with hq | hq
      · exact (hpieces q hq).2.2
      · exact hrest.positive q hq
    · refine List.pairwise_append.mpr ⟨?_, hrest.apart, fun q hq r hr =>
        Nat.le_trans (hpieces q hq).2.1 (hlater r hr)⟩
      have hsides : ∀ q ∈ p.before index, ∀ r ∈ p.from stop, q.stop ≤ r.start := fun q hq r hr => by
        unfold Part.before at hq
        unfold Part.from at hr
        (repeat' split at hq) <;> (repeat' split at hr) <;> simp_all [Part.stop] <;> omega
      refine List.pairwise_append.mpr ⟨?_, ?_, hsides⟩
      · unfold Part.before
        repeat' split
        all_goals simp
      · unfold Part.from
        repeat' split
        all_goals simp

/-- Putting a part in front of parts that lie behind it. -/
theorem prepend {q : Part} (hq : 0 < q.length) : ∀ {ps : List Part}, Ordered ps →
    (∀ p ∈ ps, q.stop ≤ p.start) → Ordered (prepend q ps)
  | [], _, h => cons hq nil h
  | p :: ps, hps, h => by
    rw [Parts.prepend]
    split
    · rename_i hcont
      have hstop := (Part.continuesInto_iff.mp hcont).1
      refine cons (by simp only [Part.join]; omega) hps.tail fun r hr => ?_
      have hafter := hps.after r hr
      simp only [Part.stop, Part.join] at hstop hafter ⊢
      omega
    · exact cons hq hps h

/-- What a part is put among starts no earlier than all of them. -/
theorem le_start_insert {b : Nat} {q : Part} (hq : b ≤ q.start) : ∀ {ps : List Part},
    (∀ p ∈ ps, b ≤ p.start) → ∀ r ∈ Parts.insert q ps, b ≤ r.start
  | [], _ => by simpa [Parts.insert] using hq
  | p :: ps, h => by
    have hp : b ≤ p.start := h p (by simp)
    have hps : ∀ p ∈ ps, b ≤ p.start := fun r hr => h r (by simp [hr])
    have hprepend : ∀ {q : Part} {ps : List Part}, b ≤ q.start → (∀ p ∈ ps, b ≤ p.start) →
        ∀ r ∈ Parts.prepend q ps, b ≤ r.start := by
      intro q ps hq hps r hr
      cases ps with
      | nil => exact List.mem_singleton.mp hr ▸ hq
      | cons p ps =>
        rw [Parts.prepend] at hr
        split at hr
        · rcases List.mem_cons.mp hr with rfl | hr
          · exact hq
          · exact hps r (by simp [hr])
        · rcases List.mem_cons.mp hr with rfl | hr
          · exact hq
          · exact hps r hr
    rw [Parts.insert]
    split
    · split
      · exact hprepend (q := p.join q) hp hps
      · intro r hr
        rcases List.mem_cons.mp hr with rfl | hr
        · exact hp
        · exact le_start_insert hq hps r hr
    · exact hprepend hq h

/-- **Putting a part where no other lies** keeps parts in order. -/
theorem insert {q : Part} (hq : 0 < q.length) : ∀ {ps : List Part}, Ordered ps →
    (∀ p ∈ ps, p.stop ≤ q.start ∨ q.stop ≤ p.start) → Ordered (insert q ps)
  | [], _, _ => cons hq nil (by simp)
  | p :: ps, h, hapart => by
    have hp := h.head
    have hbehind : p.stop ≤ q.start → ∀ r ∈ ps, r.stop ≤ q.start ∨ q.stop ≤ r.start :=
      fun _ r hr => hapart r (by simp [hr])
    have hstart : p.start < q.start → p.stop ≤ q.start := fun hlt => by
      rcases hapart p (by simp) with h' | h'
      · exact h'
      · simp only [Part.stop] at h'
        omega
    rw [Parts.insert]
    split
    · rename_i hlt
      split
      · rename_i hcont
        have hjoin := (Part.continuesInto_iff.mp hcont).1
        refine prepend (show 0 < p.length + q.length by omega) h.tail fun r hr => ?_
        have hafter := h.after r hr
        have hpos := h.tail.positive r hr
        rcases hapart r (by simp [hr]) with h' | h' <;>
          simp only [Part.stop, Part.join] at h' hafter hjoin ⊢ <;> omega
      · exact cons hp (insert hq h.tail (hbehind (hstart hlt)))
          (le_start_insert (hstart hlt) h.after)
    · rename_i hge
      have hfirst : q.stop ≤ p.start := by
        rcases hapart p (by simp) with h' | h'
        · simp only [Part.stop] at h'
          omega
        · exact h'
      refine prepend hq h fun r hr => ?_
      rcases List.mem_cons.mp hr with rfl | hr
      · exact hfirst
      · have := h.after r hr
        simp only [Part.stop] at this hfirst ⊢
        omega

theorem stop_le_of_mem_before {p q : Part} {i : Nat} (hq : q ∈ p.before i) : q.stop ≤ i := by
  unfold Part.before at hq
  split at hq
  · exact absurd hq List.not_mem_nil
  · split at hq
    · obtain rfl := List.mem_singleton.mp hq
      assumption
    · obtain rfl := List.mem_singleton.mp hq
      simp only [Part.stop]
      omega

theorem le_start_of_mem_from {p q : Part} {i : Nat} (hq : q ∈ p.from i) : i ≤ q.start := by
  unfold Part.from at hq
  split at hq
  · exact absurd hq List.not_mem_nil
  · split at hq
    · obtain rfl := List.mem_singleton.mp hq
      assumption
    · obtain rfl := List.mem_singleton.mp hq
      exact Nat.le_refl i

/-- What is left after forgetting a range lies before or behind it. -/
theorem apart_of_mem_clear {index stop : Nat} {ps : List Part} {p : Part}
    (hp : p ∈ Parts.clear index stop ps) : p.stop ≤ index ∨ stop ≤ p.start := by
  obtain ⟨whole, -, hp⟩ := List.mem_flatMap.mp hp
  rcases List.mem_append.mp hp with hbefore | hfrom
  · exact Or.inl (stop_le_of_mem_before hbefore)
  · exact Or.inr (le_start_of_mem_from hfrom)

/-- **Recording keeps parts in order.** -/
theorem record {ps : List Part} (h : Ordered ps) (index length : Nat) (place : Option Place) :
    Ordered (record index length place ps) := by
  unfold Parts.record
  split
  · exact h
  · have hclear := clear (Nat.le_add_right index length) h
    cases place with
    | none => exact hclear
    | some place => exact insert (by simp only; omega) hclear fun p hp => apart_of_mem_clear hp

theorem recordAll : ∀ (ss : List Stretch) {ps : List Part} (index : Nat), Ordered ps →
    Ordered (recordAll index ps ss)
  | [], _, _, h => h
  | s :: ss, _, index, h => recordAll ss (index + s.length) (h.record index s.length s.place)

end Ordered

/-! ## 7. What a range is made of -/

/-- **The stretches of a range** cover it and say what the map says. -/
theorem placeAt_window {stop : Nat} : ∀ {ps : List Part} {cursor : Nat}, Ordered ps →
    cursor ≤ stop → extent (window cursor stop ps) = stop - cursor ∧
      ∀ i, i < stop - cursor → placeAt (window cursor stop ps) i = sourceAt ps (cursor + i)
  | [], cursor, _, _ => ⟨extent_gap _, fun i _ => placeAt_gap _ i⟩
  | p :: ps, cursor, h, hle => by
    have hp := h.head
    rw [window]
    split
    · rename_i hbefore
      obtain ⟨hextent, hplace⟩ := placeAt_window h.tail hle
      refine ⟨hextent, fun i hi => ?_⟩
      rw [hplace i hi, sourceAt_cons, if_neg]
      rw [Part.covers_iff]
      omega
    · split
      · rename_i hbehind
        refine ⟨extent_gap _, fun i hi => ?_⟩
        rw [placeAt_gap, sourceAt_eq_none]
        intro q hq
        have hstart : p.start ≤ q.start := by
          rcases List.mem_cons.mp hq with rfl | hq
          · exact Nat.le_refl _
          · have := h.after q hq
            simp only [Part.stop] at this
            omega
        simp only [Part.covers, Bool.and_eq_false_iff, decide_eq_false_iff_not]
        omega
      · rename_i hpast hreach
        obtain ⟨hextent, hplace⟩ := placeAt_window h.tail (Nat.min_le_right p.stop stop)
        simp only [Part.stop] at hpast hplace hextent ⊢
        refine ⟨?_, fun i hi => ?_⟩
        · simp only [extent_append, extent_gap, extent_cons, hextent]
          omega
        · rw [placeAt_gap_append, placeAt]
          by_cases hgap : i < max p.start cursor - cursor
          · rw [if_pos hgap, sourceAt_eq_none]
            intro q hq
            have hstart : p.start ≤ q.start := by
              rcases List.mem_cons.mp hq with rfl | hq
              · exact Nat.le_refl _
              · have := h.after q hq
                simp only [Part.stop] at this
                omega
            simp only [Part.covers, Bool.and_eq_false_iff, decide_eq_false_iff_not]
            omega
          · rw [if_neg hgap, sourceAt_cons]
            simp only [Part.covers_iff, Part.stop]
            by_cases hhere : i - (max p.start cursor - cursor) <
                min (p.start + p.length) stop - max p.start cursor
            · rw [if_pos hhere, if_pos (by omega)]
              simp only [advance, Part.placeOf, Option.map_some, Option.some.injEq, Place.mk.injEq,
                true_and]
              omega
            · rw [if_neg hhere, if_neg (by omega), hplace _ (by omega)]
              congr 1
              omega

end Parts

end Provenance
