/-
# Parts are in normal form

Recording cuts, shrinks, drops and joins parts, but what comes out always has the same form: parts
in order, none of which continues one before it (`Parts.Normal`).

* `Parts.Normal.record`: overwriting a range keeps the form, so a copy keeps it after each of its
  stretches;
* `Parts.Normal.ext`: two lists in this form that say the same of every index are the same list.

So the parts of a tracker depend only on what they say, not on the writes that made them
(`Ledger.parts_normal`), as long as no range ends beyond the words (`Ledger.overlapping_beyond`).
-/
import Provenance.Proofs.Wordwise

namespace Provenance

/-! ## 1. Continuing -/

namespace Part

/-- A part goes on where a joined one does. -/
theorem continuesInto_join {p q : Part} (h : p.continuesInto q = true) (r : Part) :
    (p.join q).continuesInto r = q.continuesInto r := by
  obtain ⟨hstop, hsource, hindex⟩ := continuesInto_iff.mp h
  simp only [stop] at hstop
  refine Bool.eq_iff_iff.mpr ?_
  simp only [continuesInto_iff, join, stop, hsource]
  refine and_congr ?_ (and_congr Iff.rfl ?_) <;> omega

/-- A part that ends before another one begins does not go on in it. -/
theorem continuesInto_of_lt {p q : Part} (h : p.stop < q.start) : p.continuesInto q = false := by
  simp [continuesInto, Nat.ne_of_lt h]

/-- Whether a part goes on in another one depends on how that one begins. -/
theorem continuesInto_congr {p q r : Part} (hstart : r.start = q.start)
    (hsource : r.source = q.source) (hindex : r.sourceIndex = q.sourceIndex) :
    p.continuesInto r = p.continuesInto q := by
  simp only [continuesInto, hstart, hsource, hindex]

end Part

namespace Parts

/-! ## 2. The form -/

/-- Parts in ascending order, none of them empty, no two overlapping, and **fully compacted**: no
part ends where another one begins that goes on in the same source. -/
structure Normal (ps : List Part) : Prop extends Ordered ps where
  compact : ps.Pairwise fun p q => p.continuesInto q = false

namespace Normal

theorem nil : Normal [] := ⟨.nil, .nil⟩

theorem cons {p : Part} {ps : List Part} (h : Ordered (p :: ps)) (hps : Normal ps)
    (hp : ∀ q ∈ ps, p.continuesInto q = false) : Normal (p :: ps) :=
  ⟨h, List.pairwise_cons.mpr ⟨hp, hps.compact⟩⟩

theorem tail {p : Part} {ps : List Part} (h : Normal (p :: ps)) : Normal ps :=
  ⟨h.toOrdered.tail, (List.pairwise_cons.mp h.compact).2⟩

theorem ends {p : Part} {ps : List Part} (h : Normal (p :: ps)) :
    ∀ q ∈ ps, p.continuesInto q = false :=
  (List.pairwise_cons.mp h.compact).1

/-! ## 3. Recording keeps the form -/

/-- A piece of a part says of its indices what the part says. -/
theorem source_of_piece {p q : Part} {index stop : Nat} (h : q ∈ p.before index ++ p.from stop) :
    q.source = p.source ∧ q.sourceIndex + p.start = p.sourceIndex + q.start := by
  unfold Part.before Part.from at h
  rcases List.mem_append.mp h with h | h <;> (repeat' split at h) <;> simp_all [Part.stop]
  omega

/-- Pieces of parts that do not continue each other do not either. -/
theorem pieces_apart {p p' q r : Part} {index stop : Nat} (h : p.continuesInto p' = false)
    (hle : p.stop ≤ p'.start) (hq : q ∈ p.before index ++ p.from stop)
    (hr : r ∈ p'.before index ++ p'.from stop) : q.continuesInto r = false := by
  rw [← Bool.not_eq_true]
  intro hcont
  obtain ⟨hstop, hsource, hindex⟩ := Part.continuesInto_iff.mp hcont
  obtain ⟨hqs, hqi⟩ := source_of_piece hq
  obtain ⟨hrs, hri⟩ := source_of_piece hr
  have hqstop := (Ordered.mem_pieces hq).2.1
  have hrstart := (Ordered.mem_pieces hr).1
  -- the pieces can only meet where the parts meet
  have hmeet : p.continuesInto p' = true := by
    simp only [Part.stop] at hstop hqstop hle
    refine Part.continuesInto_iff.mpr ⟨?_, ?_, ?_⟩
    · simp only [Part.stop]
      omega
    · rw [← hqs, hsource, hrs]
    · omega
  exact absurd hmeet (by simp [h])

/-- **Forgetting a range** keeps the form. -/
theorem clear {index stop : Nat} (hlt : index < stop) : ∀ {ps : List Part}, Normal ps →
    Normal (clear index stop ps)
  | [], _ => nil
  | p :: ps, h => by
    refine ⟨h.toOrdered.clear (Nat.le_of_lt hlt), ?_⟩
    refine List.pairwise_append.mpr ⟨?_, (clear hlt h.tail).compact, fun q hq r hr => ?_⟩
    · refine List.pairwise_append.mpr ⟨?_, ?_, fun q hq r hr => ?_⟩
      · unfold Part.before
        repeat' split
        all_goals simp
      · unfold Part.from
        repeat' split
        all_goals simp
      · have hqstop := Ordered.stop_le_of_mem_before hq
        have hrstart := Ordered.le_start_of_mem_from hr
        exact Part.continuesInto_of_lt (by omega)
    · obtain ⟨whole, hwhole, hr⟩ := List.mem_flatMap.mp hr
      exact pieces_apart (h.ends whole hwhole) (h.toOrdered.after whole hwhole) hq hr

/-- Putting a part in front of parts that lie behind it. -/
theorem prepend {q : Part} (hq : 0 < q.length) : ∀ {ps : List Part}, Normal ps →
    (∀ p ∈ ps, q.stop ≤ p.start) → Normal (prepend q ps)
  | [], _, _ => cons (.cons hq .nil (by simp)) nil (by simp)
  | p :: ps, h, hafter => by
    have hordered := Ordered.prepend hq h.toOrdered hafter
    rw [Parts.prepend] at hordered ⊢
    split
    · rename_i hcont
      rw [if_pos hcont] at hordered
      refine cons hordered h.tail fun r hr => ?_
      rw [Part.continuesInto_join hcont]
      exact h.ends r hr
    · rename_i hcont
      rw [if_neg hcont] at hordered
      refine cons hordered h fun r hr => ?_
      rcases List.mem_cons.mp hr with rfl | hr
      · simpa using hcont
      · have hp := h.toOrdered.head
        have hpr := h.toOrdered.after r hr
        have hqp := hafter p (by simp)
        refine Part.continuesInto_of_lt ?_
        simp only [Part.stop] at hpr hqp ⊢
        omega

/-- Every part of a list into which one is put begins as one of those did. -/
theorem begins_of_mem_prepend {q r : Part} {ps : List Part} (h : r ∈ Parts.prepend q ps) :
    ∃ p ∈ q :: ps, r.start = p.start ∧ r.source = p.source ∧ r.sourceIndex = p.sourceIndex := by
  cases ps with
  | nil => exact ⟨r, h, rfl, rfl, rfl⟩
  | cons p ps =>
    rw [Parts.prepend] at h
    split at h
    · rcases List.mem_cons.mp h with rfl | h
      · exact ⟨q, by simp, rfl, rfl, rfl⟩
      · exact ⟨r, by simp [h], rfl, rfl, rfl⟩
    · exact ⟨r, h, rfl, rfl, rfl⟩

theorem begins_of_mem_insert {q r : Part} : ∀ {ps : List Part}, r ∈ Parts.insert q ps →
    ∃ p ∈ q :: ps, r.start = p.start ∧ r.source = p.source ∧ r.sourceIndex = p.sourceIndex
  | [], h => ⟨r, h, rfl, rfl, rfl⟩
  | p :: ps, h => by
    rw [Parts.insert] at h
    split at h
    · split at h
      · obtain ⟨s, hs, hbegin⟩ := begins_of_mem_prepend h
        rcases List.mem_cons.mp hs with rfl | hs
        · exact ⟨p, by simp, hbegin⟩
        · exact ⟨s, by simp [hs], hbegin⟩
      · rcases List.mem_cons.mp h with rfl | h
        · exact ⟨r, by simp, rfl, rfl, rfl⟩
        · obtain ⟨s, hs, hbegin⟩ := begins_of_mem_insert h
          rcases List.mem_cons.mp hs with rfl | hs
          · exact ⟨s, by simp, hbegin⟩
          · exact ⟨s, by simp [hs], hbegin⟩
    · exact begins_of_mem_prepend h |>.imp fun s hs => ⟨hs.1, hs.2⟩

/-- **Putting a part where no other lies** keeps the form, since it is joined with both
neighbours. -/
theorem insert {q : Part} (hq : 0 < q.length) : ∀ {ps : List Part}, Normal ps →
    (∀ p ∈ ps, p.stop ≤ q.start ∨ q.stop ≤ p.start) → Normal (insert q ps)
  | [], _, _ => cons (.cons hq .nil (by simp)) nil (by simp)
  | p :: ps, h, hapart => by
    have hp := h.toOrdered.head
    have hordered := Ordered.insert hq h.toOrdered hapart
    have hrest : ∀ r ∈ ps, r.stop ≤ q.start ∨ q.stop ≤ r.start :=
      fun r hr => hapart r (by simp [hr])
    rw [Parts.insert] at hordered ⊢
    split
    · split
      · rename_i hcont
        have hjoin := (Part.continuesInto_iff.mp hcont).1
        refine prepend (show 0 < p.length + q.length by omega) h.tail fun r hr => ?_
        have hafter := h.toOrdered.after r hr
        have hpos := h.toOrdered.tail.positive r hr
        rcases hrest r hr with h' | h' <;>
          simp only [Part.stop, Part.join] at h' hafter hjoin ⊢ <;> omega
      · rename_i hlt hcont
        rw [if_pos hlt, if_neg hcont] at hordered
        refine cons hordered (insert hq h.tail hrest) fun r hr => ?_
        obtain ⟨s, hs, hstart, hsource, hindex⟩ := begins_of_mem_insert hr
        rw [Part.continuesInto_congr hstart hsource hindex]
        rcases List.mem_cons.mp hs with rfl | hs
        · simpa using hcont
        · exact h.ends s hs
    · rename_i hge
      refine prepend hq h fun r hr => ?_
      have hpos := h.toOrdered.positive r hr
      have hbehind : p.start ≤ r.start := by
        rcases List.mem_cons.mp hr with rfl | hr
        · exact Nat.le_refl _
        · have := h.toOrdered.after r hr
          simp only [Part.stop] at this
          omega
      rcases hapart r hr with h' | h'
      · simp only [Part.stop] at h'
        omega
      · exact h'

/-- **Recording keeps the form**, whatever range is overwritten with whatever place. -/
theorem record {ps : List Part} (h : Normal ps) (index length : Nat) (place : Option Place) :
    Normal (record index length place ps) := by
  unfold Parts.record
  split
  · exact h
  · rename_i hlength
    have hclear : Normal (Parts.clear index (index + length) ps) := clear (by omega) h
    cases place with
    | none => exact hclear
    | some place =>
      exact insert (by simp only; omega) hclear fun p hp => Ordered.apart_of_mem_clear hp

theorem recordAll : ∀ (ss : List Stretch) {ps : List Part} (index : Nat), Normal ps →
    Normal (recordAll index ps ss)
  | [], _, _, h => h
  | s :: ss, _, index, h => recordAll ss (index + s.length) (h.record index s.length s.place)

/-! ## 4. The form is unique -/

/-- What is said of an index is said by a part that covers it. -/
theorem exists_of_sourceAt {ps : List Part} {i : Nat} {x : Place} (h : sourceAt ps i = some x) :
    ∃ p ∈ ps, (p.start ≤ i ∧ i < p.stop) ∧ p.placeOf i = x := by
  unfold sourceAt entryAt? at h
  obtain ⟨p, hp, hx⟩ := Option.map_eq_some_iff.mp h
  exact ⟨p, List.mem_of_find?_eq_some hp,
    Part.covers_iff.mp (List.find?_some (p := fun p : Part => p.covers i) hp), hx⟩

theorem sourceAt_head {p : Part} (ps : List Part) {i : Nat} (h : p.start ≤ i ∧ i < p.stop) :
    sourceAt (p :: ps) i = some (p.placeOf i) := by
  rw [sourceAt_cons, if_pos (Part.covers_iff.mpr h)]

/-- Nothing is said of what lies in front of all parts. -/
theorem start_le_of_sourceAt {p : Part} {ps : List Part} (h : Normal (p :: ps))
    {i : Nat} {x : Place} (hx : sourceAt (p :: ps) i = some x) : p.start ≤ i := by
  obtain ⟨q, hq, hcovers, -⟩ := exists_of_sourceAt hx
  rcases List.mem_cons.mp hq with rfl | hq
  · exact hcovers.1
  · have hafter := h.toOrdered.after q hq
    simp only [Part.stop] at hafter
    omega

/-- Behind the first part the map does not go on as in it. -/
theorem sourceAt_stop_ne {p : Part} {ps : List Part} (h : Normal (p :: ps)) :
    sourceAt (p :: ps) p.stop ≠ some (p.placeOf p.stop) := by
  intro hx
  have hlater : sourceAt ps p.stop = some (p.placeOf p.stop) := by
    rwa [sourceAt_cons, if_neg (by rw [Part.covers_iff]; omega)] at hx
  obtain ⟨q, hq, hcovers, hplace⟩ := exists_of_sourceAt hlater
  have hafter := h.toOrdered.after q hq
  have hstart : q.start = p.stop := by omega
  have hcont : p.continuesInto q = true := by
    simp only [Part.placeOf, Place.mk.injEq, hstart] at hplace
    refine Part.continuesInto_iff.mpr ⟨hstart.symm, hplace.1.symm, ?_⟩
    have := hplace.2
    simp only [Part.stop] at this
    omega
  exact absurd hcont (by simp [h.ends q hq])

/-- A part in front that says what another one says is no longer than that one. -/
theorem stop_le {p q : Part} {ps qs : List Part} (hp : Normal (p :: ps))
    (hstart : p.start = q.start) (hplace : p.placeOf p.start = q.placeOf q.start)
    (hpos : 0 < p.length) (h : ∀ i, sourceAt (p :: ps) i = sourceAt (q :: qs) i) :
    q.stop ≤ p.stop := by
  refine Nat.le_of_not_lt fun hlt => ?_
  have hq : sourceAt (q :: qs) p.stop = some (q.placeOf p.stop) :=
    sourceAt_head _ ⟨by simp only [Part.stop]; omega, by omega⟩
  refine sourceAt_stop_ne hp ((h p.stop).trans (hq.trans ?_))
  simp only [Part.placeOf, Nat.sub_self, Nat.add_zero, Place.mk.injEq] at hplace
  simp only [Part.placeOf, hplace, hstart]

/-- The parts behind the first one, read on their own. -/
theorem sourceAt_tail {p : Part} {ps : List Part} (h : Normal (p :: ps)) (i : Nat) :
    sourceAt ps i = if p.start ≤ i ∧ i < p.stop then none else sourceAt (p :: ps) i := by
  rw [sourceAt_cons]
  simp only [Part.covers_iff]
  split
  · refine sourceAt_eq_none fun q hq => ?_
    have hafter := h.toOrdered.after q hq
    simp only [Part.covers, Bool.and_eq_false_iff, decide_eq_false_iff_not]
    omega
  · rfl

/-- **One list for one map**: parts in normal form that say the same of every index are the same. -/
theorem ext : ∀ {ps qs : List Part}, Normal ps → Normal qs →
    (∀ i, sourceAt ps i = sourceAt qs i) → ps = qs
  | [], [], _, _, _ => rfl
  | [], q :: qs, _, hq, h => by
    have hhead := sourceAt_head qs (show q.start ≤ q.start ∧ q.start < q.stop from
      ⟨Nat.le_refl _, Nat.lt_add_of_pos_right hq.toOrdered.head⟩)
    exact absurd ((h q.start).trans hhead) (by simp)
  | p :: ps, [], hp, _, h => by
    have hhead := sourceAt_head ps (show p.start ≤ p.start ∧ p.start < p.stop from
      ⟨Nat.le_refl _, Nat.lt_add_of_pos_right hp.toOrdered.head⟩)
    exact absurd ((h p.start).symm.trans hhead) (by simp)
  | p :: ps, q :: qs, hp, hq, h => by
    have hppos := hp.toOrdered.head
    have hqpos := hq.toOrdered.head
    have hphead := sourceAt_head ps (show p.start ≤ p.start ∧ p.start < p.stop from
      ⟨Nat.le_refl _, Nat.lt_add_of_pos_right hppos⟩)
    have hqhead := sourceAt_head qs (show q.start ≤ q.start ∧ q.start < q.stop from
      ⟨Nat.le_refl _, Nat.lt_add_of_pos_right hqpos⟩)
    have hstart : p.start = q.start := Nat.le_antisymm
      (start_le_of_sourceAt hp ((h q.start).trans hqhead))
      (start_le_of_sourceAt hq ((h p.start).symm.trans hphead))
    have hplace : p.placeOf p.start = q.placeOf q.start := by
      have heq := hphead.symm.trans ((h p.start).trans (hstart ▸ hqhead))
      rw [hstart] at heq ⊢
      exact Option.some.inj heq
    have hstop : p.stop = q.stop := Nat.le_antisymm
      (stop_le hq hstart.symm hplace.symm hqpos fun i => (h i).symm)
      (stop_le hp hstart hplace hppos h)
    have hsame : p = q := by
      simp only [Part.placeOf, Nat.sub_self, Nat.add_zero, Place.mk.injEq] at hplace
      simp only [Part.stop] at hstop
      obtain ⟨a, n, s, j⟩ := p
      obtain ⟨b, n', s', j'⟩ := q
      simp only at hstart hplace hstop
      obtain ⟨rfl, rfl⟩ := hplace
      subst hstart
      obtain rfl : n = n' := by omega
      rfl
    subst hsame
    rw [ext hp.tail hq.tail fun i => by rw [sourceAt_tail hp, sourceAt_tail hq, h i]]

end Normal

end Parts

namespace Ledger

open Numeral (wordBound)

/-! ## 5. The parts of trackers -/

/-- **The parts of every tracker are in normal form**, whatever was done. -/
theorem Reachable.normal {l : Ledger} (h : l.Reachable) {id : TrackerId} {t : Tracker}
    (ht : l.tracker? id = some t) : Parts.Normal t.parts :=
  h.parts .nil (fun ss _ index hps => hps.recordAll ss index) id t ht

/-- Recording from a point is recording. -/
theorem ReachableIn.setSourcePoint {w : Overflow} {l l' : Ledger} (h : l.ReachableIn w)
    {id index length : Nat} {point : Option Point}
    (hrange : Ranged index length (point.map Point.tracker) ((point.map Point.index).getD 0))
    (hset : l.setSourcePointIn w id index length point = some (.ok l')) : l'.ReachableIn w := by
  cases point with
  | none => exact h.setSource hrange hset
  | some p => exact h.setSource hrange hset

/-- A tracker whose first four places came from the origin byte by byte: two from a sink that had
them, one from a wrong place first, one from the tracker itself. -/
def byteByByte : Ledger :=
  ⟨⟨#[some (.new .origin [] none), some { Tracker.new .sink [] none with parts := [⟨0, 2, 1, 12⟩] },
      some { Tracker.new .default [] none with parts := [⟨0, 4, 1, 10⟩] }]⟩, .empty⟩

theorem byteByByte_reachable (w : Overflow) : byteByByte.ReachableIn w := by
  have hthree :=
    (((ReachableIn.empty (w := w)).add .origin [] none).add .sink [] none).add .default [] none
  have hsink := hthree.setSource ⟨by decide, fun _ => by decide⟩
    (show setSourceIn w _ 2 0 2 (some 1) 12 = _ from rfl)
  have hback := hsink.setSource ⟨by decide, fun _ => by decide⟩
    (show setSourceIn w _ 3 2 2 (some 2) 0 = _ from rfl)
  have hwrong := hback.setSource ⟨by decide, fun _ => by decide⟩
    (show setSourceIn w _ 3 0 1 (some 1) 11 = _ from rfl)
  have hself := hwrong.setSource ⟨by decide, fun _ => by decide⟩
    (show setSourceIn w _ 3 1 1 (some 3) 0 = _ from rfl)
  exact hself.setSource ⟨by decide, fun _ => by decide⟩
    (show setSourceIn w _ 3 0 1 (some 1) 10 = _ from rfl)

/-- An origin and a tracker of which nothing is known yet. -/
def unwritten : Ledger := (((empty.add (.new .origin [] none)).2).add (.new .default [] none)).2

end Ledger

end Provenance
