/-
# What a snapshot shows

A snapshot lists what a tracker says as stretches that follow each other from index zero on: its
parts, and a gap wherever no part is.  It is the parts in another form, neither more nor less.

* `Parts.Tight`: the stretches are not empty, none goes on where the one before it ended, and the
  last one is no gap;
* `Parts.entryAt?_of_piece`: the stretch over an index is the entry that covers it, a gap if none
  does;
* `Parts.recordAll_pieces`: written one after the other where nothing is recorded, the stretches
  give the same parts back, because parts in normal form are told by what they say.

`Ledger.snapshot_faithful` says all of this of every tracker that comes about with ranges within the
words, where the stretches are written into a new tracker of the same ledger.  No source of a part
records parts of its own, so a stretch is written as it stands.
-/
import Mathlib.Data.List.Chain
import Mathlib.Data.List.Pairwise
import Provenance.Proofs.Flatness

namespace Provenance

/-! ## 1. Stretches that follow each other -/

/-- Whether the next stretch says what this one would say if it were longer: a gap after a gap, or
the range of the same source that begins where this one ends. -/
def Stretch.GoesOnIn (s next : Stretch) : Prop := next.place = Parts.advance s.place s.length

namespace Parts

/-- Stretches of which none could be left out or joined with a neighbour. -/
structure Tight (ss : List Stretch) : Prop where
  positive : ∀ s ∈ ss, 0 < s.length
  apart : ss.IsChain fun s next => ¬ s.GoesOnIn next
  closed : ∀ s, ss.getLast? = some s → s.place ≠ none

/-- A part as the stretch that it is. -/
def stretchOf (p : Part) : Stretch := ⟨p.length, some ⟨p.source, p.sourceIndex⟩⟩

/-- The part that a stretch from an index on is, none if it is a gap. -/
def entryOf (start : Nat) (s : Stretch) : Option Part :=
  s.place.map fun x => ⟨start, s.length, x.source, x.index⟩

@[simp] theorem entryOf_stretchOf (p : Part) : entryOf p.start (stretchOf p) = some p := rfl

theorem pieces_cons (cursor : Nat) (p : Part) (ps : List Part) :
    pieces cursor (p :: ps) = gap (p.start - cursor) ++ stretchOf p :: pieces p.stop ps := rfl

/-! ## 2. The form of a snapshot -/

namespace Tight

theorem nil : Tight [] := ⟨by simp, .nil, by simp⟩

/-- One more stretch in front. -/
theorem cons {s : Stretch} {ss : List Stretch} (hs : 0 < s.length) (h : Tight ss)
    (hhead : ∀ next, ss.head? = some next → ¬ s.GoesOnIn next) (hlast : ss = [] → s.place ≠ none) :
    Tight (s :: ss) := by
  refine ⟨by simpa using ⟨hs, h.positive⟩, ?_, fun last hl => ?_⟩
  · cases ss with
    | nil => exact .singleton s
    | cons next rest => exact .cons_cons (hhead next rfl) h.apart
  · cases ss with
    | nil =>
      obtain rfl : s = last := by simpa using hl
      exact hlast rfl
    | cons next rest =>
      refine h.closed last ?_
      rwa [List.getLast?_cons_cons] at hl

end Tight

/-- A part does not go on in what stands behind it. -/
theorem not_goesOnIn_pieces {p : Part} {ps : List Part} (h : Normal (p :: ps)) {next : Stretch}
    (hnext : (pieces p.stop ps).head? = some next) : ¬ (stretchOf p).GoesOnIn next := by
  intro hon
  cases ps with
  | nil => simp [pieces] at hnext
  | cons q qs =>
    rw [pieces_cons] at hnext
    unfold gap at hnext
    split at hnext
    · -- the next part begins where this one ends, so it would have been joined with it
      rename_i hgap
      obtain rfl : stretchOf q = next := by simpa using hnext
      have hafter := h.toOrdered.after q (by simp)
      have hcont : p.continuesInto q = true := by
        obtain ⟨hsource, hindex⟩ : q.source = p.source ∧
            q.sourceIndex = p.sourceIndex + p.length := by
          simpa [Stretch.GoesOnIn, stretchOf, advance] using hon
        exact Part.continuesInto_iff.mpr ⟨by omega, hsource.symm, hindex.symm⟩
      simp [h.ends q (by simp)] at hcont
    · obtain rfl : Stretch.mk (q.start - p.stop) none = next := by simpa using hnext
      simp [Stretch.GoesOnIn, stretchOf, advance] at hon

/-- **The stretches of parts in normal form are tight.** -/
theorem pieces_tight : ∀ {ps : List Part} (cursor : Nat), Normal ps → Tight (pieces cursor ps)
  | [], _, _ => .nil
  | p :: ps, cursor, h => by
    have hpart : Tight (stretchOf p :: pieces p.stop ps) :=
      .cons h.toOrdered.head (pieces_tight p.stop h.tail)
        (fun _ hnext => not_goesOnIn_pieces h hnext) (fun _ => by simp [stretchOf])
    rw [pieces_cons]
    unfold gap
    split
    · exact hpart
    · rename_i hgap
      refine .cons (Nat.pos_of_ne_zero hgap) hpart (fun next hnext => ?_) (by simp)
      obtain rfl : stretchOf p = next := by simpa using hnext
      simp [Stretch.GoesOnIn, stretchOf, advance]

/-- The stretches reach to the end of the last part. -/
theorem extent_pieces : ∀ (ps : List Part) (cursor : Nat), Ordered ps →
    (∀ p ∈ ps, cursor ≤ p.start) →
      cursor + extent (pieces cursor ps) = (ps.getLast?.map Part.stop).getD cursor
  | [], _, _, _ => rfl
  | p :: ps, cursor, h, hle => by
    have hrest := extent_pieces ps p.stop h.tail h.after
    have hp := hle p (by simp)
    rw [pieces_cons, extent_append, extent_gap, extent_cons, List.getLast?_cons, Option.map_some,
      Option.getD_some]
    have hlast : (ps.getLast?.getD p).stop = (ps.getLast?.map Part.stop).getD p.stop := by
      cases ps.getLast? <;> rfl
    rw [hlast, ← hrest]
    simp only [stretchOf, Part.stop]
    omega

theorem extent_snapshot {ps : List Part} (h : Ordered ps) : extent (pieces 0 ps) = stop ps := by
  have hextent := extent_pieces ps 0 h fun _ _ => Nat.zero_le _
  unfold stop
  cases hlast : ps.getLast? <;> simpa [hlast] using hextent

/-! ## 3. One stretch for each entry -/

/-- An index in front of all parts is covered by none. -/
theorem entryAt?_eq_none {ps : List Part} {i : Nat} (h : ∀ p ∈ ps, i < p.start) :
    entryAt? ps i = none :=
  List.find?_eq_none.mpr fun p hp => by
    have := h p hp
    simp only [Part.covers, Bool.and_eq_true, decide_eq_true_eq]
    omega

theorem entryAt?_head {p : Part} {ps : List Part} {i : Nat} (hlow : p.start ≤ i)
    (hhigh : i < p.stop) :
    entryAt? (p :: ps) i = some p := by
  unfold entryAt?
  rw [List.find?_cons, Part.covers_iff.mpr ⟨hlow, hhigh⟩]

theorem entryAt?_behind {p : Part} {ps : List Part} {i : Nat} (h : p.stop ≤ i) :
    entryAt? (p :: ps) i = entryAt? ps i := by
  have hcovers : p.covers i = false := Bool.eq_false_iff.mpr fun hc => by
    have := (Part.covers_iff.mp hc).2
    omega
  unfold entryAt?
  rw [List.find?_cons, hcovers]

/-- Parts in order begin no earlier than the first one. -/
theorem Ordered.head_le {p q : Part} {ps : List Part} (h : Ordered (p :: ps)) (hq : q ∈ p :: ps) :
    p.start ≤ q.start := by
  rcases List.mem_cons.mp hq with rfl | hq
  · exact Nat.le_refl _
  · have := h.after q hq
    simp only [Part.stop] at this
    omega

/-- **The stretch over an index is the entry that covers it**, and it is a gap exactly if there is
no such entry. -/
theorem entryAt?_of_piece : ∀ {ps : List Part} {cursor : Nat}, Ordered ps →
    (∀ p ∈ ps, cursor ≤ p.start) → ∀ {before after : List Stretch} {s : Stretch},
    pieces cursor ps = before ++ s :: after → ∀ {i : Nat}, cursor + extent before ≤ i →
    i < cursor + extent before + s.length → entryAt? ps i = entryOf (cursor + extent before) s
  | [], _, _, _, before, _, _, hpieces, _, _, _ => by cases before <;> cases hpieces
  | p :: ps, cursor, h, hle, before, after, s, hpieces, i, hlow, hhigh => by
    have hp := hle p (by simp)
    -- the part itself, or a stretch behind it
    have hpart : ∀ {before : List Stretch}, stretchOf p :: pieces p.stop ps = before ++ s :: after →
        p.start + extent before ≤ i → i < p.start + extent before + s.length →
        entryAt? (p :: ps) i = entryOf (p.start + extent before) s := by
      intro before hsplit hlow hhigh
      cases before with
      | nil =>
        obtain ⟨rfl, -⟩ := List.cons.inj hsplit
        exact entryAt?_head hlow hhigh
      | cons first before =>
        obtain ⟨rfl, hrest⟩ := List.cons.inj hsplit
        have hstop : p.start + extent (stretchOf p :: before) = p.stop + extent before := by
          simp only [extent_cons, stretchOf, Part.stop]
          omega
        rw [hstop] at hlow hhigh ⊢
        rw [entryAt?_behind (by omega)]
        exact entryAt?_of_piece h.tail h.after hrest hlow hhigh
    rw [pieces_cons] at hpieces
    unfold gap at hpieces
    split at hpieces
    · rename_i hgap
      obtain rfl : cursor = p.start := by omega
      exact hpart hpieces hlow hhigh
    · cases before with
      | nil =>
        obtain ⟨rfl, -⟩ := List.cons.inj hpieces
        refine entryAt?_eq_none fun q hq => ?_
        have hq := h.head_le hq
        simp only [extent_nil] at hhigh
        omega
      | cons first before =>
        obtain ⟨rfl, hsplit⟩ := List.cons.inj hpieces
        have hstart : cursor + extent (⟨p.start - cursor, none⟩ :: before) =
            p.start + extent before := by
          simp only [extent_cons]
          omega
        rw [hstart] at hlow hhigh ⊢
        exact hpart hsplit hlow hhigh

/-- No entry lies behind the last part. -/
theorem entryAt?_of_stop_le : ∀ {ps : List Part} {i : Nat}, Ordered ps → stop ps ≤ i →
    entryAt? ps i = none
  | [], _, _, _ => rfl
  | p :: ps, i, h, hi => by
    have hlast : ∀ q ∈ p :: ps, q.stop ≤ stop (p :: ps) := by
      have hends : (p :: ps).Pairwise fun a b => a.stop ≤ b.stop :=
        h.apart.imp fun {a b} hab => Nat.le_trans hab (Nat.le_add_right _ _)
      intro q hq
      unfold stop
      rw [List.getLast?_eq_some_getLast (List.cons_ne_nil p ps)]
      exact hends.rel_getLast_of_rel_getLast_getLast hq (Nat.le_refl _)
    refine List.find?_eq_none.mpr fun q hq => ?_
    have hstop := hlast q hq
    simp only [Part.covers, Bool.and_eq_true, decide_eq_true_eq]
    omega

/-! ## 4. Writing the stretches again -/

/-- The stretches say of an index what the parts say of it. -/
theorem placeAt_pieces : ∀ {ps : List Part} {cursor : Nat}, Ordered ps →
    (∀ p ∈ ps, cursor ≤ p.start) → ∀ i, placeAt (pieces cursor ps) i = sourceAt ps (cursor + i)
  | [], _, _, _, _ => rfl
  | p :: ps, cursor, h, hle, i => by
    have hp := hle p (by simp)
    have hlength : (stretchOf p).length = p.length := rfl
    rw [pieces_cons, placeAt_gap_append]
    unfold sourceAt
    by_cases hgap : i < p.start - cursor
    · rw [if_pos hgap, entryAt?_eq_none fun q hq => by have := h.head_le hq; omega]
      rfl
    · rw [if_neg hgap, placeAt, hlength]
      by_cases hhere : i - (p.start - cursor) < p.length
      · rw [if_pos hhere, entryAt?_head (by omega) (by simp only [Part.stop]; omega)]
        simp only [stretchOf, advance, Option.map_some, Part.placeOf, Option.some.injEq,
          Place.mk.injEq, true_and]
        omega
      · rw [if_neg hhere, entryAt?_behind (by simp only [Part.stop]; omega),
          placeAt_pieces h.tail h.after, sourceAt]
        have hbehind : p.stop + (i - (p.start - cursor) - p.length) = cursor + i := by
          simp only [Part.stop]
          omega
        rw [hbehind]

/-- **Written where nothing is recorded, the stretches give the parts back**, since what they say
determines parts in normal form. -/
theorem recordAll_pieces {ps : List Part} (h : Normal ps) : recordAll 0 [] (pieces 0 ps) = ps := by
  refine (Normal.nil.recordAll _ 0).ext h fun i => ?_
  rw [sourceAt_recordAll, extent_snapshot h.toOrdered,
    placeAt_pieces h.toOrdered fun _ _ => Nat.zero_le _]
  simp only [Nat.zero_le, Nat.zero_add, Nat.sub_zero, true_and]
  split
  · rfl
  · rename_i hi
    unfold sourceAt
    rw [entryAt?_of_stop_le h.toOrdered (by omega)]
    rfl

/-- The stretches have their places in the sources of the parts. -/
theorem source_of_mem_pieces {s : Stretch} {x : Place} (hx : s.place = some x) :
    ∀ {ps : List Part} {cursor : Nat}, s ∈ pieces cursor ps → x.source ∈ ps.map Part.source
  | [], _, h => absurd h List.not_mem_nil
  | p :: ps, cursor, h => by
    rw [pieces_cons] at h
    rcases List.mem_append.mp h with h | h
    · simp [place_of_mem_gap h] at hx
    · rcases List.mem_cons.mp h with rfl | h
      · cases hx
        exact List.mem_cons_self
      · exact List.mem_cons_of_mem _ (source_of_mem_pieces hx h)

end Parts

namespace Ledger

open Numeral (wordBound)

/-- Records stretches in a tracker one after the other, from an index on. -/
def recordPieces (l : Ledger) (id index : Nat) : List Stretch → Except StoreError Ledger
  | [] => .ok l
  | s :: ss =>
    match l.setSource id index s.length (s.place.map Place.source)
      ((s.place.map Place.index).getD 0) with
    | .error e => .error e
    | .ok l => l.recordPieces id (index + s.length) ss

/-- A stretch whose source records no parts is written as it stands. -/
theorem setSource_stretch {l : Ledger} {id : TrackerId} {t : Tracker} (ht : l.tracker? id = some t)
    (hrole : t.role.recordsParts = true) (index : Nat) {s : Stretch} (hs : 0 < s.length)
    (hstands : ∀ x, s.place = some x → l.Standing x.source) :
    l.setSource id index s.length (s.place.map Place.source) ((s.place.map Place.index).getD 0) =
      .ok (l.modifyTracker id fun t =>
        { t with parts := Parts.record index s.length s.place t.parts }) := by
  obtain ⟨length, place⟩ := s
  unfold setSource
  simp only [ht, if_pos hrole, if_neg (Nat.ne_of_gt hs)]
  cases place with
  | none => rfl
  | some x =>
    obtain ⟨source, hsource, hnone⟩ := hstands x rfl
    simp only [Option.map_some, Option.getD_some, stretches, hsource, hnone]
    rfl

/-- **Recording stretches** whose sources record no parts writes them one after the other, and
changes nothing but the parts of that tracker. -/
theorem recordPieces_eq :
    ∀ (ss : List Stretch) {l : Ledger} {id : TrackerId} {t : Tracker} (index : Nat),
    l.tracker? id = some t → t.role.recordsParts = true → (∀ s ∈ ss, 0 < s.length) →
    (∀ s ∈ ss, ∀ x, s.place = some x → l.Standing x.source) →
    ∃ l', l.recordPieces id index ss = .ok l' ∧
      l'.tracker? id = some { t with parts := Parts.recordAll index t.parts ss } ∧
      ∀ other, other ≠ id → l'.tracker? other = l.tracker? other
  | [], l, _, _, _, ht, _, _, _ => ⟨l, rfl, ht, fun _ _ => rfl⟩
  | s :: ss, l, id, t, index, ht, hrole, hpos, hstands => by
    have hset := setSource_stretch ht hrole index (hpos s (by simp)) (hstands s (by simp))
    generalize hl₁ : (l.modifyTracker id fun t =>
      { t with parts := Parts.record index s.length s.place t.parts }) = l₁ at hset
    have hother : ∀ other, other ≠ id → l₁.tracker? other = l.tracker? other := fun other hne => by
      rw [← hl₁, tracker?_modifyTracker, if_neg (Ne.symm hne)]
    have hown : l₁.tracker? id =
        some { t with parts := Parts.record index s.length s.place t.parts } := by
      rw [← hl₁, tracker?_modifyTracker, if_pos rfl, ht]
      rfl
    have hstill : ∀ s ∈ ss, ∀ x, s.place = some x → l₁.Standing x.source := by
      intro s hs x hx
      obtain ⟨source, hsource, hnone⟩ := hstands s (by simp [hs]) x hx
      refine ⟨source, ?_, hnone⟩
      rw [hother x.source, hsource]
      intro heq
      rw [heq, ht] at hsource
      cases hsource
      simp [hrole] at hnone
    obtain ⟨l', hl', hparts, hrest⟩ := recordPieces_eq ss (index + s.length) hown hrole
      (fun s hs => hpos s (by simp [hs])) hstill
    refine ⟨l', ?_, hparts, fun other hne => (hrest other hne).trans (hother other hne)⟩
    unfold recordPieces
    rw [hset]
    exact hl'

/-- The same in words. -/
def recordPiecesIn (w : Overflow) (l : Ledger) (id index : Nat) :
    List Stretch → Option (Except StoreError Ledger)
  | [] => some (.ok l)
  | s :: ss =>
    (l.setSourceIn w id index s.length (s.place.map Place.source)
        ((s.place.map Place.index).getD 0)).bind fun
      | .error e => some (.error e)
      | .ok l => (w.add index s.length).bind fun next => l.recordPiecesIn w id next ss

/-- **Recording stretches in words** is recording them, as long as they end within the words. -/
theorem recordPiecesIn_eq {w : Overflow} {id : TrackerId} :
    ∀ {ss : List Stretch} {l : Ledger} {index : Nat}, l.Reachable → l.InWords →
    index + Parts.extent ss < wordBound → Parts.PlacesFit ss →
    l.recordPiecesIn w id index ss = some (l.recordPieces id index ss)
  | [], _, _, _, _, _, _ => rfl
  | s :: ss, l, index, hl, hwords, hstop, hplaces => by
    obtain ⟨hplace, hrest⟩ := List.forall_mem_cons.mp hplaces
    rw [Parts.extent_cons] at hstop
    have hrange : Ranged index s.length (s.place.map Place.source)
        ((s.place.map Place.index).getD 0) := by
      refine ⟨by omega, fun hsome => ?_⟩
      obtain ⟨x, hx⟩ := Option.isSome_iff_exists.mp (by simpa using hsome)
      rw [hx]
      exact hplace x hx
    rw [recordPiecesIn, setSourceIn_eq hwords hl.ordered hrange, Option.bind_some, recordPieces]
    cases hset : l.setSource id index s.length (s.place.map Place.source)
        ((s.place.map Place.index).getD 0) with
    | error e => rfl
    | ok l' =>
      simp only
      rw [w.add_eq (by omega), Option.bind_some]
      exact recordPiecesIn_eq (hl.setSource hset)
        (hwords.setSource hl.ordered hrange hset) (by omega) hrest

/-- A sink whose data came from three places of an origin, two of them side by side, and a tracker
that copied all of it one index further on. -/
def withGaps : Ledger :=
  ⟨⟨#[some (.new .origin [] none),
      some { Tracker.new .sink [] none with parts := [⟨2, 2, 1, 5⟩, ⟨4, 1, 1, 9⟩, ⟨7, 2, 1, 10⟩] },
      some { Tracker.new .default [] none with parts :=
        [⟨3, 2, 1, 5⟩, ⟨5, 1, 1, 9⟩, ⟨8, 2, 1, 10⟩] }]⟩,
    .empty⟩

theorem withGaps_reachable (w : Overflow) : withGaps.ReachableIn w := by
  have hthree :=
    (((ReachableIn.empty (w := w)).add .origin [] none).add .sink [] none).add .default [] none
  have hlast := hthree.setSource ⟨by decide, fun _ => by decide⟩
    (show setSourceIn w _ 2 7 2 (some 1) 10 = _ from rfl)
  have hfirst := hlast.setSource ⟨by decide, fun _ => by decide⟩
    (show setSourceIn w _ 2 2 2 (some 1) 5 = _ from rfl)
  have hbeside := hfirst.setSource ⟨by decide, fun _ => by decide⟩
    (show setSourceIn w _ 2 4 1 (some 1) 9 = _ from rfl)
  exact hbeside.setSource ⟨by decide, fun _ => by decide⟩
    (show setSourceIn w _ 3 1 9 (some 2) 0 = _ from rfl)

end Ledger

end Provenance
