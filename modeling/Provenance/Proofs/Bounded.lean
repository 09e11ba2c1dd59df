/-
# Parts in words are parts

A machine computes with words, and a sum that leaves the words stops the program or wraps around
(`Overflow`).  As long as the ranges of parts and of their sources lie within the words
(`Parts.Fit`), neither happens, and looking up, overwriting and copying in words come to what they
come to on numbers:

* `clearIn_eq`, `recordIn_eq`: forgetting and overwriting a range;
* `windowIn_eq`, `recordAllIn_eq`: copying a range;
* `entryIn_eq`, `endIn_eq`, `piecesIn_eq`: looking at the parts.

Overwriting a range that lies within the words leaves parts of which the same holds (`Fit.record`).

Everything is looked up by where parts begin, so parts in order are taken as those that begin before
an index and those that do not (`Ordered.split`); of the former only the last one counts.
-/
import Provenance.Proofs.PartMap
import Provenance.Store.Words

namespace Provenance

open Numeral (wordBound)

/-! ## 1. Sums -/

namespace Overflow

variable (w : Overflow) {a b : Nat}

theorem word_eq (h : a < wordBound) : w.word a = some a := if_pos h

theorem add_eq (h : a + b < wordBound) : w.add a b = some (a + b) := w.word_eq h

theorem sub_eq (h : b ≤ a) : w.sub a b = some (a - b) := if_pos h

end Overflow

namespace Part

/-- A part and its range in the source end within the words. -/
structure Fits (p : Part) : Prop where
  stop : p.start + p.length < wordBound
  source : p.sourceIndex + p.length < wordBound

theorem Fits.stopIn {p : Part} (h : p.Fits) (w : Overflow) : p.stopIn w = some p.stop :=
  w.add_eq h.stop

theorem Fits.leadsTo {p : Part} (h : p.Fits) (w : Overflow) (q : Part) :
    p.leadsTo w q =
      some (decide (p.source = q.source ∧ p.sourceIndex + p.length = q.sourceIndex)) := by
  unfold Part.leadsTo
  rw [w.add_eq h.source]
  by_cases hsource : p.source = q.source <;> simp [hsource]

/-- A part that continues into one that fits does so together with it. -/
theorem Fits.join {p q : Part} (hq : q.Fits) (h : p.continuesInto q = true) : (p.join q).Fits := by
  obtain ⟨hstop, -, hindex⟩ := continuesInto_iff.mp h
  obtain ⟨hend, hsource⟩ := hq
  simp only [Part.stop] at hstop
  constructor <;> simp only [Part.join] <;> omega

end Part

namespace Parts

/-- All parts and their ranges in the sources end within the words. -/
def Fit (ps : List Part) : Prop := ∀ p ∈ ps, p.Fits

/-! ## 2. Parts before and behind an index -/

theorem Ordered.append {front back : List Part} (h : Ordered (front ++ back)) :
    Ordered front ∧ Ordered back ∧ ∀ p ∈ front, ∀ q ∈ back, p.stop ≤ q.start :=
  ⟨⟨fun p hp => h.positive p (List.mem_append_left _ hp), (List.pairwise_append.mp h.apart).1⟩,
    ⟨fun p hp => h.positive p (List.mem_append_right _ hp), (List.pairwise_append.mp h.apart).2.1⟩,
    (List.pairwise_append.mp h.apart).2.2⟩

theorem Ordered.start_lt_stop {p : Part} {ps : List Part} (h : Ordered ps) (hp : p ∈ ps) :
    p.start < p.stop := Nat.lt_add_of_pos_right (h.positive p hp)

/-- Of parts in order, all but the last one end before it begins. -/
theorem Ordered.eq_nil_or_last {ps : List Part} (h : Ordered ps) :
    ps = [] ∨ ∃ init p, ps = init ++ [p] ∧ p.start < p.stop ∧
      ∀ q ∈ init, q.start < q.stop ∧ q.stop ≤ p.start := by
  obtain rfl | ⟨init, p, rfl⟩ := List.eq_nil_or_concat ps
  · exact .inl rfl
  · rw [List.concat_eq_append] at h ⊢
    obtain ⟨hinit, -, hapart⟩ := h.append
    exact .inr ⟨init, p, rfl, h.start_lt_stop (by simp), fun q hq =>
      ⟨hinit.start_lt_stop hq, hapart q hq p (by simp)⟩⟩

/-- **Parts in order** are some that begin before an index and then some that do not. -/
theorem Ordered.split (index : Nat) : ∀ {ps : List Part}, Ordered ps →
    ∃ front back, ps = front ++ back ∧ (∀ p ∈ front, p.start < index) ∧
      ∀ p ∈ back, index ≤ p.start
  | [], _ => ⟨[], [], rfl, by simp, by simp⟩
  | p :: ps, h => by
    by_cases hp : p.start < index
    · obtain ⟨front, back, rfl, hfront, hback⟩ := Ordered.split index h.tail
      exact ⟨p :: front, back, rfl, List.forall_mem_cons.mpr ⟨hp, hfront⟩, hback⟩
    · refine ⟨[], p :: ps, rfl, by simp, List.forall_mem_cons.mpr ⟨by omega, fun q hq => ?_⟩⟩
      have hafter := h.after q hq
      simp only [Part.stop] at hafter
      omega

section Places

variable {index stop : Nat} {q p : Part} {front back : List Part}

theorem filter_before (hfront : ∀ p ∈ front, p.start < index)
    (hback : ∀ p ∈ back, index ≤ p.start) :
    (front ++ back).filter (fun p => p.start < index) = front := by
  rw [List.filter_append, List.filter_eq_self.mpr (by simpa using hfront),
    List.filter_eq_nil_iff.mpr (by simpa using hback), List.append_nil]

theorem lastBefore?_append (hfront : ∀ p ∈ front, p.start < index)
    (hback : ∀ p ∈ back, index ≤ p.start) : lastBefore? index (front ++ back) = front.getLast? :=
  congrArg List.getLast? (filter_before hfront hback)

theorem put_append (hfront : ∀ p ∈ front, p.start < q.start)
    (hback : ∀ p ∈ back, q.start < p.start) :
    put q (front ++ back) = front ++ q :: back := by
  induction front with
  | nil =>
    cases back with
    | nil => rfl
    | cons p back =>
      have hp := hback p (by simp)
      simp only [List.nil_append, put, if_neg (Nat.lt_asymm hp), if_neg (Nat.ne_of_gt hp)]
  | cons p front ih =>
    simp only [List.cons_append, put, if_pos (hfront p (by simp)),
      ih fun r hr => hfront r (by simp [hr])]

/-- A part in the place of one that begins where it does. -/
theorem put_replace (hfront : ∀ p ∈ front, p.start < q.start) (hp : p.start = q.start) :
    put q (front ++ p :: back) = front ++ q :: back := by
  induction front with
  | nil => simp [put, hp]
  | cons r front ih =>
    simp only [List.cons_append, put, if_pos (hfront r (by simp)),
      ih fun r hr => hfront r (by simp [hr])]

theorem filter_ne_start (hfront : ∀ r ∈ front, r.start ≠ p.start)
    (hback : ∀ r ∈ back, r.start ≠ p.start) :
    (front ++ p :: back).filter (fun r => r.start ≠ p.start) = front ++ back := by
  rw [List.filter_append, List.filter_cons_of_neg (by simp),
    List.filter_eq_self.mpr (by simpa using hfront), List.filter_eq_self.mpr (by simpa using hback)]

end Places

/-! ## 3. Forgetting a range -/

section Clearing

variable {w : Overflow} {index stop : Nat} {p : Part} {ps front back : List Part}

theorem clear_append (ps qs : List Part) :
    clear index stop (ps ++ qs) = clear index stop ps ++ clear index stop qs :=
  List.flatMap_append

theorem clear_cons (p : Part) (ps : List Part) :
    clear index stop (p :: ps) = p.before index ++ p.from stop ++ clear index stop ps := rfl

/-- Parts that lie before or behind a range stay. -/
theorem clear_of_apart (hle : index ≤ stop) : ∀ {ps : List Part},
    (∀ p ∈ ps, p.start < p.stop ∧ (p.stop ≤ index ∨ stop ≤ p.start)) → clear index stop ps = ps
  | [], _ => rfl
  | p :: ps, h => by
    obtain ⟨hpos, hapart⟩ := h p (by simp)
    rw [clear_cons, clear_of_apart hle fun q hq => h q (by simp [hq]), Part.before, Part.from]
    rcases hapart with hbefore | hbehind
    · rw [if_neg (by omega), if_pos hbefore, if_pos (by omega)]
      rfl
    · rw [if_pos (by omega), if_neg (by omega), if_pos hbehind]
      rfl

/-- What is left of parts fits. -/
theorem Fit.clear (h : Fit ps) : Fit (clear index stop ps) := by
  intro q hq
  obtain ⟨p, hp, hq⟩ := List.mem_flatMap.mp hq
  obtain ⟨hend, hsource⟩ := h p hp
  unfold Part.before Part.from at hq
  rcases List.mem_append.mp hq with hq | hq <;> (repeat' split at hq) <;>
    simp only [List.mem_singleton, List.not_mem_nil] at hq <;> subst hq <;> constructor <;>
    simp only [Part.stop] at * <;> omega

/-- Parts of which those in front are cut stay in order. -/
theorem Ordered.clear_front (hle : index ≤ stop) (h : Ordered (front ++ back)) :
    Ordered (Parts.clear index stop front ++ back) := by
  obtain ⟨hfront, hback, hapart⟩ := h.append
  have hcut := hfront.clear hle
  refine ⟨fun p hp => ?_, List.pairwise_append.mpr ⟨hcut.apart, hback.apart, fun p hp q hq => ?_⟩⟩
  · rcases List.mem_append.mp hp with hp | hp
    · exact hcut.positive p hp
    · exact hback.positive p hp
  · obtain ⟨whole, hwhole, hp⟩ := List.mem_flatMap.mp hp
    exact Nat.le_trans (mem_pieces hp).2.1 (hapart whole hwhole q hq)

/-- A part that ends by an index leaves nothing there. -/
theorem keepTail_of_le (hfits : p.Fits) (h : p.stop ≤ stop) : keepTail w stop p ps = some ps := by
  unfold keepTail
  rw [hfits.stopIn, Option.bind_some, if_pos h]

/-- What a part that reaches over an index leaves from there on. -/
theorem keepTail_of_lt (hfits : p.Fits) (hstart : p.start ≤ stop) (h : stop < p.stop) :
    keepTail w stop p ps =
      some (put ⟨stop, p.stop - stop, p.source, p.sourceIndex + (stop - p.start)⟩ ps) := by
  have hsource := hfits.source
  simp only [Part.stop] at h
  unfold keepTail
  rw [hfits.stopIn, Option.bind_some, if_neg (by simp only [Part.stop]; omega),
    w.add_eq (by omega), Option.map_some]

/-- **The part that reaches into a range** leaves what it says before and behind it. -/
theorem cutBefore_eq (hle : index ≤ stop) (hfront : ∀ p ∈ front, p.start < index)
    (hback : ∀ p ∈ back, index ≤ p.start) (hordered : Ordered (front ++ back)) (hfits : Fit front) :
    cutBefore w index stop (front ++ back) = some (clear index stop front ++ back) := by
  obtain ⟨hordfront, -, hapart⟩ := hordered.append
  unfold cutBefore
  rw [lastBefore?_append hfront hback]
  -- of the parts before the range only the last one can reach into it
  obtain rfl | ⟨init, p, rfl, -, hbefore⟩ := hordfront.eq_nil_or_last
  · rfl
  have hp : p.start < index := hfront p (by simp)
  have hkeep : clear index stop init = init := clear_of_apart hle fun q hq => by
    have := hbefore q hq
    omega
  have hput : ∀ rest, put { p with length := index - p.start } (init ++ p :: rest) =
      init ++ { p with length := index - p.start } :: rest := fun rest =>
    put_replace (q := { p with length := index - p.start })
      (fun q hq => by have := hbefore q hq; simp only; omega) rfl
  have hfitp : p.Fits := hfits p (by simp)
  rw [List.getLast?_concat, clear_append, hkeep, List.append_assoc, List.append_assoc,
    List.singleton_append]
  simp only [hfitp.stopIn, Option.bind_some, clear, List.flatMap_singleton, Part.before, Part.from]
  by_cases hstop : p.stop ≤ index
  · rw [if_pos hstop, if_neg (by omega), if_pos hstop, if_pos (by omega)]
    rfl
  · rw [if_neg hstop, if_neg (by omega), if_neg hstop]
    by_cases hover : p.stop ≤ stop
    · rw [keepTail_of_le hfitp hover, Option.map_some, hput, if_pos hover]
      rfl
    · have htail : ∀ q : Part, q.start = stop →
          put q (init ++ p :: back) = init ++ p :: q :: back := by
        intro q hq
        have hput : put q ((init ++ [p]) ++ back) = (init ++ [p]) ++ q :: back :=
          put_append (fun r hr => by have := hfront r hr; omega) fun r hr => by
            have := hapart p (by simp) r hr
            omega
        simpa using hput
      rw [keepTail_of_lt hfitp (by omega) (by omega), htail _ rfl, Option.map_some, hput,
        if_neg hover, if_neg (by omega)]
      rfl

/-- **Parts that begin in a range** leave there what they say from its end on. -/
theorem keepTails_eq (hle : index ≤ stop) : ∀ {mid : List Part},
    (∀ p ∈ front, p.start < index) → (∀ p ∈ mid, index ≤ p.start ∧ p.start < stop) →
    (∀ p ∈ back, stop ≤ p.start) → Ordered (mid ++ back) → Fit mid →
    keepTails w stop mid (front ++ (mid ++ back)) = some (front ++ clear index stop (mid ++ back))
  | [], _, _, hback, hordered, _ => by
    have hbehind : Ordered back := hordered
    rw [List.nil_append,
      clear_of_apart hle fun p hp => ⟨hbehind.start_lt_stop hp, .inr (hback p hp)⟩]
    rfl
  | p :: mid, hfront, hmid, hback, hordered, hfits => by
    obtain ⟨hlow, hhigh⟩ := hmid p (by simp)
    have hafter : ∀ q ∈ mid ++ back, p.stop ≤ q.start := hordered.after
    have hpos : p.start < p.stop := hordered.start_lt_stop (by simp)
    rw [keepTails, List.cons_append, filter_ne_start (fun q hq => by have := hfront q hq; omega)
      (fun q hq => by have := hafter q hq; omega), clear_cons, Part.before, if_pos hlow,
      List.nil_append, Part.from]
    by_cases hstop : p.stop ≤ stop
    · rw [keepTail_of_le (hfits p (by simp)) hstop, Option.bind_some, if_pos hstop,
        keepTails_eq hle hfront (fun q hq => hmid q (by simp [hq])) hback hordered.tail
          fun q hq => hfits q (by simp [hq]), List.nil_append]
    · -- it reaches over the end of the range, so no other part begins in it
      obtain rfl : mid = [] := List.eq_nil_iff_forall_not_mem.mpr fun q hq => by
        have := hafter q (by simp [hq])
        have := (hmid q (by simp [hq])).2
        omega
      rw [keepTail_of_lt (hfits p (by simp)) (by omega) (by omega), Option.bind_some,
        if_neg hstop, if_neg (by omega), List.nil_append,
        put_append (fun q hq => by have := hfront q hq; simp only; omega)
          (fun q hq => by have := hafter q (by simpa using hq); simp only; omega),
        clear_of_apart hle fun q hq =>
          ⟨hordered.tail.start_lt_stop (by simpa using hq), .inr (hback q hq)⟩]
      rfl

/-- The parts that begin in a range lie between those before it and those behind it. -/
theorem beginningIn_eq (hle : index ≤ stop) {mid : List Part}
    (hfront : ∀ p ∈ front, p.start < index) (hmid : ∀ p ∈ mid, index ≤ p.start ∧ p.start < stop)
    (hback : ∀ p ∈ back, stop ≤ p.start) :
    beginningIn index stop (front ++ (mid ++ back)) = some mid := by
  unfold beginningIn
  rw [if_neg (by simp only [Bool.and_eq_true, decide_eq_true_eq]; omega), List.filter_append,
    List.filter_append, List.filter_eq_nil_iff.mpr, List.filter_eq_self.mpr,
    List.filter_eq_nil_iff.mpr, List.nil_append, List.append_nil]
  all_goals
    intro p hp
    simp only [Bool.and_eq_true, decide_eq_true_eq]
  · have := hback p hp
    omega
  · exact hmid p hp
  · have := hfront p hp
    omega

/-- **Forgetting a range in words.** -/
theorem clearIn_eq (hle : index ≤ stop) (hordered : Ordered ps) (hfits : Fit ps) :
    clearIn w index stop ps = some (clear index stop ps) := by
  obtain ⟨front, back, rfl, hfront, hback⟩ := hordered.split index
  have hcut : Ordered (clear index stop front ++ back) := hordered.clear_front hle
  have hfit : Fit (clear index stop front ++ back) := fun p hp => by
    rcases List.mem_append.mp hp with hp | hp
    · exact Fit.clear (fun p hp => hfits p (by simp [hp])) p hp
    · exact hfits p (by simp [hp])
  have hagain : clear index stop (clear index stop front) = clear index stop front :=
    clear_of_apart hle fun p hp =>
      ⟨hcut.start_lt_stop (by simp [hp]), Ordered.apart_of_mem_clear hp⟩
  unfold clearIn
  rw [cutBefore_eq hle hfront hback hordered fun p hp => hfits p (by simp [hp]), Option.bind_some,
    clear_append, ← hagain, ← clear_append, hagain]
  -- what was cut lies before or behind the range, so the parts that begin in it are whole
  generalize hcuts : clear index stop front ++ back = cuts at hcut hfit
  have hwhole : ∀ p ∈ cuts, p.start < index → p.stop ≤ index := fun p hp hstart => by
    rw [← hcuts] at hp
    rcases List.mem_append.mp hp with hp | hp
    · rcases Ordered.apart_of_mem_clear hp with h | h
      · exact h
      · omega
    · have := hback p hp
      omega
  obtain ⟨before, behind, rfl, hbefore, hbehind⟩ := hcut.split index
  obtain ⟨-, hordbehind, -⟩ := hcut.append
  obtain ⟨mid, rest, rfl, hmid, hrest⟩ := hordbehind.split stop
  have hinside : ∀ p ∈ mid, index ≤ p.start ∧ p.start < stop := fun p hp =>
    ⟨hbehind p (by simp [hp]), hmid p hp⟩
  rw [beginningIn_eq hle hbefore hinside hrest, Option.bind_some,
    keepTails_eq hle hbefore hinside hrest hordbehind fun p hp => hfit p (by simp [hp]),
    clear_append before, clear_of_apart hle fun p hp =>
      ⟨hcut.start_lt_stop (by simp [hp]), .inl (hwhole p (by simp [hp]) (hbefore p hp))⟩]

end Clearing

/-! ## 4. Overwriting a range -/

section Recording

variable {w : Overflow} {index length : Nat} {p q : Part} {ps init front back : List Part}

/-- Putting a part among others passes those that end before it begins. -/
theorem insert_append : ∀ {front : List Part}, (∀ p ∈ front, p.start < q.start ∧ p.stop ≠ q.start) →
    insert q (front ++ back) = front ++ insert q back
  | [], _ => rfl
  | p :: front, h => by
    obtain ⟨hstart, hstop⟩ := h p (by simp)
    have hapart : ¬ p.continuesInto q = true := fun hcont =>
      hstop (Part.continuesInto_iff.mp hcont).1
    rw [List.cons_append, insert, if_pos hstart, if_neg hapart,
      insert_append fun r hr => h r (by simp [hr])]
    rfl

theorem insert_eq_prepend (hback : ∀ p ∈ back, q.start ≤ p.start) :
    insert q back = prepend q back := by
  cases back with
  | nil => rfl
  | cons p back => rw [insert, if_neg (Nat.not_lt.mpr (hback p (by simp)))]

/-- What a part is joined with. -/
theorem joinBefore_eq (hfront : ∀ p ∈ front, p.start < q.start)
    (hback : ∀ p ∈ back, q.start ≤ p.start) (hq : q.Fits) (hfits : Fit front) :
    joinBefore w q (front ++ back) = some (match front.getLast? with
      | none => q
      | some p => if p.continuesInto q then p.join q else q) := by
  unfold joinBefore
  rw [lastBefore?_append hfront hback]
  cases hlast : front.getLast? with
  | none => rfl
  | some p =>
    have hp : p.Fits := hfits p (List.mem_of_getLast? hlast)
    have hend := hq.stop
    simp only [hp.stopIn, Option.bind_some, hp.leadsTo]
    by_cases hstop : p.stop = q.start
    · rw [if_pos hstop]
      by_cases hleads : p.source = q.source ∧ p.sourceIndex + p.length = q.sourceIndex
      · rw [if_pos (decide_eq_true hleads), if_pos (Part.continuesInto_iff.mpr ⟨hstop, hleads⟩),
          w.add_eq (by simp only [Part.stop] at hstop; omega)]
        rfl
      · rw [if_neg (by simpa using hleads), if_neg fun hcont =>
          hleads (Part.continuesInto_iff.mp hcont).2]
    · rw [if_neg hstop, if_neg fun hcont => hstop (Part.continuesInto_iff.mp hcont).1]

/-- **A part is put in front of those behind it**, joined with the one it continues into. -/
theorem joinAfter_eq (hq : q.Fits) (hfront : ∀ p ∈ front, p.start < q.stop)
    (hback : ∀ p ∈ back, q.stop ≤ p.start) (hordered : Ordered back) (hfits : Fit back)
    (hput : ∀ r rest, r.start = q.start → (∀ p ∈ rest, q.stop ≤ p.start) →
      put r (front ++ rest) = init ++ r :: rest) :
    joinAfter w q.stop q (front ++ back) = some (init ++ prepend q back) := by
  have hnone : front.find? (fun p => p.start = q.stop) = none :=
    List.find?_eq_none.mpr fun p hp => by simpa using Nat.ne_of_lt (hfront p hp)
  unfold joinAfter
  rw [List.find?_append, hnone, Option.none_or]
  cases back with
  | nil =>
    rw [List.find?_nil, hput q [] rfl (by simp)]
    rfl
  | cons n back =>
    have hafter : ∀ r ∈ back, n.start < r.start := fun r hr => by
      have := hordered.after r hr
      have := hordered.start_lt_stop (List.mem_cons_self ..)
      omega
    have hn := hback n (by simp)
    by_cases hstart : n.start = q.stop
    · rw [List.find?_cons_of_pos (by simpa using hstart)]
      simp only [hq.leadsTo, Option.bind_some]
      by_cases hleads : q.source = n.source ∧ q.sourceIndex + q.length = n.sourceIndex
      · have hend := (hfits n (by simp)).stop
        have hfilter : (front ++ n :: back).filter (fun p => p.start ≠ q.stop) = front ++ back := by
          rw [← hstart]
          exact filter_ne_start (fun r hr => by have := hfront r hr; omega) fun r hr =>
            Nat.ne_of_gt (hafter r hr)
        rw [if_pos (decide_eq_true hleads), prepend,
          if_pos (Part.continuesInto_iff.mpr ⟨hstart.symm, hleads⟩),
          w.add_eq (by simp only [Part.stop] at hstart; omega), Option.map_some, hfilter]
        exact congrArg some (hput (q.join n) back rfl fun r hr => hback r (by simp [hr]))
      · rw [if_neg (by simpa using hleads), hput q _ rfl hback, prepend,
          if_neg fun hcont => hleads (Part.continuesInto_iff.mp hcont).2]
    · have hrest : (n :: back).find? (fun p => p.start = q.stop) = none :=
        List.find?_eq_none.mpr <| List.forall_mem_cons.mpr ⟨by simpa using hstart, fun r hr => by
          have := hafter r hr
          simp only [decide_eq_true_eq]
          omega⟩
      rw [hrest, prepend, if_neg fun hcont => hstart (Part.continuesInto_iff.mp hcont).1.symm]
      simp only [hput q _ rfl hback]

/-- **Putting a part where no other lies**, in words. -/
theorem join_eq (hq : q.Fits) (hpos : 0 < q.length) (hordered : Ordered ps) (hfits : Fit ps)
    (hapart : ∀ p ∈ ps, p.stop ≤ q.start ∨ q.stop ≤ p.start) :
    (joinBefore w q ps).bind (fun r => joinAfter w q.stop r ps) = some (insert q ps) := by
  obtain ⟨front, back, rfl, hfront, hback⟩ := hordered.split q.start
  obtain ⟨hordfront, hordback, -⟩ := hordered.append
  have hqstop : q.start < q.stop := Nat.lt_add_of_pos_right hpos
  have hbefore : ∀ p ∈ front, p.start < q.start ∧ p.stop ≤ q.start := fun p hp => by
    have hstart := hfront p hp
    rcases hapart p (by simp [hp]) with h | h
    · exact ⟨hstart, h⟩
    · omega
  have hbehind : ∀ p ∈ back, q.stop ≤ p.start := fun p hp => by
    have hstart := hback p hp
    have hstop := hordback.start_lt_stop hp
    rcases hapart p (by simp [hp]) with h | h
    · omega
    · exact h
  have hfitback : Fit back := fun p hp => hfits p (by simp [hp])
  -- a part that is not joined with the one before it is put behind it
  have hplain : joinAfter w q.stop q (front ++ back) = some (front ++ prepend q back) := by
    refine joinAfter_eq hq (fun p hp => by have := hfront p hp; omega) hbehind hordback hfitback ?_
    intro r rest hr hrest
    refine put_append (fun p hp => ?_) fun p hp => ?_
    · have := hfront p hp
      omega
    · have := hrest p hp
      omega
  rw [joinBefore_eq hfront hback hq fun p hp => hfits p (by simp [hp]), Option.bind_some]
  obtain rfl | ⟨init, p, rfl, hppos, hinit⟩ := hordfront.eq_nil_or_last
  · rw [insert_append (by simp), insert_eq_prepend hback]
    exact hplain
  have hearlier : ∀ r ∈ init, r.start < p.start ∧ r.stop ≤ p.start := fun r hr =>
    ⟨Nat.lt_of_lt_of_le (hinit r hr).1 (hinit r hr).2, (hinit r hr).2⟩
  have hp := hbefore p (by simp)
  rw [List.getLast?_concat]
  simp only
  by_cases hcont : p.continuesInto q = true
  · have hjoin : (p.join q).stop = q.stop := by
      have := (Part.continuesInto_iff.mp hcont).1
      simp only [Part.stop, Part.join] at this ⊢
      omega
    have hinsert : insert q (init ++ [p] ++ back) = init ++ prepend (p.join q) back := by
      rw [List.append_assoc, insert_append fun r hr => by have := hearlier r hr; omega,
        List.singleton_append, insert, if_pos hp.1, if_pos hcont]
    rw [if_pos hcont, hinsert, ← hjoin]
    refine joinAfter_eq (hq.join hcont) (fun r hr => by have := hfront r hr; omega)
      (fun r hr => by rw [hjoin]; exact hbehind r hr) hordback hfitback fun r rest hr _ => ?_
    rw [List.append_assoc, List.singleton_append]
    have hstart : r.start = p.start := hr
    exact put_replace (fun r' hr' => by have := hearlier r' hr'; omega) hstart.symm
  · have hinsert : insert q (init ++ [p] ++ back) = init ++ [p] ++ prepend q back := by
      rw [List.append_assoc, insert_append fun r hr => by have := hearlier r hr; omega,
        List.singleton_append, insert, if_pos hp.1, if_neg hcont, insert_eq_prepend hback,
        List.append_assoc, List.singleton_append]
    rw [if_neg hcont, hinsert]
    exact hplain

theorem Fit.prepend (hq : q.Fits) (h : Fit ps) : Fit (prepend q ps) := by
  cases ps with
  | nil => exact List.forall_mem_singleton.mpr hq
  | cons p ps =>
    obtain ⟨hp, hps⟩ := List.forall_mem_cons.mp h
    rw [Parts.prepend]
    split
    · rename_i hcont
      exact List.forall_mem_cons.mpr ⟨hp.join hcont, hps⟩
    · exact List.forall_mem_cons.mpr ⟨hq, h⟩

theorem Fit.insert (hq : q.Fits) : ∀ {ps : List Part}, Fit ps → Fit (insert q ps)
  | [], _ => List.forall_mem_singleton.mpr hq
  | p :: ps, h => by
    obtain ⟨hp, hps⟩ := List.forall_mem_cons.mp h
    rw [Parts.insert]
    split
    · split
      · rename_i hcont
        exact Fit.prepend (hq.join hcont) hps
      · exact List.forall_mem_cons.mpr ⟨hp, Fit.insert hq hps⟩
    · exact Fit.prepend hq h

/-- A range of a place that ends within the words. -/
def PlaceFits (length : Nat) (place : Option Place) : Prop :=
  ∀ x, place = some x → x.index + length < wordBound

/-- Overwriting a range within the words. -/
theorem Fit.record (h : Fit ps) (hstop : index + length < wordBound) {place : Option Place}
    (hplace : PlaceFits length place) : Fit (record index length place ps) := by
  unfold Parts.record
  split
  · exact h
  · cases place with
    | none => exact h.clear
    | some x => exact Fit.insert ⟨hstop, hplace x rfl⟩ h.clear

/-- **Overwriting a range in words.** -/
theorem recordIn_eq (hordered : Ordered ps) (hfits : Fit ps) (hstop : index + length < wordBound)
    {place : Option Place} (hplace : PlaceFits length place) :
    recordIn w index length place ps = some (record index length place ps) := by
  unfold recordIn record
  split
  · rfl
  · rename_i hlength
    have hle : index ≤ index + length := Nat.le_add_right ..
    rw [w.add_eq hstop, Option.bind_some, clearIn_eq hle hordered hfits, Option.bind_some]
    cases place with
    | none => rfl
    | some x =>
      exact join_eq (q := ⟨index, length, x.source, x.index⟩) ⟨hstop, hplace x rfl⟩
        (by simp only; omega) (hordered.clear hle) hfits.clear
        fun p hp => Ordered.apart_of_mem_clear hp

end Recording

/-! ## 5. Copying a range -/

/-- Stretches laid out from an offset on, one after the other. -/
def laid : Nat → List Stretch → List Segment
  | _, [] => []
  | offset, s :: ss => ⟨offset, s.length, s.place⟩ :: laid (offset + s.length) ss

/-- The places that stretches name end within the words. -/
def PlacesFit (ss : List Stretch) : Prop := ∀ s ∈ ss, PlaceFits s.length s.place

section Copying

variable {w : Overflow} {start cursor stop : Nat} {ps front back : List Part}

theorem laid_append : ∀ (ss ts : List Stretch) (offset : Nat),
    laid offset (ss ++ ts) = laid offset ss ++ laid (offset + extent ss) ts
  | [], _, _ => rfl
  | s :: ss, ts, offset => by
    simp only [List.cons_append, laid, laid_append ss, extent_cons, Nat.add_assoc]

theorem gapIn_eq (h : start ≤ cursor) :
    gapIn w start cursor stop = some (laid (cursor - start) (gap (stop - cursor))) := by
  unfold gapIn gap
  by_cases hlt : cursor < stop
  · rw [if_pos hlt, w.sub_eq h, if_neg (by omega)]
    rfl
  · rw [if_neg hlt, if_pos (by omega)]
    rfl

/-- Parts that end in front of a range are no part of it. -/
theorem window_append : ∀ {front : List Part}, (∀ p ∈ front, p.stop ≤ cursor) →
    window cursor stop (front ++ ps) = window cursor stop ps
  | [], _ => rfl
  | p :: front, h => by
    rw [List.cons_append, window, if_pos (h p (by simp)),
      window_append fun q hq => h q (by simp [hq])]

/-- Neither are parts that begin behind it. -/
theorem window_behind (hle : cursor ≤ stop) (h : ∀ p ∈ ps, stop ≤ p.start ∧ p.start < p.stop) :
    window cursor stop ps = gap (stop - cursor) := by
  cases ps with
  | nil => rfl
  | cons p ps =>
    obtain ⟨hstart, hpos⟩ := h p (by simp)
    rw [window, if_neg (by omega), if_pos hstart]

/-- **What a range is made of**, part by part. -/
theorem segments_eq (hback : ∀ p ∈ back, stop ≤ p.start) : ∀ {mid : List Part} {cursor : Nat},
    start ≤ cursor → cursor ≤ stop → (∀ p ∈ mid, cursor < p.stop ∧ p.start < stop) →
    Ordered (mid ++ back) → Fit mid →
    segments w start stop cursor mid =
      some (laid (cursor - start) (window cursor stop (mid ++ back)))
  | [], cursor, hstart, hle, _, hordered, _ => by
    rw [List.nil_append, window_behind hle fun p hp => ⟨hback p hp, hordered.start_lt_stop hp⟩]
    exact gapIn_eq hstart
  | p :: mid, cursor, hstart, hle, hmid, hordered, hfits => by
    obtain ⟨hover, hbegin⟩ := hmid p (by simp)
    obtain ⟨hend, hsource⟩ := hfits p (by simp)
    have hpos : p.start < p.stop := hordered.start_lt_stop (by simp)
    have hrest : ∀ q ∈ mid, min p.stop stop < q.stop ∧ q.start < stop := fun q hq => by
      have := hordered.after q (by simp [hq])
      have := hordered.start_lt_stop (p := q) (by simp [hq])
      exact ⟨by omega, (hmid q (by simp [hq])).2⟩
    have hindex : p.sourceIndex + (max p.start cursor - p.start) < wordBound := by
      simp only [Part.stop] at hover
      omega
    have hfirst : cursor - start + (max p.start cursor - cursor) = max p.start cursor - start := by
      omega
    have hnext : max p.start cursor - start + (min p.stop stop - max p.start cursor) =
        min p.stop stop - start := by omega
    rw [segments, (hfits p (by simp)).stopIn, Option.bind_some, gapIn_eq hstart, Option.bind_some,
      w.sub_eq (by omega), Option.bind_some, w.sub_eq (by omega), Option.bind_some, w.add_eq hindex,
      Option.bind_some, segments_eq hback (by omega) (by omega) hrest hordered.tail
        fun q hq => hfits q (by simp [hq]), Option.map_some, List.cons_append, window,
      if_neg (by omega), if_neg (by omega), laid_append, extent_gap, laid, hfirst]
    simp only [hnext]
    rfl

/-- **What a range is made of**, in words. -/
theorem windowIn_eq {length : Nat} (hordered : Ordered ps) (hfits : Fit ps)
    (hstop : start + length < wordBound) :
    windowIn w start length ps = some (laid 0 (window start (start + length) ps)) := by
  obtain ⟨front, behind, rfl, hfront, hbehind⟩ := hordered.split start
  obtain ⟨hordfront, hordbehind, -⟩ := hordered.append
  obtain ⟨mid, back, rfl, hmid, hback⟩ := hordbehind.split (start + length)
  have hle : start ≤ start + length := Nat.le_add_right ..
  have hinside : ∀ p ∈ mid, start < p.stop ∧ p.start < start + length := fun p hp => by
    have := hbehind p (by simp [hp])
    have := hordbehind.start_lt_stop (p := p) (by simp [hp])
    exact ⟨by omega, hmid p hp⟩
  have hfitmid : Fit mid := fun p hp => hfits p (by simp [hp])
  unfold windowIn reachingOver
  rw [w.add_eq hstop, Option.bind_some, lastBefore?_append hfront hbehind, beginningIn_eq hle hfront
    (fun p hp => ⟨hbehind p (by simp [hp]), hmid p hp⟩) hback]
  obtain rfl | ⟨init, p, rfl, hpos, hinit⟩ := hordfront.eq_nil_or_last
  · simpa using segments_eq hback (Nat.le_refl start) hle hinside hordbehind hfitmid
  have hp : p.Fits := hfits p (by simp)
  have hpstart := hfront p (by simp)
  rw [List.getLast?_concat, List.append_assoc,
    window_append fun q hq => by have := hinit q hq; omega, List.singleton_append]
  simp only [hp.stopIn, Option.map_some, Option.bind_some]
  by_cases hover : start < p.stop
  · rw [if_pos hover, List.singleton_append, ← List.cons_append]
    have hordreach : Ordered (p :: mid ++ back) := by
      rw [List.append_assoc] at hordered
      exact hordered.append.2.1
    simpa using segments_eq hback (Nat.le_refl start) hle
      (List.forall_mem_cons.mpr ⟨⟨hover, by omega⟩, hinside⟩) hordreach
      (List.forall_mem_cons.mpr ⟨hp, hfitmid⟩)
  · rw [if_neg hover, List.nil_append, window, if_pos (by omega)]
    simpa using segments_eq hback (Nat.le_refl start) hle hinside hordbehind hfitmid

theorem placesFit_gap (length : Nat) : PlacesFit (gap length) := by
  unfold gap
  split
  · exact List.forall_mem_nil _
  · exact List.forall_mem_singleton.mpr fun x hx => absurd hx (by simp)

/-- The places that a range is made of end within the words. -/
theorem Fit.window : ∀ {ps : List Part} {cursor : Nat}, Fit ps → PlacesFit (window cursor stop ps)
  | [], _, _ => placesFit_gap _
  | p :: ps, cursor, h => by
    obtain ⟨hp, hps⟩ := List.forall_mem_cons.mp h
    rw [Parts.window]
    split
    · exact Fit.window hps
    · split
      · exact placesFit_gap _
      · rename_i hover hbegin
        refine List.forall_mem_append.mpr
          ⟨placesFit_gap _, List.forall_mem_cons.mpr ⟨?_, Fit.window hps⟩⟩
        intro x hx
        obtain rfl := Option.some.inj hx
        have hsource := hp.source
        simp only [Part.placeOf, Part.stop] at hover ⊢
        omega

/-- Overwriting a range within the words with stretches, one after the other. -/
theorem Fit.recordAll : ∀ {ss : List Stretch} {ps : List Part} {index : Nat}, Fit ps →
    index + extent ss < wordBound → PlacesFit ss → Fit (recordAll index ps ss)
  | [], _, _, h, _, _ => h
  | s :: ss, ps, index, h, hstop, hplaces => by
    obtain ⟨hplace, hrest⟩ := List.forall_mem_cons.mp hplaces
    rw [extent_cons] at hstop
    have hhere : Fit (Parts.record index s.length s.place ps) := h.record (by omega) hplace
    rw [Parts.recordAll]
    exact Fit.recordAll hhere (by omega) hrest

/-- **Overwriting a range with stretches, one after the other**, in words. -/
theorem recordAllIn_eq {index : Nat} : ∀ {ss : List Stretch} {ps : List Part} {offset : Nat},
    Ordered ps → Fit ps → index + offset + extent ss < wordBound → PlacesFit ss →
    recordAllIn w index ps (laid offset ss) = some (recordAll (index + offset) ps ss)
  | [], _, _, _, _, _, _ => rfl
  | s :: ss, ps, offset, hordered, hfits, hstop, hplaces => by
    obtain ⟨hplace, hrest⟩ := List.forall_mem_cons.mp hplaces
    rw [extent_cons] at hstop
    have hhere : index + offset + s.length < wordBound := by omega
    rw [laid, recordAllIn, w.add_eq (by simp only; omega), Option.bind_some,
      recordIn_eq hordered hfits hhere hplace, Option.bind_some, recordAll, Nat.add_assoc index]
    exact recordAllIn_eq (hordered.record ..) (hfits.record hhere hplace) (by omega) hrest

end Copying

/-! ## 6. Looking at parts -/

section Looking

variable {w : Overflow} {ps : List Part}

/-- **Looking up an index**, in words. -/
theorem entryIn_eq (hordered : Ordered ps) (hfits : Fit ps) (i : Nat) :
    entryIn w ps i = some (entryAt? ps i) := by
  obtain ⟨front, back, rfl, hfront, hback⟩ := hordered.split (i + 1)
  have hbehind : ∀ qs : List Part, (∀ q ∈ qs, ¬ (q.start ≤ i ∧ i < q.stop)) →
      qs.find? (fun q => q.covers i) = none := fun qs h =>
    List.find?_eq_none.mpr fun q hq => by rw [Part.covers_iff]; exact h q hq
  have hfilter : (front ++ back).filter (fun p => p.start ≤ i) = front :=
    (List.filter_congr fun p _ => by simp only [Nat.lt_succ_iff]).trans (filter_before hfront hback)
  unfold entryIn entryAt?
  rw [hfilter, List.find?_append, hbehind back fun q hq => by have := hback q hq; omega,
    Option.or_none]
  obtain rfl | ⟨init, p, rfl, -, hinit⟩ := hordered.append.1.eq_nil_or_last
  · rfl
  have hp : p.start < i + 1 := hfront p (by simp)
  rw [List.getLast?_concat, List.find?_append,
    hbehind init fun q hq => by have := hinit q hq; omega, Option.none_or]
  simp only [(hfits p (by simp)).stopIn, Option.map_some, Option.some.injEq]
  by_cases hover : i < p.stop
  · have hcovers : p.covers i = true := Part.covers_iff.mpr ⟨by omega, hover⟩
    rw [if_pos hover, List.find?_singleton, if_pos hcovers]
  · rw [if_neg hover, hbehind [p] (by simp; omega)]

theorem endIn_eq (hfits : Fit ps) : endIn w ps = some (Parts.stop ps) := by
  unfold endIn Parts.stop
  cases hlast : ps.getLast? with
  | none => rfl
  | some p => exact (hfits p (List.mem_of_getLast? hlast)).stopIn w

/-- The end of all parts is a word. -/
theorem Fit.stop (h : Fit ps) : Parts.stop ps < wordBound := by
  unfold Parts.stop
  cases hlast : ps.getLast? with
  | none => decide
  | some p => exact (h p (List.mem_of_getLast? hlast)).stop

/-- The places that a whole ledger is made of end within the words. -/
theorem Fit.pieces : ∀ {ps : List Part} {cursor : Nat}, Fit ps → PlacesFit (pieces cursor ps)
  | [], _, _ => List.forall_mem_nil _
  | p :: ps, cursor, h => by
    obtain ⟨hp, hps⟩ := List.forall_mem_cons.mp h
    refine List.forall_mem_append.mpr
      ⟨placesFit_gap _, List.forall_mem_cons.mpr ⟨?_, Fit.pieces hps⟩⟩
    intro x hx
    obtain rfl := Option.some.inj hx
    exact hp.source

theorem piecesIn_eq : ∀ {ps : List Part} {cursor : Nat}, Fit ps →
    piecesIn w cursor ps = some (pieces cursor ps)
  | [], _, _ => rfl
  | p :: ps, cursor, h => by
    obtain ⟨hp, hps⟩ := List.forall_mem_cons.mp h
    rw [piecesIn, hp.stopIn, Option.bind_some, piecesIn_eq hps]
    rfl

end Looking

end Parts

end Provenance
