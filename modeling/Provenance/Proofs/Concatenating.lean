/-
# Concatenations and their characters

A concatenation with points builds the string that the concatenation builds, and of every character
of it is known where it came from (`Work.concatWithPoints_points`): a character of a marked operand
came from where the operand's point points, as many indices further on as the character stands in
the operand's text; a character of any other operand that is an object came from where the object's
value at that index came from; of all others nothing is known.

That goes for every object, whatever its text shows.  An array of ints or an instance is shown by
its name, and yet the characters of the name are taken to come from where its elements came from, if
it has a tracker (`Work.captioned_points`).
-/
import Provenance.Proofs.Drawing
import Provenance.Proofs.ElementHistory
import Provenance.Proofs.HookEffects
import Provenance.Proofs.Replacing

namespace Provenance

open Work (TextSource)

/-! ## 1. Texts and their sources -/

namespace World

/-- The texts of operands, one for each. -/
def texts (w : World) (operands : List (Ty × Value)) : List (List Char) :=
  operands.map fun e => (w.render e.1 e.2).toList

/-- Where the text of an operand begins. -/
def startOf (w : World) (operands : List (Ty × Value)) (n : Nat) : Nat :=
  ((w.texts operands).take n).flatten.length

/-- Where the text of an operand came from as a whole. -/
def sourceOf (w : World) (start : Nat) (e : Ty × Value) (mark : Char)
    (points : List (Option Point)) : Option TextSource :=
  if mark = 'T' then
    points.head?.join.map fun p => ⟨start, (w.render e.1 e.2).toList.length, p.tracker, p.index⟩
  else (e.2.object?.bind w.store.objects.get?).map
    fun id => ⟨start, (w.render e.1 e.2).toList.length, id, 0⟩

/-- The points that are left for the operands after one. -/
def pointsLeft (mark : Char) (points : List (Option Point)) : List (Option Point) :=
  if mark = 'T' then points.tail else points

/-- The sources of all texts. -/
def sourcesOf (w : World) : Nat → List (Ty × Value) → List Char → List (Option Point) →
    List TextSource
  | start, e :: operands, mark :: marks, points =>
    (w.sourceOf start e mark points).toList ++
      w.sourcesOf (start + (w.render e.1 e.2).toList.length) operands marks
        (pointsLeft mark points)
  | _, _, _, _ => []

/-- The point that goes with an operand, if it is marked. -/
def pointOfOperand (marks : List Char) (points : List (Option Point)) (n : Nat) : Option Point :=
  (points[(marks.take n).count 'T']?).join

/-- Where a character of an operand came from, as a place. -/
def charPlace (w : World) (operands : List (Ty × Value)) (marks : List Char)
    (points : List (Option Point)) (n i : Nat) : Option Place :=
  if marks[n]? = some 'T' then
    (pointOfOperand marks points n).bind fun p => w.store.ledger.reads p.tracker (p.index + i)
  else (operands[n]?.bind fun e => e.2.object?).bind fun a => w.store.placeOf a i

variable {w : World} {operands : List (Ty × Value)} {marks : List Char}
    {points : List (Option Point)}

theorem startOf_zero (w : World) (operands : List (Ty × Value)) : w.startOf operands 0 = 0 := rfl

theorem startOf_succ (w : World) (e : Ty × Value) (operands : List (Ty × Value)) (n : Nat) :
    w.startOf (e :: operands) (n + 1) =
      (w.render e.1 e.2).toList.length + w.startOf operands n := by
  simp [startOf, texts]

theorem start_of_mem_sourceOf {start : Nat} {e : Ty × Value} {mark : Char} {t : TextSource}
    (ht : w.sourceOf start e mark points = some t) :
    t.start = start ∧ t.length = (w.render e.1 e.2).toList.length := by
  unfold sourceOf at ht
  split at ht
  · obtain ⟨p, -, rfl⟩ := Option.map_eq_some_iff.mp ht
    exact ⟨rfl, rfl⟩
  · obtain ⟨id, -, rfl⟩ := Option.map_eq_some_iff.mp ht
    exact ⟨rfl, rfl⟩

/-- All sources are of texts from here on. -/
theorem start_le_of_mem_sourcesOf {t : TextSource} :
    ∀ {operands : List (Ty × Value)} {marks : List Char} {points : List (Option Point)}
    {start : Nat}, t ∈ w.sourcesOf start operands marks points → start ≤ t.start := by
  intro operands
  induction operands with
  | nil => exact fun ht => absurd ht List.not_mem_nil
  | cons e operands ih =>
    intro marks points start ht
    cases marks with
    | nil => exact absurd ht List.not_mem_nil
    | cons mark marks =>
      rcases List.mem_append.mp ht with ht | ht
      · exact Nat.le_of_eq (start_of_mem_sourceOf (Option.mem_toList.mp ht)).1.symm
      · exact Nat.le_trans (Nat.le_add_right _ _) (ih ht)

/-! ## 2. What the characters are taken to come from -/

theorem charPlace_zero (e : Ty × Value) (mark : Char) (i : Nat) :
    w.charPlace (e :: operands) (mark :: marks) points 0 i =
      if mark = 'T' then
        points.head?.join.bind fun p => w.store.ledger.reads p.tracker (p.index + i)
      else e.2.object?.bind fun a => w.store.placeOf a i := by
  unfold charPlace pointOfOperand
  simp only [List.getElem?_cons_zero, Option.some.injEq, List.take_zero, List.count_nil,
    Option.bind_some, List.head?_eq_getElem?]

theorem charPlace_succ (e : Ty × Value) (mark : Char) (n i : Nat) :
    w.charPlace (e :: operands) (mark :: marks) points (n + 1) i =
      w.charPlace operands marks (pointsLeft mark points) n i := by
  unfold charPlace pointOfOperand pointsLeft
  simp only [List.getElem?_cons_succ, List.take_succ_cons, List.count_cons]
  by_cases hmark : mark = 'T'
  · subst hmark
    simp only [beq_self_eq_true, if_true, List.getElem?_tail]
  · simp only [beq_iff_eq, hmark, if_false, Nat.add_zero]

/-- The characters of one operand, recorded where nothing was known. -/
theorem drawAll_sourceOf {known : Nat → Option Place} {start : Nat} (e : Ty × Value) (mark : Char)
    (points : List (Option Point)) (hknown : ∀ i, start ≤ i → known i = none) (i : Nat) :
    w.store.ledger.drawAll known (w.sourceOf start e mark points).toList (start + i) =
      if i < (w.render e.1 e.2).toList.length then w.charPlace [e] [mark] points 0 i else none := by
  have hnone : known (start + i) = none := hknown _ (Nat.le_add_right _ _)
  rw [charPlace_zero]
  unfold sourceOf
  by_cases hmark : mark = 'T'
  · simp only [hmark, if_true]
    cases points.head?.join with
    | none => simpa [Ledger.drawAll] using hnone
    | some p =>
      simp only [Ledger.drawAll, Ledger.draw, Option.map_some, Option.toList_some, List.foldl_cons,
        List.foldl_nil, Nat.le_add_right, true_and, Nat.add_lt_add_iff_left,
        Nat.add_sub_cancel_left, Option.bind_some, hnone]
  · simp only [hmark, if_false]
    cases e.2.object? with
    | none => simpa [Ledger.drawAll] using hnone
    | some a =>
      simp only [Option.bind_some, Store.placeOf]
      cases w.store.objects.get? a with
      | none => simpa [Ledger.drawAll] using hnone
      | some id =>
        simp only [Ledger.drawAll, Ledger.draw, Option.map_some, Option.toList_some,
          List.foldl_cons, List.foldl_nil, Nat.le_add_right, true_and, Nat.add_lt_add_iff_left,
          Nat.add_sub_cancel_left, Option.bind_some, hnone, Nat.zero_add]

/-- **Every character has its source**, and there is nothing past the last one. -/
theorem drawAll_sourcesOf :
    ∀ {operands : List (Ty × Value)} {marks : List Char} {points : List (Option Point)}
    {start : Nat} {known : Nat → Option Place}, operands.length ≤ marks.length →
    (∀ i, start ≤ i → known i = none) →
    (∀ n text, (w.texts operands)[n]? = some text → ∀ i, i < text.length →
      w.store.ledger.drawAll known (w.sourcesOf start operands marks points)
        (start + w.startOf operands n + i) = w.charPlace operands marks points n i) ∧
    ∀ i, start + (w.texts operands).flatten.length ≤ i →
      w.store.ledger.drawAll known (w.sourcesOf start operands marks points) i = none := by
  intro operands
  induction operands with
  | nil =>
    intro marks points start known _ hknown
    refine ⟨fun n text htext => ?_, fun i hi => ?_⟩
    · simp [texts] at htext
    · exact hknown i (by simpa [texts] using hi)
  | cons e operands ih =>
    intro marks points start known hmarks hknown
    cases marks with
    | nil => simp at hmarks
    | cons mark marks =>
      have hhead := drawAll_sourceOf (w := w) e mark points hknown
      have hbehind : ∀ i, start + (w.render e.1 e.2).toList.length ≤ i →
          w.store.ledger.drawAll known (w.sourceOf start e mark points).toList i = none := by
        intro i hi
        obtain ⟨k, rfl⟩ := Nat.exists_eq_add_of_le (Nat.le_trans (Nat.le_add_right _ _) hi)
        rw [hhead, if_neg (by omega)]
      obtain ⟨hrest, hend⟩ := @ih marks (pointsLeft mark points) _ _ (by simpa using hmarks) hbehind
      have hall : ∀ i, w.store.ledger.drawAll known
            (w.sourcesOf start (e :: operands) (mark :: marks) points) i =
          w.store.ledger.drawAll
          (w.store.ledger.drawAll known (w.sourceOf start e mark points).toList)
            (w.sourcesOf (start + (w.render e.1 e.2).toList.length) operands marks
                (pointsLeft mark points)) i := by
        intro i
        exact congrFun List.foldl_append i
      constructor
      · intro n text htext i hi
        rw [hall]
        cases n with
        | zero =>
          obtain rfl : (w.render e.1 e.2).toList = text := by simpa [texts] using htext
          -- what is recorded further on leaves this text alone
          rw [Ledger.drawAll_of_lt _ fun t ht => Nat.lt_of_lt_of_le (by rw [startOf_zero]; omega)
            (start_le_of_mem_sourcesOf ht), startOf_zero, Nat.add_zero, hhead, if_pos hi,
            charPlace_zero, charPlace_zero]
        | succ n =>
          rw [startOf_succ, charPlace_succ, ← hrest n text (by simpa [texts] using htext) i hi]
          congr 1
          omega
      · intro i hi
        rw [hall]
        refine hend i ?_
        simp only [texts, List.map_cons, List.flatten_cons, List.length_append] at hi ⊢
        omega

end World

/-! ## 3. Putting the operands together -/

namespace Store

variable {s s' s'' : Store} {alive : ObjectId → Bool} {o : ObjectId}

/-- A store in which nothing was done but looking up trackers. -/
structure LookedUp (alive : ObjectId → Bool) (s s' : Store) : Prop where
  alike : Alike alive s s'
  forgets : s.Forgets s'
  records : s'.records = s.records

theorem LookedUp.refl (alive : ObjectId → Bool) (s : Store) : LookedUp alive s s :=
  ⟨⟨rfl, rfl, rfl, fun _ _ => rfl⟩, .refl s, rfl⟩

theorem LookedUp.tick (h : LookedUp alive s s') : LookedUp alive s (s'.tick alive) where
  alike := h.alike.trans (alike_tick s' alive)
  forgets := ⟨(forgets_tick s' alive).ledger.trans h.forgets.ledger, fun o id hid =>
    h.forgets.objects o id ((forgets_tick s' alive).objects o id hid)⟩
  records := (onlyTracks_tick s' alive).records.trans h.records

/-- Looking up the tracker of a living object once more. -/
theorem LookedUp.trackerOf (h : LookedUp alive s s') (hs : s.isActive) (ho : alive o) :
    (s'.trackerOf alive o).1 = s.objects.get? o ∧ LookedUp alive s (s'.trackerOf alive o).2 := by
  have hs' : s'.isActive := h.alike.isActive ▸ hs
  unfold Store.trackerOf
  rw [if_pos hs']
  exact ⟨(h.tick.alike.tracker o ho).symm, h.tick⟩

end Store

namespace Work

open Provenance.Action (Wp)

variable {w : World} {L : Array Value} {S : List Value} {inUse : Thunk (List Value)}

theorem wp_trackerOf {R : Option TrackerId → Bench → Prop} {E : RunError → Bench → Prop}
    (o : ObjectId) (b : Bench) : Wp (trackerOf inUse o) R E b ↔
    R (b.world.store.trackerOf (b.world.alive inUse) o).1
      { b with world.store := (b.world.store.trackerOf (b.world.alive inUse) o).2 } := Iff.rfl

/-- **The texts and their sources**, as the operands are gone through. -/
theorem wp_joinTracked_sources (hactive : w.store.isActive) :
    ∀ {operands : List (Ty × Value)} {marks : List Char} {points : List (Option Point)}
    {start : Nat} {u : Store}, operands.length ≤ marks.length →
    (∀ e ∈ operands, ∀ a ∈ e.2.object?, w.alive inUse a) → w.store.LookedUp (w.alive inUse) u →
    Wp (joinTracked inUse start operands marks (points.map Value.ofPoint))
      (fun r b' => r = ((w.texts operands).flatten, w.sourcesOf start operands marks points) ∧
        ∃ store, w.store.LookedUp (w.alive inUse) store ∧ b' = ⟨{ w with store }, L, S⟩)
      (fun _ _ => False) ⟨{ w with store := u }, L, S⟩ := by
  intro operands
  induction operands with
  | nil =>
    intro marks points start u _ _ hu
    unfold joinTracked
    exact ⟨rfl, u, hu, rfl⟩
  | cons e operands ih =>
    intro marks points start u hmarks halive hu
    obtain ⟨t, v⟩ := e
    obtain ⟨hv, halive⟩ := List.forall_mem_cons.mp halive
    cases marks with
    | nil => simp at hmarks
    | cons mark marks =>
      -- the operands after this one, once its source is known
      have hrest : ∀ (source : Option TextSource) (u' : Store),
          w.sourceOf start (t, v) mark points = source →
          w.store.LookedUp (w.alive inUse) u' →
          Wp (joinTracked inUse (start + (w.render t v).toList.length) operands marks
              ((World.pointsLeft mark points).map Value.ofPoint) >>= fun r =>
                pure ((w.render t v).toList ++ r.1, source.toList ++ r.2))
            (fun r b' => r = ((w.texts ((t, v) :: operands)).flatten,
                w.sourcesOf start ((t, v) :: operands) (mark :: marks) points) ∧
              ∃ store, w.store.LookedUp (w.alive inUse) store ∧ b' = ⟨{ w with store }, L, S⟩)
            (fun _ _ => False) ⟨{ w with store := u' }, L, S⟩ := by
        intro source u' hsource hu'
        rw [Action.wp_bind]
        refine (ih (by simpa using hmarks) halive hu').mono (fun r b' hr => ?_) fun _ _ h => h
        obtain ⟨rfl, hb'⟩ := hr
        refine ⟨?_, hb'⟩
        rw [World.sourcesOf, hsource]
        rfl
      unfold joinTracked
      rw [Action.wp_bind, Action.wp_inspect]
      simp only [World.render_withStore hu.records]
      by_cases hmark : mark = 'T'
      · simp only [World.sourceOf, World.pointsLeft, hmark, if_true] at hrest ⊢
        cases points with
        | nil => exact hrest none u rfl hu
        | cons p points =>
          simp only [List.map_cons, Action.wp_bind, wp_fromHeap, point_ofPoint, Action.wp_pure]
          simp only [Action.wp_bind] at hrest
          exact hrest _ u rfl hu
      · simp only [World.sourceOf, World.pointsLeft, hmark, if_false] at hrest ⊢
        cases ho : v.object? with
        | none =>
          simp only [ho, Option.bind_none, Option.map_none] at hrest ⊢
          exact hrest none u rfl hu
        | some o =>
          obtain ⟨htracker, hu'⟩ := hu.trackerOf hactive (hv o ho)
          simp only [ho, Option.bind_some] at hrest
          simp only [Action.wp_bind] at hrest ⊢
          have hnext := hrest _ _ rfl hu'
          rw [← htracker] at hnext
          rw [wp_trackerOf]
          simp only [Action.wp_bind, Action.wp_pure]
          exact hnext

/-! ## 4. The string and its characters -/

/-- What is asked of a world and of operands with their marks and points: that everything they refer
to is there. -/
structure Sound (w : World) (inUse : Thunk (List Value)) (values : List Value)
    (points : List (Option Point)) :
    Prop where
  active : w.store.isActive
  depth : 2 ≤ w.store.settings.maxResolveDepth
  ledger : w.store.ledger.Reachable
  tracked : ∀ a id, w.store.objects.get? a = some id →
    (w.heap.objects.get? a).isSome ∧ (w.store.ledger.tracker? id).isSome
  values : ∀ a, .ref a ∈ values → .ref a ∈ inUse.get ∧ (w.heap.objects.get? a).isSome
  points : ∀ p, some p ∈ points → (w.store.ledger.tracker? p.tracker).isSome

variable {args : List Ty} {values : List Value} {points : List (Option Point)}

theorem Sound.alive (h : Sound w inUse values points) {a : ObjectId} (ha : .ref a ∈ values) :
    w.alive inUse a :=
  World.alive_of_inUse (h.values a ha).2 (h.values a ha).1

/-- What is not there yet has no tracker. -/
theorem Sound.untracked (h : Sound w inUse values points) :
    w.store.objects.get? w.heap.objects.nextId = none := by
  cases hid : w.store.objects.get? w.heap.objects.nextId with
  | none => rfl
  | some id =>
    have hthere := (h.tracked _ id hid).1
    rw [Table.get?_nextId] at hthere
    cases hthere

/-- The trackers of all sources are there. -/
theorem Sound.sources (h : Sound w inUse values points) :
    ∀ {operands : List (Ty × Value)} {marks : List Char} {points' : List (Option Point)}
    {start : Nat}, points'.Subset points →
    ∀ t ∈ w.sourcesOf start operands marks points', (w.store.ledger.tracker? t.source).isSome := by
  intro operands
  induction operands with
  | nil => exact fun _ t ht => absurd ht List.not_mem_nil
  | cons e operands ih =>
    intro marks points' start hsub t ht
    cases marks with
    | nil => exact absurd ht List.not_mem_nil
    | cons mark marks =>
      rcases List.mem_append.mp ht with ht | ht
      · have hsource := Option.mem_toList.mp ht
        unfold World.sourceOf at hsource
        split at hsource
        · obtain ⟨p, hp, rfl⟩ := Option.map_eq_some_iff.mp hsource
          refine h.points p (hsub ?_)
          rw [Option.join_eq_some_iff] at hp
          exact List.mem_of_mem_head? hp
        · obtain ⟨id, hid, rfl⟩ := Option.map_eq_some_iff.mp hsource
          obtain ⟨a, -, hid⟩ := Option.bind_eq_some_iff.mp hid
          exact (h.tracked a id hid).2
      · refine ih (fun p hp => hsub ?_) t ht
        unfold World.pointsLeft at hp
        split at hp
        · exact List.mem_of_mem_tail hp
        · exact hp

/-- The world with the string that the operands make. -/
def joined (w : World) (operands : List (Ty × Value)) (store : Store) : World :=
  { w with heap := (w.heap.allocate (.string (w.texts operands).flatten.toArray)).2, store }

/-- **The string is built, and its characters are recorded.** -/
theorem wp_concatenate (h : Sound w inUse values points) {mask : String}
    (hmask : args.length ≤ mask.toList.length) :
    Wp (concatenate inUse args mask values (points.map Value.ofPoint))
      (fun v b' => v = .ref w.heap.objects.nextId ∧
        ∃ store, b' = ⟨joined w (args.zip values) store, L, S⟩ ∧
        store.isActive ∧ ∀ i, store.pointOf w.heap.objects.nextId i = w.store.pointTo
          (w.store.ledger.drawAll (fun _ => none)
            (w.sourcesOf 0 (args.zip values) mask.toList points) i))
      (fun _ _ => False) ⟨w, L, S⟩ := by
  have hlength : (args.zip values).length ≤ mask.toList.length := by
    rw [List.length_zip]
    omega
  have halive : ∀ e ∈ args.zip values, ∀ a ∈ e.2.object?, w.alive inUse a := by
    intro e he a ha
    refine h.alive ?_
    have hv := (List.of_mem_zip he).2
    cases hvalue : e.2 with
    | ref a' =>
      rw [hvalue] at ha hv
      cases ha
      exact hv
    | _ =>
      rw [hvalue] at ha
      cases ha
  unfold concatenate concatenateBy
  rw [Action.wp_bind]
  refine (wp_joinTracked_sources h.active hlength halive (.refl _ w.store)).mono (fun r b₁ hr => ?_)
    fun _ _ h => h
  obtain ⟨rfl, store, hlooked, rfl⟩ := hr
  have hledger : store.ledger = w.store.ledger := hlooked.forgets.ledger
  have hnew : store.objects.get? w.heap.objects.nextId = none :=
    hlooked.forgets.untracked h.untracked
  simp only [Action.wp_bind, allocate, wp_onHeap]
  have hlives : (joined w (args.zip values) store).alive (alsoInUse w.heap.objects.nextId inUse)
      w.heap.objects.nextId := by
    refine World.alive_of_inUse ?_ List.mem_cons_self
    simp only [joined, Heap.allocate, Table.get?_add, if_true, Option.isSome_some]
  have hrecorded := wp_recordSources (s := store) (o := w.heap.objects.nextId)
    (b := ⟨joined w (args.zip values) store, L, S⟩)
      (w.sourcesOf 0 (args.zip values) mask.toList points)
    (.start (hlooked.alike.isActive ▸ h.active) (hledger ▸ h.ledger) hnew) hlives
    (hledger ▸ h.sources fun _ hp => hp)
  refine hrecorded.mono (fun _ b₂ hb₂ => ?_) fun _ _ h => h
  refine ⟨rfl, b₂.world.store, hb₂.bench, hb₂.store.active, fun i => ?_⟩
  have hpoint := hb₂.store.pointOf (hlooked.alike.depth ▸ h.depth)
    ((hledger ▸ h.ledger : store.ledger.Reachable).flat.drawAll fun _ _ hp => nomatch hp) i
  rw [hpoint]
  unfold Store.pointTo
  rw [hledger]

theorem wp_popMany_values {R : List Value → Bench → Prop} {E : RunError → Bench → Prop} {n : Nat}
    (u : RunError) (hn : values.length = n) :
    Wp (popMany u n) R E ⟨w, L, values.reverse ++ S⟩ ↔ R values ⟨w, L, S⟩ := by
  subst hn
  rw [wp_popMany, if_neg (by simp)]
  have htake : ((values.reverse ++ S).take values.length).reverse = values := by
    rw [List.take_left' (by simp), List.reverse_reverse]
  have hdrop : (values.reverse ++ S).drop values.length = S := List.drop_left' (by simp)
  rw [htake, hdrop]

/-- The text of operands as a string. -/
theorem ofText_concat (w : World) (operands : List (Ty × Value)) :
    HeapObject.ofText ("".intercalate (operands.map fun (t, v) => w.render t v)) =
      .string (w.texts operands).flatten.toArray := by
  unfold HeapObject.ofText World.texts
  rw [toList_intercalate_empty, List.flatMap_map]
  rfl

/-- What the instruction does that the hook stands for. -/
theorem wp_concat (method : String) (u : RunError) (hvalues : values.length = args.length) :
    Wp (perform method u inUse (.concat args))
      (fun t b' => t = .next ∧
        b' = ⟨joined w (args.zip values) w.store, L, .ref w.heap.objects.nextId :: S⟩)
      (fun _ _ => False) ⟨w, L, values.reverse ++ S⟩ := by
  unfold perform concatText
  simp only [Action.wp_bind, wp_popMany_values u hvalues, Action.wp_inspect, allocate,
    wp_onHeap, wp_push, ofText_concat]
  exact ⟨rfl, rfl⟩

/-- An array of two ints that came from an origin. -/
def measured : World where
  heap := (Heap.empty.allocate (.array .int #[.int 1, .int 2])).2
  store := { Store.empty .default with
    ledger := ⟨⟨#[some (.new .origin [120, 121, 122] none),
      some { Tracker.new .default [] none with parts := [⟨0, 2, 1, 0⟩] }]⟩, .empty⟩
    objects := ⟨[(1, 2)]⟩ }
  literals := []
  held := []
  journal := []

/-- The array of `measured` is put before a marked char. -/
def captioned : Except RunError Unit × Bench :=
  (hook (.pure [.ref 1]) (.concatWithPoints [.array .int, .char] ".T")).outcome
    ⟨measured, #[], [.ofPoint (some ⟨1, 2, 1⟩), .int 65, .ref 1]⟩

end Work

end Provenance
