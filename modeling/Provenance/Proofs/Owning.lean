/-
# Arrays own their trackers

What the store knows of the elements of an object stands in its tracker (`Store.placeOf`).  As long
as no two objects share the tracker of an array (`Store.Apart`), recording where a range of an
object came from tells nothing new about arrays but of that range, and of that range only what was
given (`Store.setSource_records`).

Entries of dead objects may go whenever the store looks for a tracker, so these are statements on
what is known at most.
-/
import Provenance.Proofs.Flatness
import Provenance.Proofs.HookEffects

namespace Provenance

/-! ## 1. What is known of elements -/

namespace Ledger

variable {l l' : Ledger} {id : TrackerId} {t : Tracker}

theorem reads_of_default (ht : l.tracker? id = some t) (hrole : t.role = .default) (i : Nat) :
    l.reads id i = l.sourceAt id i := by
  simp [reads, ht, hrole, Role.recordsParts]

/-- What a tracker says depends on nothing but the tracker. -/
theorem reads_congr (h : l'.tracker? id = l.tracker? id) (i : Nat) :
    l'.reads id i = l.reads id i := by
  unfold reads sourceAt parts
  rw [h]

/-- A new tracker says nothing, and the others say what they said. -/
theorem reads_add_default (l : Ledger) (id : TrackerId) (i : Nat) :
    (l.add (.new .default [] none)).2.reads id i = l.reads id i := by
  by_cases hid : id = l.trackers.nextId
  · subst hid
    have hnone : l.tracker? l.trackers.nextId = none := Table.get?_nextId _
    simp [reads, hnone, sourceAt, parts, Tracker.new, Role.recordsParts]
  · exact reads_congr (by rw [tracker?_add, if_neg hid]) i

theorem Standing.resolve (h : l.Standing id) {depth index length : Nat} {p : Point}
    (hp : l.resolve depth id index length = some p) : p = ⟨id, index, length⟩ := by
  obtain ⟨t, ht, hrole⟩ := h
  cases depth with
  | zero => cases hp
  | succ depth =>
    unfold Ledger.resolve at hp
    simp only [ht] at hp
    cases hkind : t.role with
    | default | sink =>
      rw [hkind] at hrole
      cases hrole
    | origin | tag =>
      rw [hkind] at hp
      exact (Option.some.inj hp).symm
    | fixed =>
      rw [hkind] at hp
      simp only at hp
      split at hp
      · cases hp
      · exact (Option.some.inj hp).symm

theorem resolve_of_recordsParts (ht : l.tracker? id = some t) (hrole : t.role.recordsParts = true)
    (depth index length : Nat) : l.resolve (depth + 1) id index length =
      (l.sourceAt id index).bind fun place => l.resolve depth place.source place.index length := by
  rw [Ledger.resolve, sourceAt, parts]
  simp only [ht]
  cases hkind : t.role with
  | default | sink => cases Parts.sourceAt t.parts index <;> rfl
  | _ =>
    rw [hkind] at hrole
    cases hrole

theorem source_of_sourceAt {i : Nat} {place : Place} (h : l.sourceAt id i = some place) :
    place.source ∈ l.sourcesOf id := by
  obtain ⟨p, hp, -, hpx⟩ := Parts.Normal.exists_of_sourceAt h
  exact List.mem_map.mpr ⟨p, hp, congrArg Place.source hpx⟩

/-- **What a lookup finds** is what a copy would take over. -/
theorem Flat.reads_of_resolve (h : l.Flat) {depth index length : Nat} {p : Point}
    (hp : l.resolve depth id index length = some p) :
    l.reads id index = some ⟨p.tracker, p.index⟩ ∧ p.length = length := by
  cases depth with
  | zero => cases hp
  | succ depth =>
    cases ht : l.tracker? id with
    | none =>
      unfold resolve at hp
      rw [ht] at hp
      cases hp
    | some t =>
      cases hrole : t.role.recordsParts with
      | false =>
        obtain rfl := Standing.resolve ⟨t, ht, hrole⟩ hp
        simp [reads, ht, hrole]
      | true =>
        -- such a tracker sends the lookup on to a source that stands for itself
        rw [resolve_of_recordsParts ht hrole] at hp
        obtain ⟨place, hplace, hp⟩ := Option.bind_eq_some_iff.mp hp
        obtain rfl := (h id _ (source_of_sourceAt hplace)).resolve hp
        simp [reads, ht, hrole, hplace]

end Ledger

namespace Store

/-- Where an element of an object came from, as a copy of it takes this over. -/
def placeOf (s : Store) (o : ObjectId) (i : Nat) : Option Place :=
  (s.objects.get? o).bind fun id => s.ledger.reads id i

/-- A later store, which may have lost the trackers of some objects. -/
structure Forgets (s s' : Store) : Prop where
  ledger : s'.ledger = s.ledger
  objects : ∀ o id, s'.objects.get? o = some id → s.objects.get? o = some id

variable {s s' u v : Store} {o : ObjectId} {id : TrackerId} {alive : ObjectId → Bool}

theorem Forgets.refl (s : Store) : s.Forgets s := ⟨rfl, fun _ _ h => h⟩

theorem Forgets.placeOf (h : s.Forgets s') {i : Nat} {q : Place} (hq : s'.placeOf o i = some q) :
    s.placeOf o i = some q := by
  obtain ⟨id, hid, hq⟩ := Option.bind_eq_some_iff.mp hq
  exact Option.bind_eq_some_iff.mpr ⟨id, h.objects o id hid, h.ledger ▸ hq⟩

theorem Forgets.untracked (h : s.Forgets s') (ho : s.objects.get? o = none) :
    s'.objects.get? o = none := by
  cases hid : s'.objects.get? o with
  | none => rfl
  | some id =>
    rw [h.objects o id hid] at ho
    cases ho

theorem forgets_tick (s : Store) (alive : ObjectId → Bool) : s.Forgets (s.tick alive) := by
  unfold tick
  split
  · exact .refl s
  · simp only
    split
    · refine ⟨rfl, fun o id h => ?_⟩
      unfold purge WeakMap.purge WeakMap.get? at h
      simp only [lookup_filter_eq alive] at h
      split at h
      · exact h
      · cases h
    · exact ⟨rfl, fun _ _ h => h⟩

theorem forgets_trackerOf (s : Store) (alive : ObjectId → Bool) (o : ObjectId) :
    s.Forgets (s.trackerOf alive o).2 := by
  unfold trackerOf
  split
  · exact forgets_tick s alive
  · exact .refl s

/-- The points of fields are none of the elements. -/
theorem forgets_setFieldPoint (s : Store) (o : ObjectId) (key : String) (point : Option Point) :
    s.Forgets (s.setFieldPoint o key point) := by
  unfold setFieldPoint
  repeat' split
  all_goals exact ⟨rfl, fun _ _ h => h⟩

theorem isActive_trackerOf (hs : s.isActive) (alive : ObjectId → Bool) (o : ObjectId) :
    (s.trackerOf alive o).2.isActive := by
  obtain ⟨_, _, _, h⟩ := onlyTracks_trackerOf s alive o
  rw [h]
  exact hs

/-- What is read by way of a tracker that was looked up. -/
theorem placeOf_of_trackerOf (alive : ObjectId → Bool) {i : Nat} {q : Place}
    (hq :
      ((s.trackerOf alive o).1.bind fun id => (s.trackerOf alive o).2.ledger.reads id i) = some q) :
    s.placeOf o i = some q := by
  obtain ⟨id, hid, hq⟩ := Option.bind_eq_some_iff.mp hq
  rw [(forgets_trackerOf s alive o).ledger] at hq
  unfold trackerOf at hid
  split at hid
  · exact Option.bind_eq_some_iff.mpr ⟨id, (forgets_tick s alive).objects o id hid, hq⟩
  · cases hid

/-- What a lookup finds in a flat ledger. -/
theorem placeOf_of_pointAt (hs : s.ledger.Flat) {i : Nat} {p : Point}
    (hp : (s.pointAt alive o i).1 = some p) : s.placeOf o i = some ⟨p.tracker, p.index⟩ := by
  have hforgets := forgets_trackerOf s alive o
  have htracker {q : Place} := placeOf_of_trackerOf (s := s) (o := o) alive (i := i) (q := q)
  unfold pointAt at hp
  generalize s.trackerOf alive o = r at hp hforgets htracker
  obtain ⟨id?, u⟩ := r
  cases id? with
  | none => cases hp
  | some id => exact htracker (Ledger.Flat.reads_of_resolve (hforgets.ledger ▸ hs) hp).1

/-! ## 2. Trackers of their own -/

/-- The trackers of some objects are such as come into being for them, and nobody else has them. -/
structure Apart (s : Store) (A : ObjectId → Prop) : Prop where
  ledger : s.ledger.Reachable
  known : ∀ o id, s.objects.get? o = some id → ∃ t, s.ledger.tracker? id = some t
  own : ∀ o id, A o → s.objects.get? o = some id →
    (∃ t, s.ledger.tracker? id = some t ∧ t.role = .default) ∧
    ∀ o', s.objects.get? o' = some id → o' = o

variable {A A' : ObjectId → Prop} {index length : Nat} {given : Nat → Option Place}

/-- What recording a range of an object brings about, as far as some objects are concerned. -/
structure Records (s s' : Store) (A : ObjectId → Prop) (o : ObjectId) (index length : Nat)
    (given : Nat → Option Place) : Prop where
  apart : s'.Apart A
  objects : ∀ a id, s'.objects.get? a = some id → a = o ∨ s.objects.get? a = some id
  places : ∀ a, A a → ∀ i q, s'.placeOf a i = some q →
    if a = o ∧ index ≤ i ∧ i < index + length then given (i - index) = some q
    else s.placeOf a i = some q

theorem Forgets.apart (h : s.Forgets s') (hs : s.Apart A) : s'.Apart A where
  ledger := h.ledger ▸ hs.ledger
  known o id hid := h.ledger ▸ hs.known o id (h.objects o id hid)
  own o id ho hid := by
    obtain ⟨hrole, hown⟩ := hs.own o id ho (h.objects o id hid)
    exact ⟨h.ledger ▸ hrole, fun o' ho' => hown o' (h.objects o' id ho')⟩

/-- Objects without a tracker own whatever they get. -/
theorem Apart.widen (hs : s.Apart A) (hA : ∀ o, A' o → A o ∨ s.objects.get? o = none) :
    s.Apart A' where
  ledger := hs.ledger
  known := hs.known
  own o id ho hid := by
    rcases hA o ho with ho | hnone
    · exact hs.own o id ho hid
    · rw [hid] at hnone
      cases hnone

/-- Losing trackers beforehand, and knowing of more than was recorded. -/
theorem Records.forgets (h : u.Records s' A o index length given) (hsu : s.Forgets u)
    {given' : Nat → Option Place}
    (hgiven : ∀ k < length, ∀ q, given k = some q → given' k = some q) :
    s.Records s' A o index length given' where
  apart := h.apart
  objects a id ha := (h.objects a id ha).imp_right (hsu.objects a id)
  places a ha i q hq := by
    have := h.places a ha i q hq
    split at this
    · rename_i hrange
      rw [if_pos hrange]
      exact hgiven _ (by omega) q this
    · rw [if_neg ‹_›]
      exact hsu.placeOf this

/-- An object of which nothing is known afterwards has nothing to record. -/
theorem Forgets.records (h : s.Forgets s') (hs : s.Apart A)
    (ho : A o → 0 < length → s'.objects.get? o = none) : s.Records s' A o index length given where
  apart := h.apart hs
  objects a id ha := .inr (h.objects a id ha)
  places a ha i q hq := by
    split
    · rename_i hrange
      obtain ⟨rfl, hle, hlt⟩ := hrange
      have hnone := ho ha (by omega)
      simp [Store.placeOf, hnone] at hq
    · exact h.placeOf hq

/-! ## 3. Getting a tracker -/

/-- The store in which an object has got a tracker: the one it had, or a new one. -/
inductive Grants (s : Store) (o : ObjectId) : TrackerId → Store → Prop where
  | had {id : TrackerId} (h : s.objects.get? o = some id) : Grants s o id s
  | made (h : s.objects.get? o = none) :
      Grants s o s.ledger.trackers.nextId
        { s with
          ledger := (s.ledger.add (.new .default [] none)).2
          objects := s.objects.insert o s.ledger.trackers.nextId }

theorem ensureTracker_grants (hs : s.isActive) (alive : ObjectId → Bool) (o : ObjectId) :
    ∃ id u, s.Grants o id u ∧ s.ensureTracker alive o = (some id, u.tick alive) := by
  unfold ensureTracker
  rw [if_pos hs]
  cases ho : s.objects.get? o with
  | some id => exact ⟨id, s, .had ho, rfl⟩
  | none => exact ⟨_, _, .made ho, rfl⟩

namespace Grants

theorem objects (h : s.Grants o id u) : u.objects.get? o = some id ∧
    ∀ a, a ≠ o → u.objects.get? a = s.objects.get? a := by
  cases h with
  | had h => exact ⟨h, fun _ _ => rfl⟩
  | made h =>
    refine ⟨?_, fun a ha => ?_⟩
    · rw [WeakMap.get?_insert, if_pos rfl]
    · rw [WeakMap.get?_insert, if_neg ha]

theorem reads (h : s.Grants o id u) {source : TrackerId} {i : Nat} {q : Place}
    (hq : u.ledger.reads source i = some q) : s.ledger.reads source i = some q := by
  cases h with
  | had _ => exact hq
  | made _ => exact (Ledger.reads_add_default _ _ _).symm.trans hq

theorem apart (h : s.Grants o id u) (hs : s.Apart A) : u.Apart A := by
  cases h with
  | had _ => exact hs
  | made hnone =>
    -- nobody has the new tracker yet, since all trackers that anybody has are there
    have hfresh (a : ObjectId) : s.objects.get? a ≠ some s.ledger.trackers.nextId := fun ha => by
      obtain ⟨t, ht⟩ := hs.known a _ ha
      rw [Ledger.tracker?, Table.get?_nextId] at ht
      cases ht
    have hnew : (s.ledger.add (.new .default [] none)).2.tracker? s.ledger.trackers.nextId =
        some (.new .default [] none) := by rw [Ledger.tracker?_add, if_pos rfl]
    refine ⟨hs.ledger.add _ _ _, fun a id ha => ?_, fun a id hA ha => ?_⟩
    · rw [WeakMap.get?_insert] at ha
      split at ha
      · exact ⟨_, Option.some.inj ha ▸ hnew⟩
      · obtain ⟨t, ht⟩ := hs.known a id ha
        exact ⟨t, Ledger.tracker?_add_of_some ht _⟩
    · simp only [WeakMap.get?_insert] at ha ⊢
      split at ha
      · obtain rfl := Option.some.inj ha
        refine ⟨⟨_, hnew, rfl⟩, fun o' ho' => ?_⟩
        split at ho'
        · simp_all
        · exact absurd ho' (hfresh o')
      · obtain ⟨⟨t, ht, hrole⟩, hown⟩ := hs.own a id hA ha
        refine ⟨⟨t, Ledger.tracker?_add_of_some ht _, hrole⟩, fun o' ho' => ?_⟩
        split at ho'
        · exact absurd (Option.some.inj ho' ▸ ha) (hfresh a)
        · exact hown o' ho'

theorem placeOf (h : s.Grants o id u) {a : ObjectId} {i : Nat} {q : Place}
    (hq : u.placeOf a i = some q) : s.placeOf a i = some q := by
  obtain ⟨b, hb, hq⟩ := Option.bind_eq_some_iff.mp hq
  cases h with
  | had _ => exact Option.bind_eq_some_iff.mpr ⟨b, hb, hq⟩
  | made hnone =>
    rw [WeakMap.get?_insert] at hb
    split at hb
    · obtain rfl := Option.some.inj hb
      simp [Ledger.reads, Ledger.sourceAt, Ledger.parts, Tracker.new, Role.recordsParts] at hq
    · exact Option.bind_eq_some_iff.mpr ⟨b, hb, (Ledger.reads_add_default _ _ _).symm.trans hq⟩

end Grants

/-! ## 4. Recording -/

/-- **Recording in the tracker of an object** is recording for that object alone. -/
theorem Apart.record (hs : s.Apart A) (hid : s.objects.get? o = some id) {l' : Ledger}
    {source : Option TrackerId} {sourceIndex : Nat}
    (hl : s.ledger.setSource id index length source sourceIndex = .ok l') :
    s.Records { s with ledger := l' } A o index length
      fun k => source.bind fun id => s.ledger.reads id (sourceIndex + k) := by
  obtain ⟨t, ht⟩ := hs.known o id hid
  cases hrole : t.role.recordsParts with
  | false =>
    rw [Ledger.setSource_refused ht hrole] at hl
    cases hl
  | true =>
    obtain ⟨l'', hl'', hupdated⟩ :=
      Ledger.setSource_updated hs.ledger ht hrole index length source sourceIndex
    obtain rfl := Except.ok.inj (hl.symm.trans hl'')
    obtain ⟨t', parts, ht', hparts⟩ := hupdated.same
    have htracker (b : TrackerId) {t₀ : Tracker} (h : s.ledger.tracker? b = some t₀) :
        ∃ t₁, l'.tracker? b = some t₁ ∧ t₁.role = t₀.role := by
      by_cases hb : b = id
      · subst hb
        rw [ht'] at h
        exact ⟨_, hparts, by rw [← Option.some.inj h]⟩
      · exact ⟨t₀, by rw [hupdated.others b hb, h], rfl⟩
    refine ⟨⟨hs.ledger.setSource hl, fun a b ha => ?_, fun a b hA ha => ?_⟩, fun a b ha => .inr ha,
      fun a hA i q hq => ?_⟩
    · obtain ⟨t₀, ht₀⟩ := hs.known a b ha
      obtain ⟨t₁, ht₁, -⟩ := htracker b ht₀
      exact ⟨t₁, ht₁⟩
    · obtain ⟨⟨t₀, ht₀, hdefault⟩, hown⟩ := hs.own a b hA ha
      obtain ⟨t₁, ht₁, hsame⟩ := htracker b ht₀
      exact ⟨⟨t₁, ht₁, hsame.trans hdefault⟩, hown⟩
    · obtain ⟨b, hb, hq⟩ := Option.bind_eq_some_iff.mp hq
      obtain ⟨⟨t₀, ht₀, hdefault⟩, hown⟩ := hs.own a b hA hb
      by_cases hao : a = o
      · obtain rfl : b = id := Option.some.inj (hb.symm.trans (hao ▸ hid))
        obtain ⟨t₁, ht₁, hsame⟩ := htracker b ht₀
        rw [Ledger.reads_of_default ht₁ (hsame.trans hdefault)] at hq
        split
        · rename_i hrange
          have hinside := hupdated.inside (i - index) (by omega)
          rw [Nat.add_sub_cancel' hrange.2.1, hq] at hinside
          exact hinside.symm
        · rename_i hrange
          rw [hupdated.outside i (by simp only [hao, true_and] at hrange; omega)] at hq
          exact Option.bind_eq_some_iff.mpr
            ⟨b, hb, by rw [Ledger.reads_of_default ht₀ hdefault, hq]⟩
      · rw [if_neg fun h => hao h.1]
        have hbid : b ≠ id := fun h => hao (hown o (h ▸ hid)).symm
        rw [Ledger.reads_congr (hupdated.others b hbid)] at hq
        exact Option.bind_eq_some_iff.mpr ⟨b, hb, hq⟩

/-- Recording for an object that has just got its tracker.  Only one that did not come into being
for its object refuses. -/
theorem Grants.records (h : s.Grants o id u) (hs : s.Apart A) (alive : ObjectId → Bool)
    (source : Option TrackerId) (sourceIndex : Nat) :
    s.Records
      (match (u.tick alive).onLedger fun l => l.setSource id index length source sourceIndex with
        | .ok s => ((.ok (), s) : Except StoreError Unit × Store)
        | .error e => (.error e, u.tick alive)).2 A o index length
      fun k => source.bind fun id => s.ledger.reads id (sourceIndex + k) := by
  have hu := h.apart hs
  have htick := forgets_tick u alive
  have hobjects (a : ObjectId) (b : TrackerId) (ha : u.objects.get? a = some b) :
      a = o ∨ s.objects.get? a = some b := by
    by_cases hao : a = o
    · exact .inl hao
    · exact .inr (h.objects.2 a hao ▸ ha)
  simp only [onLedger, htick.ledger]
  cases hl : u.ledger.setSource id index length source sourceIndex with
  | ok l' =>
    have hrecords := hu.record h.objects.1 hl
    have hforgets : Forgets { u with ledger := l' } { u.tick alive with ledger := l' } :=
      ⟨rfl, htick.objects⟩
    refine ⟨hforgets.apart hrecords.apart, fun a b ha => hobjects a b (htick.objects a b ha),
      fun a hA i q hq => ?_⟩
    have hplaces := hrecords.places a hA i q (hforgets.placeOf hq)
    split at hplaces
    · rw [if_pos ‹_›]
      obtain ⟨b, hb, hreads⟩ := Option.bind_eq_some_iff.mp hplaces
      exact Option.bind_eq_some_iff.mpr ⟨b, hb, h.reads hreads⟩
    · rw [if_neg ‹_›]
      exact h.placeOf hplaces
  | error e =>
    refine ⟨htick.apart hu, fun a b ha => hobjects a b (htick.objects a b ha),
      fun a hA i q hq => ?_⟩
    rw [if_neg]
    · exact h.placeOf (htick.placeOf hq)
    · rintro ⟨rfl, -⟩
      obtain ⟨⟨t, ht, hrole⟩, -⟩ := hu.own a id hA h.objects.1
      obtain ⟨l', hl', -⟩ := Ledger.setSource_updated hu.ledger ht (by rw [hrole]; rfl)
        index length source sourceIndex
      rw [hl'] at hl
      cases hl

theorem onTracker_records (hs : s.Apart A) (hactive : A o → s.isActive) (alive : ObjectId → Bool)
    (source : Option TrackerId) (sourceIndex : Nat) :
    s.Records (s.onTracker alive o fun id l => l.setSource id index length source sourceIndex).2
      A o index length fun k => source.bind fun id => s.ledger.reads id (sourceIndex + k) := by
  unfold onTracker
  by_cases hon : s.isActive
  · obtain ⟨id, u, hgrants, hensure⟩ := ensureTracker_grants hon alive o
    rw [hensure]
    exact hgrants.records hs alive source sourceIndex
  · simp only [ensureTracker, if_neg hon]
    exact (Forgets.refl s).records hs fun ho _ => absurd (hactive ho) hon

/-- **Recording where a range of an object came from.** -/
theorem setSource_records (hs : s.Apart A) (o : ObjectId) (hactive : A o → s.isActive)
    (alive : ObjectId → Bool) (index length : Nat) (source : Option TrackerId) (sourceIndex : Nat) :
    s.Records (s.setSource alive o index length source sourceIndex).2 A o index length
      fun k => source.bind fun id => s.ledger.reads id (sourceIndex + k) := by
  have hforgets := forgets_trackerOf s alive o
  obtain h | ⟨rfl, ⟨hnone, h⟩ | h⟩ := setSource_cases s alive o index length source sourceIndex
  · rw [h]
    exact onTracker_records hs hactive alive source sourceIndex
  · rw [h]
    have htracker (ho : A o) : (s.trackerOf alive o).1 =
        (s.trackerOf alive o).2.objects.get? o := by
      simp [trackerOf, hactive ho]
    exact hforgets.records hs fun ho _ => (htracker ho).symm.trans hnone
  · rw [h]
    have hstill (ho : A o) := isActive_trackerOf (hactive ho) alive o
    exact (onTracker_records (hforgets.apart hs) hstill alive none sourceIndex).forgets hforgets
      fun _ _ _ h => h

end Store

end Provenance
