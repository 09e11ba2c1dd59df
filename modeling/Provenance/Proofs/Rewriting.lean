/-
# A range recorded anew

After the store was told where a range of an object came from, what is found of every element of
every object is settled (`Store.Rewritten`): of that range it is what was known of the source
before, also where the source is the object itself; of the rest, what it was.  Objects that have one
tracker with the object know the same of the range, and an object that was given a tracker that
stands for itself takes over nothing (`Store.setSource_rewritten`).

A lookup that finds a source takes two steps at most, since no source records parts itself; so it is
told in terms of the places that a copy takes over (`Store.pointOf_eq`).
-/
import Provenance.Proofs.Owning
import Provenance.Proofs.Purging

namespace Provenance

/-! ## 1. Lookups after recording -/

namespace Ledger

variable {l l' : Ledger} {id source : TrackerId} {t : Tracker}

/-- One step is enough for what stands for itself. -/
theorem Standing.resolve_depth (h : l.Standing source) (depth depth' index length : Nat) :
    l.resolve (depth + 1) source index length = l.resolve (depth' + 1) source index length := by
  obtain ⟨t, ht, hrole⟩ := h
  unfold Ledger.resolve
  simp only [ht]
  cases hkind : t.role with
  | default | sink =>
    rw [hkind] at hrole
    cases hrole
  | _ => rfl

/-- Nothing else is read of what stands for itself. -/
theorem Standing.resolve_congr (h : l.Standing source)
    (hsame : l'.tracker? source = l.tracker? source) (depth index length : Nat) :
    l'.resolve depth source index length = l.resolve depth source index length := by
  obtain ⟨t, ht, hrole⟩ := h
  cases depth with
  | zero => rfl
  | succ depth =>
    unfold Ledger.resolve
    simp only [hsame, ht]
    cases hkind : t.role with
    | default | sink =>
      rw [hkind] at hrole
      cases hrole
    | _ => rfl

theorem Standing.ne (h : l.Standing source) (ht : l.tracker? id = some t)
    (hrole : t.role.recordsParts = true) :
    source ≠ id := by
  rintro rfl
  obtain ⟨t', ht', hrole'⟩ := h
  obtain rfl := Option.some.inj (ht.symm.trans ht')
  rw [hrole] at hrole'
  cases hrole'

/-- What a copy takes over stands for itself. -/
theorem Flat.standing_of_reads (h : l.Flat) {i : Nat} {q : Place} (hq : l.reads id i = some q) :
    l.Standing q.source := by
  unfold reads at hq
  split at hq
  · cases hq
  · rename_i t ht
    split at hq
    · exact h id _ (source_of_sourceAt hq)
    · rename_i hrole
      cases hq
      exact ⟨t, ht, by simpa using hrole⟩

/-- **A lookup** over two trackers or more finds the place that a copy would take over, and looks
there. -/
theorem Flat.resolve_eq_reads (h : l.Flat) {depth : Nat} (hdepth : 2 ≤ depth) (id : TrackerId)
    (i length : Nat) :
    l.resolve depth id i length =
      (l.reads id i).bind fun q => l.resolve 1 q.source q.index length := by
  obtain ⟨depth, rfl⟩ := Nat.exists_eq_add_of_le' hdepth
  unfold reads
  cases ht : l.tracker? id with
  | none =>
    unfold resolve
    rw [ht]
    rfl
  | some t =>
    simp only
    split
    · rename_i hrole
      rw [resolve_of_recordsParts ht hrole]
      refine Option.bind_congr fun q hq => ?_
      exact (h id _ (source_of_sourceAt hq)).resolve_depth depth 0 q.index length
    · rename_i hrole
      have hstanding : l.Standing id := ⟨t, ht, by simpa using hrole⟩
      exact hstanding.resolve_depth (depth + 1) 0 i length

/-- What all trackers say after a range of one of them was recorded. -/
theorem Updated.reads (ht : l.tracker? id = some t) (hrole : t.role.recordsParts = true)
    {index length : Nat} {given : Nat → Option Place} (h : l.Updated l' id index length given)
    (other : TrackerId) (i : Nat) :
    l'.reads other i =
      if other = id ∧ index ≤ i ∧ i < index + length then given (i - index)
        else l.reads other i := by
  by_cases hother : other = id
  · subst hother
    obtain ⟨t', parts, ht', hparts⟩ := h.same
    obtain rfl := Option.some.inj (ht.symm.trans ht')
    have hafter : l'.reads other i = l'.sourceAt other i := by simp [Ledger.reads, hparts, hrole]
    have hbefore : l.reads other i = l.sourceAt other i := by simp [Ledger.reads, ht, hrole]
    rw [hafter, hbefore]
    split
    · rename_i hrange
      have hinside := h.inside (i - index) (by omega)
      rwa [Nat.add_sub_cancel' hrange.2.1] at hinside
    · rename_i hrange
      exact h.outside i (by simp only [true_and] at hrange; omega)
  · rw [if_neg fun hrange => hother hrange.1]
    exact reads_congr (h.others other hother) i

end Ledger

/-! ## 2. What the store knows afterwards -/

namespace Store

variable {s s' : Store} {alive : ObjectId → Bool} {o : ObjectId}

/-- Where the value at an index of an object came from, if the object is asked for. -/
def pointOf (s : Store) (o : ObjectId) (i : Nat) : Option Point :=
  (s.objects.get? o).bind fun id => s.ledger.resolve s.settings.maxResolveDepth id i 1

/-- Whether an object has a tracker that stands for itself. -/
def refuses (s : Store) (o : ObjectId) : Bool :=
  ((s.objects.get? o).bind s.ledger.tracker?).any fun t => !t.role.recordsParts

theorem Alike.refuses (h : Alike alive s s') (ho : alive o) : s'.refuses o = s.refuses o := by
  unfold Store.refuses
  rw [h.tracker o ho, h.ledger]

theorem pointAt_eq (hs : s.isActive) (ho : alive o) (i : Nat) :
    (s.pointAt alive o i).1 = s.pointOf o i := by
  have hticked := alike_tick s alive
  unfold pointAt trackerOf
  rw [if_pos hs]
  simp only [← hticked.tracker o ho, pointOf]
  cases s.objects.get? o with
  | none => rfl
  | some id => simp only [← hticked.ledger, ← hticked.depth, Option.bind_some]

/-- The point that stands for a place. -/
def pointTo (s : Store) (q : Option Place) : Option Point :=
  q.bind fun q => s.ledger.resolve 1 q.source q.index 1

/-- **What is found of an element** is the place that a copy of it takes over. -/
theorem pointOf_eq (hl : s.ledger.Reachable) (hdepth : 2 ≤ s.settings.maxResolveDepth)
    (o : ObjectId) (i : Nat) :
    s.pointOf o i = s.pointTo (s.placeOf o i) := by
  unfold Store.pointOf Store.placeOf pointTo
  rw [Option.bind_assoc]
  exact Option.bind_congr fun id _ => hl.flat.resolve_eq_reads hdepth id i 1

/-- The same for the place a point gives. -/
theorem resolve_eq_pointTo (hl : s.ledger.Reachable) (hdepth : 2 ≤ s.settings.maxResolveDepth)
    (id : TrackerId) (i : Nat) :
    s.ledger.resolve s.settings.maxResolveDepth id i 1 = s.pointTo (s.ledger.reads id i) :=
  hl.flat.resolve_eq_reads hdepth id i 1

theorem Alike.placeOf (h : Alike alive s s') (ho : alive o) (i : Nat) :
    s'.placeOf o i = s.placeOf o i := by
  unfold Store.placeOf
  rw [h.tracker o ho, h.ledger]

/-! ## 3. A range recorded anew -/

/-- Whether two objects have one tracker. -/
def Shares (s : Store) (a o : ObjectId) : Prop :=
  ∃ id, s.objects.get? a = some id ∧ s.objects.get? o = some id

instance (s : Store) (a o : ObjectId) : Decidable (s.Shares a o) :=
  decidable_of_iff (∃ id ∈ s.objects.get? a, s.objects.get? o = some id) Iff.rfl

/-- A store after a range of an object was recorded to come from given places, unless the tracker of
the object refused. -/
structure Rewritten (alive : ObjectId → Bool) (s s' : Store) (o : ObjectId) (start length : Nat)
    (given : Nat → Option Place) : Prop where
  suspended : s'.suspended = s.suspended
  depth : s'.settings.maxResolveDepth = s.settings.maxResolveDepth
  ledger : s'.ledger.Reachable
  /-- No tracker changes but in its parts, and none that stands for itself. -/
  kept : ∀ id t, s.ledger.tracker? id = some t →
    ∃ parts, s'.ledger.tracker? id = some { t with parts }
  standing : ∀ id, s.ledger.Standing id → s'.ledger.tracker? id = s.ledger.tracker? id
  others : ∀ a, alive a → a ≠ o → s'.objects.get? a = s.objects.get? a
  /-- The object keeps its tracker, or gets one that was not there. -/
  own : ∀ id, s'.objects.get? o = some id → (s'.ledger.tracker? id).isSome ∧
    (s.objects.get? o = some id ∨ s.objects.get? o = none ∧ s.ledger.tracker? id = none)
  reads : ∀ id, (s.ledger.tracker? id).isSome → ∀ i, s'.ledger.reads id i =
    if s.objects.get? o = some id ∧ s.refuses o = false ∧ start ≤ i ∧
      i < start + length then given (i - start)
    else s.ledger.reads id i
  here : ∀ i, s'.placeOf o i =
    if s.refuses o = false ∧ start ≤ i ∧ i < start + length then given (i - start)
    else s.placeOf o i
  refuses : s'.refuses o = s.refuses o

namespace Rewritten

variable {start length : Nat} {given : Nat → Option Place}

theorem isActive (h : Rewritten alive s s' o start length given) : s'.isActive = s.isActive := by
  unfold Store.isActive
  rw [h.suspended]

/-- Places stay the points they were. -/
theorem pointTo (h : Rewritten alive s s' o start length given) {q : Option Place}
    (hq : ∀ p ∈ q, s.ledger.Standing p.source) : s'.pointTo q = s.pointTo q :=
  Option.bind_congr fun p hp => (hq p hp).resolve_congr (h.standing _ (hq p hp)) 1 p.index 1

/-- **Everything that is known of elements** after a range of one object was recorded anew: objects
that have one tracker with it know the same of that range. -/
theorem places (h : Rewritten alive s s' o start length given) {a : ObjectId} (ha : alive a)
    (hknown : ∀ id, s.objects.get? a = some id → (s.ledger.tracker? id).isSome) (i : Nat) :
    s'.placeOf a i =
      if (a = o ∨ s.Shares a o) ∧ s.refuses o = false ∧ start ≤ i ∧
      i < start + length then given (i - start)
      else s.placeOf a i := by
  by_cases hao : a = o
  · subst hao
    simp only [true_or, true_and]
    exact h.here i
  · unfold Store.placeOf
    rw [h.others a ha hao]
    cases hid : s.objects.get? a with
    | none => simp [Shares, hid, hao]
    | some id =>
      simp only [Option.bind_some, h.reads id (hknown id hid) i, Shares, hid, Option.some.injEq,
        exists_eq_left', hao, false_or]

/-- **Everything that is found of elements** after a range of one object was recorded anew. -/
theorem pointOf (h : Rewritten alive s s' o start length given) (hl : s.ledger.Reachable)
    (hdepth : 2 ≤ s.settings.maxResolveDepth) {a : ObjectId} (ha : alive a)
    (hknown : ∀ id, s.objects.get? a = some id → (s.ledger.tracker? id).isSome)
    (hgiven : ∀ k, ∀ p ∈ given k, s.ledger.Standing p.source) (i : Nat) :
    s'.pointOf a i =
      if (a = o ∨ s.Shares a o) ∧ s.refuses o = false ∧ start ≤ i ∧ i < start + length then
        s.pointTo (given (i - start))
      else s.pointOf a i := by
  rw [pointOf_eq h.ledger (h.depth ▸ hdepth), pointOf_eq hl hdepth, h.places ha hknown]
  split
  · exact h.pointTo (hgiven _)
  · refine h.pointTo fun p hp => ?_
    obtain ⟨id, -, hp⟩ := Option.bind_eq_some_iff.mp hp
    exact hl.flat.standing_of_reads hp

end Rewritten

/-- Where nothing is recorded, nothing changes. -/
theorem Alike.rewritten (h : Alike alive s s') (ho : alive o) (hl : s.ledger.Reachable)
    (hknown : ∀ id, s.objects.get? o = some id → (s.ledger.tracker? id).isSome) {start length : Nat}
    {given : Nat → Option Place}
    (hsame : s.refuses o = true ∨ s.objects.get? o = none ∧ ∀ k, given k = none) :
    Rewritten alive s s' o start length given where
  suspended := h.suspended.symm
  depth := h.depth.symm
  ledger := h.ledger ▸ hl
  kept id t ht := ⟨t.parts, h.ledger ▸ ht⟩
  standing id _ := by rw [h.ledger]
  others a ha _ := (h.tracker a ha).symm
  own id hid := by
    rw [← h.tracker o ho] at hid
    exact ⟨h.ledger ▸ hknown id hid, .inl hid⟩
  reads id _ i := by
    rw [← h.ledger]
    rcases hsame with hrefuses | ⟨hnone, -⟩
    · simp [hrefuses]
    · simp [hnone]
  here i := by
    rw [h.placeOf ho]
    rcases hsame with hrefuses | ⟨hnone, hgiven⟩
    · simp [hrefuses]
    · simp [Store.placeOf, hnone, hgiven]
  refuses := h.refuses ho

theorem Rewritten.of_alike {u : Store} {start length : Nat} {given : Nat → Option Place}
    (h : Alike alive s u) (ho : alive o) (h' : Rewritten alive u s' o start length given) :
    Rewritten alive s s' o start length given where
  suspended := h'.suspended.trans h.suspended.symm
  depth := h'.depth.trans h.depth.symm
  ledger := h'.ledger
  kept id t ht := h'.kept id t (h.ledger ▸ ht)
  standing id hid := (h'.standing id (h.ledger ▸ hid)).trans (by rw [h.ledger])
  others a ha hao := (h'.others a ha hao).trans (h.tracker a ha).symm
  own id hid := by
    rw [h.tracker o ho, h.ledger]
    exact h'.own id hid
  reads id hid i := by
    rw [h.tracker o ho, ← h.refuses ho, h.ledger]
    exact h'.reads id (h.ledger ▸ hid) i
  here i := by
    rw [← h.refuses ho, ← h.placeOf ho]
    exact h'.here i
  refuses := h'.refuses.trans (h.refuses ho)

theorem Rewritten.alike {u : Store} {start length : Nat} {given : Nat → Option Place}
    (h : Rewritten alive s u o start length given) (h' : Alike alive u s') (ho : alive o) :
    Rewritten alive s s' o start length given where
  suspended := h'.suspended.symm.trans h.suspended
  depth := h'.depth.symm.trans h.depth
  ledger := h'.ledger ▸ h.ledger
  kept := h'.ledger ▸ h.kept
  standing := h'.ledger ▸ h.standing
  others a ha hao := (h'.tracker a ha).symm.trans (h.others a ha hao)
  own id hid := h'.ledger ▸ h.own id ((h'.tracker o ho).trans hid)
  reads := h'.ledger ▸ h.reads
  here i := (h'.placeOf ho i).trans (h.here i)
  refuses := (h'.refuses ho).trans h.refuses

namespace Grants

variable {u : Store} {id : TrackerId}

theorem ledger (h : s.Grants o id u) (hl : s.ledger.Reachable) : u.ledger.Reachable := by
  cases h with
  | had _ => exact hl
  | made _ => exact hl.add _ _ _

theorem reads_eq (h : s.Grants o id u) (other : TrackerId) (i : Nat) :
    u.ledger.reads other i = s.ledger.reads other i := by
  cases h with
  | had _ => rfl
  | made _ => exact Ledger.reads_add_default s.ledger other i

theorem tracker? (h : s.Grants o id u) {other : TrackerId} {t : Tracker}
    (ht : s.ledger.tracker? other = some t) :
    u.ledger.tracker? other = some t := by
  cases h with
  | had _ => exact ht
  | made _ => exact Ledger.tracker?_add_of_some ht _

/-- The tracker an object has got is there, and it is one that refuses only if the object had it
before. -/
theorem known (h : s.Grants o id u)
    (hknown : ∀ id, s.objects.get? o = some id → (s.ledger.tracker? id).isSome) :
    ∃ t, u.ledger.tracker? id = some t ∧ t.role.recordsParts = !s.refuses o ∧
      (s.objects.get? o = some id ∨ s.objects.get? o = none ∧ s.ledger.tracker? id = none) := by
  cases h with
  | had hid =>
    obtain ⟨t, ht⟩ := Option.isSome_iff_exists.mp (hknown id hid)
    exact ⟨t, ht, by simp [Store.refuses, hid, ht], .inl hid⟩
  | made hnone =>
    refine ⟨.new .default [] none, by rw [Ledger.tracker?_add, if_pos rfl], ?_, .inr ⟨hnone, ?_⟩⟩
    · simp [Store.refuses, hnone, Tracker.new, Role.recordsParts]
    · exact Table.get?_nextId _

/-- What an object knows once it has got a tracker is what it knew. -/
theorem placeOf_eq (h : s.Grants o id u) (i : Nat) : s.ledger.reads id i = s.placeOf o i := by
  cases h with
  | had hid => simp [Store.placeOf, hid]
  | made hnone =>
    have hnew : s.ledger.tracker? s.ledger.trackers.nextId = none := Table.get?_nextId _
    simp [Store.placeOf, hnone, Ledger.reads, hnew]

/-- Recording for an object that has got its tracker, in a ledger. -/
theorem rewritten (h : s.Grants o id u) (hl : s.ledger.Reachable)
    (hknown : ∀ id, s.objects.get? o = some id → (s.ledger.tracker? id).isSome)
    (hrefuses : s.refuses o = false) (alive : ObjectId → Bool) (start length : Nat)
    (source : Option TrackerId) (sourceIndex : Nat) :
    ∃ l', u.ledger.setSource id start length source sourceIndex = .ok l' ∧
      Rewritten alive s { u with ledger := l' } o start length
        fun k => source.bind fun source => s.ledger.reads source (sourceIndex + k) := by
  obtain ⟨t, ht, hrole, hown⟩ := h.known hknown
  rw [hrefuses, Bool.not_false] at hrole
  obtain ⟨l', hset, hupdated⟩ :=
    Ledger.setSource_updated (h.ledger hl) ht hrole start length source sourceIndex
  simp only [h.reads_eq] at hupdated
  obtain ⟨t', parts, ht', hparts⟩ := hupdated.same
  obtain rfl := Option.some.inj (ht.symm.trans ht')
  have hreads := hupdated.reads ht hrole
  -- the tracker was given before, or nobody has seen it yet
  have hsame : ∀ other, (s.ledger.tracker? other).isSome →
      (other = id ↔ s.objects.get? o = some other) := by
    intro other hother
    rcases hown with hid | ⟨hnone, hnew⟩
    · rw [hid, Option.some.injEq]
      exact eq_comm
    · rw [hnone]
      refine ⟨?_, nofun⟩
      rintro rfl
      rw [hnew] at hother
      cases hother
  refine ⟨l', hset, ?_, ?_, (h.ledger hl).setSource hset, fun other t₀ ht₀ => ?_,
    fun other hother => ?_,
    fun a _ hao => h.objects.2 a hao, fun id' hid' => ?_, fun other hother i => ?_, fun i => ?_, ?_⟩
  · cases h <;> rfl
  · cases h <;> rfl
  · by_cases hother : other = id
    · subst hother
      obtain rfl := Option.some.inj (ht.symm.trans (h.tracker? ht₀))
      exact ⟨parts, hparts⟩
    · exact ⟨t₀.parts, (hupdated.others other hother).trans (h.tracker? ht₀)⟩
  · obtain ⟨t₀, ht₀, hrole₀⟩ := hother
    have hstands : u.ledger.Standing other := ⟨t₀, h.tracker? ht₀, hrole₀⟩
    rw [hupdated.others other (hstands.ne ht hrole), h.tracker? ht₀, ht₀]
  · obtain rfl := Option.some.inj (h.objects.1.symm.trans hid')
    exact ⟨by rw [hparts]; rfl, hown⟩
  · simp only [hreads, h.reads_eq, hsame other hother, hrefuses, true_and]
  · simp only [Store.placeOf, h.objects.1, Option.bind_some, hreads, true_and, h.reads_eq, hrefuses]
    rw [h.placeOf_eq]
    rfl
  · rw [hrefuses]
    simp [Store.refuses, h.objects.1, hparts, hrole]

end Grants

/-- Recording for an object that gets a tracker if it has none: the store takes it unless the
tracker refuses. -/
theorem onTracker_rewritten (hs : s.isActive) (hl : s.ledger.Reachable) (ho : alive o)
    (hknown : ∀ id, s.objects.get? o = some id → (s.ledger.tracker? id).isSome) (start length : Nat)
    (source : Option TrackerId) (sourceIndex : Nat) :
    Rewritten alive s
      (s.onTracker alive o fun id l => l.setSource id start length source sourceIndex).2 o start
        length (fun k => source.bind fun source => s.ledger.reads source (sourceIndex + k)) ∧
      (s.onTracker alive o fun id l => l.setSource id start length source sourceIndex).1.toBool =
        !s.refuses o := by
  obtain ⟨id, u, hgrants, hensured⟩ := ensureTracker_grants hs alive o
  have hticked := alike_tick u alive
  unfold onTracker
  rw [hensured]
  simp only [onLedger, ← hticked.ledger]
  cases hrefuses : s.refuses o with
  | false =>
    obtain ⟨l', hset, hrewritten⟩ :=
      hgrants.rewritten hl hknown hrefuses alive start length source sourceIndex
    rw [hset]
    exact ⟨hrewritten.alike (Alike.onLedger hticked l') ho, rfl⟩
  | true =>
    obtain ⟨t, ht, hrole, -⟩ := hgrants.known hknown
    rw [hrefuses, Bool.not_true] at hrole
    rw [Ledger.setSource_refused ht hrole]
    cases hgrants with
    | had _ => exact ⟨hticked.rewritten ho hl hknown (.inl hrefuses), rfl⟩
    | made hnone => simp [refuses, hnone] at hrefuses

/-- **Recording where a range of an object came from**: the store takes it, with what is known of
the source then, unless the object was given a tracker that stands for itself. -/
theorem setSource_rewritten (hs : s.isActive) (hl : s.ledger.Reachable) (ho : alive o)
    (hknown : ∀ id, s.objects.get? o = some id → (s.ledger.tracker? id).isSome) (start length : Nat)
    (source : Option TrackerId) (sourceIndex : Nat) :
    Rewritten alive s (s.setSource alive o start length source sourceIndex).2 o start length
        (fun k => source.bind fun source => s.ledger.reads source (sourceIndex + k)) ∧
      (s.setSource alive o start length source sourceIndex).1.toBool = !s.refuses o := by
  rw [setSource_eq]
  cases source with
  | some source => exact onTracker_rewritten hs hl ho hknown start length (some source) sourceIndex
  | none =>
    have hticked := alike_tick s alive
    unfold trackerOf
    rw [if_pos hs]
    simp only [← hticked.tracker o ho]
    cases hid : s.objects.get? o with
    | none =>
      have hrefuses : s.refuses o = false := by simp [refuses, hid]
      rw [hrefuses]
      exact ⟨hticked.rewritten ho hl hknown (.inr ⟨hid, fun _ => rfl⟩), rfl⟩
    | some id =>
      obtain ⟨hrewritten, htaken⟩ := onTracker_rewritten (s := s.tick alive) (hticked.isActive ▸ hs)
        (hticked.ledger ▸ hl) ho
        (fun id' hid' => hticked.ledger ▸ hknown id' ((hticked.tracker o ho).trans hid')) start
        length none sourceIndex
      exact ⟨hrewritten.of_alike hticked ho, htaken.trans (by rw [hticked.refuses ho])⟩

end Store

end Provenance
