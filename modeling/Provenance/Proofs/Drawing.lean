/-
# A text made of ranges

A new object comes to know where its characters came from range by range: each range that is
recorded covers what was known of it (`Ledger.draw`), and what the sources know does not change
meanwhile, since none of them is the tracker of the new object (`Store.Drawn`).  What is known in
the end is known to the parts of its tracker and nowhere else, so two ways of recording that end in
the same knowledge leave the same parts (`Store.Drawn.partsOf_eq`).
-/
import Provenance.Proofs.Living
import Provenance.Proofs.NormalForm
import Provenance.Proofs.Rewriting
import Provenance.Proofs.StraightLine

namespace Provenance

open Work (TextSource)

/-! ## 1. What is known, range by range -/

namespace Ledger

variable {l : Ledger}

/-- What is known once a range was recorded over what was known before. -/
def draw (l : Ledger) (known : Nat → Option Place) (t : TextSource) (i : Nat) : Option Place :=
  if t.start ≤ i ∧ i < t.start + t.length then
    l.reads t.source (t.sourceIndex + (i - t.start)) else known i

/-- What is known once some ranges were recorded, one after the other. -/
def drawAll (l : Ledger) (known : Nat → Option Place) (ts : List TextSource) : Nat → Option Place :=
  ts.foldl l.draw known

theorem draw_of_outside (l : Ledger) {known : Nat → Option Place} {t : TextSource} {i : Nat}
    (h : i < t.start ∨ t.start + t.length ≤ i) : l.draw known t i = known i := if_neg (by omega)

/-- All that is known stands for itself. -/
theorem Flat.drawAll (h : l.Flat) : ∀ {ts : List TextSource} {known : Nat → Option Place},
    (∀ i, ∀ p ∈ known i, l.Standing p.source) →
    ∀ i, ∀ p ∈ l.drawAll known ts i, l.Standing p.source := by
  intro ts
  induction ts with
  | nil => exact fun hknown => hknown
  | cons t ts ih =>
    intro known hknown
    refine ih fun i p hp => ?_
    unfold draw at hp
    split at hp
    · exact h.standing_of_reads hp
    · exact hknown i p hp

/-- Ranges further on change nothing here. -/
theorem drawAll_of_lt (l : Ledger) {i : Nat} :
    ∀ {ts : List TextSource} {known : Nat → Option Place}, (∀ t ∈ ts, i < t.start) →
    l.drawAll known ts i = known i := by
  intro ts
  induction ts with
  | nil => exact fun _ => rfl
  | cons t ts ih =>
    intro known hlater
    obtain ⟨ht, hts⟩ := List.forall_mem_cons.mp hlater
    exact (ih hts).trans (l.draw_of_outside (.inl ht))

end Ledger

/-! ## 2. Recording for a new object -/

namespace Store

variable {s u s' : Store} {alive : ObjectId → Bool} {o : ObjectId} {known : Nat → Option Place}

/-- A store in which some of a new object was recorded, beside one in which it had no tracker. -/
structure Drawn (s s' : Store) (o : ObjectId) (known : Nat → Option Place) : Prop where
  active : s'.isActive
  depth : s'.settings.maxResolveDepth = s.settings.maxResolveDepth
  ledger : s'.ledger.Reachable
  kept : ∀ id t, s.ledger.tracker? id = some t →
    ∃ parts, s'.ledger.tracker? id = some { t with parts }
  standing : ∀ id, s.ledger.Standing id → s'.ledger.tracker? id = s.ledger.tracker? id
  reads : ∀ id, (s.ledger.tracker? id).isSome → ∀ i, s'.ledger.reads id i = s.ledger.reads id i
  /-- The tracker of the object, if it has one by now, is new. -/
  own : ∀ id, s'.objects.get? o = some id → (s'.ledger.tracker? id).isSome ∧
    s.ledger.tracker? id = none
  takes : s'.refuses o = false
  place : ∀ i, s'.placeOf o i = known i

namespace Drawn

theorem start (hs : s.isActive) (hl : s.ledger.Reachable) (ho : s.objects.get? o = none) :
    Drawn s s o fun _ => none where
  active := hs
  depth := rfl
  ledger := hl
  kept _ t ht := ⟨t.parts, ht⟩
  standing _ _ := rfl
  reads _ _ _ := rfl
  own id hid := by
    rw [ho] at hid
    cases hid
  takes := by simp [refuses, ho]
  place i := by simp [placeOf, ho]

/-- **One more range.** -/
theorem step (h : Drawn s u o known) {t : TextSource}
    (hsource : (s.ledger.tracker? t.source).isSome)
    (h' : Rewritten alive u s' o t.start t.length
      fun k => u.ledger.reads t.source (t.sourceIndex + k)) :
    Drawn s s' o (s.ledger.draw known t) where
  active := h'.isActive.trans h.active
  depth := h'.depth.trans h.depth
  ledger := h'.ledger
  kept id t ht := by
    obtain ⟨parts, hparts⟩ := h.kept id t ht
    obtain ⟨parts', hparts'⟩ := h'.kept id _ hparts
    exact ⟨parts', hparts'⟩
  standing id hid := by
    obtain ⟨t, ht, hrole⟩ := hid
    have hsame := h.standing id ⟨t, ht, hrole⟩
    rw [h'.standing id ⟨t, hsame.trans ht, hrole⟩, hsame]
  reads id hid i := by
    obtain ⟨t, ht⟩ := Option.isSome_iff_exists.mp hid
    obtain ⟨parts, hparts⟩ := h.kept id t ht
    -- a tracker that was there before is not the one that is written to
    have hother : u.objects.get? o ≠ some id := by
      intro hown
      rw [(h.own id hown).2] at ht
      cases ht
    rw [h'.reads id (by rw [hparts]; rfl), if_neg fun hrange => hother hrange.1, h.reads id hid]
  own id hid := by
    obtain ⟨hthere, hown⟩ := h'.own id hid
    refine ⟨hthere, ?_⟩
    rcases hown with hhad | ⟨-, hnew⟩
    · exact (h.own id hhad).2
    · cases ht : s.ledger.tracker? id with
      | none => rfl
      | some t =>
        obtain ⟨parts, hparts⟩ := h.kept id t ht
        rw [hnew] at hparts
        cases hparts
  takes := h'.refuses.trans h.takes
  place i := by
    rw [h'.here i, h.place i, h.reads _ hsource]
    simp only [h.takes, true_and]
    rfl

/-- A place that stood for itself beforehand is the same point still. -/
theorem pointTo (h : Drawn s s' o known) {q : Option Place}
    (hq : ∀ p ∈ q, s.ledger.Standing p.source) :
    s'.pointTo q = s.pointTo q :=
  Option.bind_congr fun p hp => (hq p hp).resolve_congr (h.standing _ (hq p hp)) 1 p.index 1

/-- **What is found of the object** once all was recorded. -/
theorem pointOf (h : Drawn s s' o known) (hdepth : 2 ≤ s.settings.maxResolveDepth)
    (hknown : ∀ i, ∀ p ∈ known i, s.ledger.Standing p.source) (i : Nat) :
    s'.pointOf o i = s.pointTo (known i) := by
  rw [pointOf_eq h.ledger (h.depth ▸ hdepth), h.place]
  exact h.pointTo (hknown i)

end Drawn

/-! ## 3. The parts of an object -/

/-- What the tracker of an object records; an object without one has nothing recorded. -/
def partsOf (s : Store) (o : ObjectId) : List Part :=
  match s.objects.get? o with
  | some id => s.ledger.parts id
  | none => []

theorem Drawn.parts (h : Drawn s s' o known) :
    Parts.Normal (s'.partsOf o) ∧ ∀ i, Parts.sourceAt (s'.partsOf o) i = known i := by
  have hplace := h.place
  have htakes := h.takes
  unfold Store.placeOf at hplace
  unfold refuses at htakes
  unfold partsOf
  cases hid : s'.objects.get? o with
  | none =>
    simp only [hid, Option.bind_none] at hplace
    exact ⟨.nil, hplace⟩
  | some id =>
    obtain ⟨t, ht⟩ := Option.isSome_iff_exists.mp (h.own id hid).1
    simp only [hid, Option.bind_some, ht, Option.any_some, Bool.not_eq_false'] at hplace htakes
    have hparts : s'.ledger.parts id = t.parts := by simp [Ledger.parts, ht]
    simp only [hparts]
    refine ⟨h.ledger.normal ht, fun i => ?_⟩
    rw [← hplace i]
    simp [Ledger.reads, ht, htakes, Ledger.sourceAt, hparts]

/-- **The way does not matter**: two ways of recording that end in the same knowledge leave the same
parts. -/
theorem Drawn.partsOf_eq {u' : Store} {known' : Nat → Option Place} (h : Drawn s s' o known)
    (h' : Drawn u u' o known') (hsame : ∀ i, known i = known' i) : s'.partsOf o = u'.partsOf o := by
  obtain ⟨hnormal, hparts⟩ := h.parts
  obtain ⟨hnormal', hparts'⟩ := h'.parts
  exact hnormal.ext hnormal' fun i => by rw [hparts, hparts', hsame]

end Store

/-! ## 4. Recording ranges at work -/

namespace Work

open Provenance.Action (Wp)

variable {s : Store} {b : Bench} {o : ObjectId} {known : Nat → Option Place}
    {inUse : Thunk (List Value)}

/-- A bench of which nothing changed but the store. -/
structure DrawnOn (s : Store) (o : ObjectId) (known : Nat → Option Place)
    (b b' : Bench) : Prop where
  bench : b' = { b with world.store := b'.world.store }
  store : s.Drawn b'.world.store o known

theorem wp_setSource_drawn {α : Type} {f : Bool → Work α} {R : α → Bench → Prop}
    {E : RunError → Bench → Prop} (h : s.Drawn b.world.store o known) (ho : b.world.alive inUse o)
    {t : TextSource} (hsource : (s.ledger.tracker? t.source).isSome)
    (hnext : ∀ store, s.Drawn store o (s.ledger.draw known t) →
      Wp (f true) R E { b with world.store := store }) :
    Wp (setSource inUse o t.start t.length (some t.source) t.sourceIndex >>= f) R E b := by
  obtain ⟨hrewritten, htaken⟩ := Store.setSource_rewritten h.active h.ledger ho
    (fun id hid => (h.own id hid).1) t.start t.length (some t.source) t.sourceIndex
  rw [h.takes, Bool.not_false] at htaken
  have hresult := hnext _ (h.step hsource hrewritten)
  rw [← htaken] at hresult
  exact hresult

/-- **All ranges**, one after the other. -/
theorem wp_recordSources : ∀ (ts : List TextSource) {b : Bench} {known : Nat → Option Place},
    s.Drawn b.world.store o known → b.world.alive inUse o →
    (∀ t ∈ ts, (s.ledger.tracker? t.source).isSome) →
    Wp (recordSources inUse o ts) (fun _ => DrawnOn s o (s.ledger.drawAll known ts) b)
      (fun _ _ => False) b := by
  intro ts
  induction ts with
  | nil => exact fun h _ _ => ⟨rfl, h⟩
  | cons t ts ih =>
    intro b known h ho hsources
    obtain ⟨ht, hts⟩ := List.forall_mem_cons.mp hsources
    unfold recordSources recordSourcesBy
    refine wp_setSource_drawn h ho ht fun store hstore => ?_
    have hrest := ih (b := { b with world.store := store }) hstore ho hts
    exact hrest.mono (fun _ b' h' => ⟨h'.bench, h'.store⟩) fun _ _ h' => h'

end Work

end Provenance
