/-
# Purging is not seen

Entries of objects that are gone are dropped once in a number of lookups and insertions, in the
midst of whatever is asked: before the answer is looked up, or after an entry was made.  It makes no
difference to anybody.  Whatever is asked of a repository, while objects are made and die, the
answers and the ledger are the same for every interval; an object that lives keeps its tracker until
somebody takes it away; and the entry of an object that died is gone after as many counted lookups
and insertions as the interval says (`Household.purging`).

All three are told of one count (`tick`) first, then of one question (`Store.answer`), one move of a
household and at last a run.  Two stores with different intervals are related by what they know of
the living (`Store.Alike`); one store and a later one by what has become of the living and the dead
(`Store.Later`).
-/
import Provenance.Proofs.Conversing
import Provenance.Proofs.Forgetting

namespace Provenance

/-! ## 1. Questions and answers -/

/-- What is asked of a repository about an object. -/
inductive Ask where
  | tracker
  | ensure
  | setTracker (id : TrackerId)
  | setSource (index length : Nat) (source : Option TrackerId) (sourceIndex : Nat)
  | point (index : Nat)
  | reset
  deriving DecidableEq, Repr

namespace Ask

/-- Whether the object may have another tracker afterwards, or none. -/
def replaces : Ask → Bool
  | .setTracker _ | .reset => true
  | _ => false

end Ask

inductive Reply where
  | done
  | tracker (id : Option TrackerId)
  | point (p : Option Point)
  | failed (e : StoreError)
  | count (n : Nat)
  /-- Nobody can ask about an object that is gone. -/
  | refused
  deriving DecidableEq, Repr

/-- The same answer, but for the number if it counts entries. -/
def Reply.uncounted : Reply → Reply
  | .count _ => .count 0
  | r => r

namespace Store

variable {s s' s'' : Store} {alive : ObjectId → Bool} {o : ObjectId}

def answer (s : Store) (alive : ObjectId → Bool) (o : ObjectId) : Ask → Reply × Store
  | .tracker =>
    let (id, s) := s.trackerOf alive o
    (.tracker id, s)
  | .ensure =>
    let (id, s) := s.ensureTracker alive o
    (.tracker id, s)
  | .setTracker id => (.done, s.setTracker alive o id)
  | .setSource index length source sourceIndex =>
    match s.setSource alive o index length source sourceIndex with
    | (.ok (), s) => (.done, s)
    | (.error e, s) => (.failed e, s)
  | .point index =>
    let (p, s) := s.pointAt alive o index
    (.point p, s)
  | .reset =>
    let (id, s) := s.resetTracker o
    (.tracker id, s)

/-- How many lookups and insertions a question counts for.  To forget where something came from, the
tracker of the object is looked up, and then once more if it has one. -/
def counted (s : Store) (o : ObjectId) (a : Ask) : Nat :=
  if s.isActive then
    match a with
    | .reset => 0
    | .setSource _ _ none _ => if (s.objects.get? o).isSome then 2 else 1
    | _ => 1
  else 0

/-! ## 2. Two stores -/

/-- Two stores that know the same of the living, and are otherwise alike but for the interval. -/
structure Alike (alive : ObjectId → Bool) (s s' : Store) : Prop where
  ledger : s.ledger = s'.ledger
  suspended : s.suspended = s'.suspended
  depth : s.settings.maxResolveDepth = s'.settings.maxResolveDepth
  tracker : ∀ o, alive o → s.objects.get? o = s'.objects.get? o

theorem get?_purge (s : Store) (alive : ObjectId → Bool) (o : ObjectId) :
    (s.purge alive).objects.get? o = if alive o then s.objects.get? o else none :=
  lookup_filter_eq alive o s.objects.entries

theorem alike_purge (s : Store) (alive : ObjectId → Bool) : Alike alive s (s.purge alive) :=
  ⟨rfl, rfl, rfl, fun o ho => by rw [get?_purge, if_pos ho]⟩

theorem alike_tick (s : Store) (alive : ObjectId → Bool) : Alike alive s (s.tick alive) := by
  unfold tick
  split
  · exact ⟨rfl, rfl, rfl, fun _ _ => rfl⟩
  · simp only
    split
    · exact ⟨rfl, rfl, rfl, (alike_purge s alive).tracker⟩
    · exact ⟨rfl, rfl, rfl, fun _ _ => rfl⟩

namespace Alike

variable {u u' : Store}

theorem symm (h : Alike alive s s') : Alike alive s' s :=
  ⟨h.ledger.symm, h.suspended.symm, h.depth.symm, fun o ho => (h.tracker o ho).symm⟩

theorem trans (h : Alike alive s s') (h' : Alike alive s' s'') : Alike alive s s'' :=
  ⟨h.ledger.trans h'.ledger, h.suspended.trans h'.suspended, h.depth.trans h'.depth,
    fun o ho => (h.tracker o ho).trans (h'.tracker o ho)⟩

theorem isActive (h : Alike alive s s') : s.isActive = s'.isActive := by
  unfold Store.isActive
  rw [h.suspended]

/-- A count on both sides, whether it purges on one of them or not. -/
theorem tick (h : Alike alive s s') : Alike alive (s.tick alive) (s'.tick alive) :=
  ((alike_tick s alive).symm.trans h).trans (alike_tick s' alive)

theorem insert (h : Alike alive s s') (o : ObjectId) (id : TrackerId) :
    Alike alive { s with objects := s.objects.insert o id }
      { s' with objects := s'.objects.insert o id } := by
  refine ⟨h.ledger, h.suspended, h.depth, fun o' ho' => ?_⟩
  simp only [WeakMap.get?_insert]
  rw [h.tracker o' ho']

theorem onLedger (h : Alike alive s s') (l : Ledger) :
    Alike alive { s with ledger := l } { s' with ledger := l } :=
  ⟨rfl, h.suspended, h.depth, h.tracker⟩

theorem trackerOf (h : Alike alive s s') (ho : alive o) :
    (s.trackerOf alive o).1 = (s'.trackerOf alive o).1 ∧
      Alike alive (s.trackerOf alive o).2 (s'.trackerOf alive o).2 := by
  unfold Store.trackerOf
  rw [h.isActive]
  split
  · exact ⟨h.tick.tracker o ho, h.tick⟩
  · exact ⟨rfl, h⟩

theorem ensureTracker (h : Alike alive s s') (ho : alive o) :
    (s.ensureTracker alive o).1 = (s'.ensureTracker alive o).1 ∧
      Alike alive (s.ensureTracker alive o).2 (s'.ensureTracker alive o).2 := by
  unfold Store.ensureTracker
  rw [h.isActive, h.tracker o ho]
  split
  · cases s'.objects.get? o with
    | some id => exact ⟨rfl, h.tick⟩
    | none =>
      simp only [addTracker, h.ledger]
      exact ⟨trivial, ((h.onLedger _).insert o _).tick⟩
  · exact ⟨rfl, h⟩

/-- Two answers that agree, taken apart. -/
theorem exists_eq {α : Type} {r r' : α × Store} (h : r.1 = r'.1 ∧ Alike alive r.2 r'.2) :
    ∃ a u u', r = (a, u) ∧ r' = (a, u') ∧ Alike alive u u' := by
  obtain ⟨a, u⟩ := r
  obtain ⟨a', u'⟩ := r'
  obtain ⟨hanswer, halike⟩ := h
  exact ⟨a, u, u', rfl, congrArg (·, u') hanswer.symm, halike⟩

theorem onTracker (h : Alike alive s s') (ho : alive o)
    (f : TrackerId → Ledger → Except StoreError Ledger) :
    (s.onTracker alive o f).1 = (s'.onTracker alive o f).1 ∧
      Alike alive (s.onTracker alive o f).2 (s'.onTracker alive o f).2 := by
  obtain ⟨id, u, u', hr, hr', hensured⟩ := exists_eq (h.ensureTracker ho)
  unfold Store.onTracker
  rw [hr, hr']
  cases id with
  | none => exact ⟨rfl, hensured⟩
  | some id =>
    have hledger : u.ledger = u'.ledger := hensured.ledger
    simp only [Store.onLedger, hledger]
    cases f id u'.ledger with
    | ok l => exact ⟨rfl, Alike.onLedger hensured l⟩
    | error e => exact ⟨rfl, hensured⟩

theorem setSource (h : Alike alive s s') (ho : alive o) (index length : Nat)
    (source : Option TrackerId) (sourceIndex : Nat) :
    (s.setSource alive o index length source sourceIndex).1 =
        (s'.setSource alive o index length source sourceIndex).1 ∧
      Alike alive (s.setSource alive o index length source sourceIndex).2
        (s'.setSource alive o index length source sourceIndex).2 := by
  rw [setSource_eq, setSource_eq]
  cases source with
  | some source => exact h.onTracker ho _
  | none =>
    obtain ⟨id, u, u', hr, hr', hlooked⟩ := exists_eq (h.trackerOf ho)
    simp only [hr, hr']
    cases id with
    | none => exact ⟨rfl, hlooked⟩
    | some _ => exact Alike.onTracker hlooked ho _

/-- **One question**: both stores give the same answer. -/
theorem answer (h : Alike alive s s') (ho : alive o) (a : Ask) :
    (s.answer alive o a).1 = (s'.answer alive o a).1 ∧
      Alike alive (s.answer alive o a).2 (s'.answer alive o a).2 := by
  cases a with
  | tracker =>
    obtain ⟨hid, hlooked⟩ := h.trackerOf ho
    exact ⟨congrArg Reply.tracker hid, hlooked⟩
  | ensure =>
    obtain ⟨hid, hensured⟩ := h.ensureTracker ho
    exact ⟨congrArg Reply.tracker hid, hensured⟩
  | setTracker id =>
    refine ⟨rfl, ?_⟩
    simp only [Store.answer, Store.setTracker, h.isActive]
    split
    · exact (h.insert o id).tick
    · exact h
  | setSource index length source sourceIndex =>
    obtain ⟨result, u, u', hr, hr', hset⟩ :=
      exists_eq (h.setSource ho index length source sourceIndex)
    simp only [Store.answer, hr, hr']
    cases result with
    | ok _ => exact ⟨rfl, hset⟩
    | error e => exact ⟨rfl, hset⟩
  | point index =>
    obtain ⟨id, u, u', hr, hr', hlooked⟩ := exists_eq (h.trackerOf ho)
    simp only [Store.answer, Store.pointAt, hr, hr']
    cases id with
    | none => exact ⟨rfl, hlooked⟩
    | some id =>
      simp only [hlooked.ledger, hlooked.depth]
      exact ⟨trivial, hlooked⟩
  | reset =>
    refine ⟨congrArg Reply.tracker (h.tracker o ho), h.ledger, h.suspended, h.depth,
      fun o' ho' => ?_⟩
    simp only [Store.answer, Store.resetTracker, WeakMap.get?_remove]
    rw [h.tracker o' ho']

end Alike

/-! ## 3. One store later -/

/-- A store after some counts.  The dead get no entry, and keep theirs only until the count passes a
multiple of the interval; the living keep theirs unless it was taken away. -/
structure Later (alive : ObjectId → Bool) (freed : ObjectId → Prop) (s s' : Store)
    (counts : Nat) : Prop where
  settings : s'.settings = s.settings
  suspended : s'.suspended = s.suspended
  operations : s.settings.purgeInterval ≠ 0 → s'.operations = s.operations + counts
  dead : ∀ o, alive o = false → s.objects.get? o = none → s'.objects.get? o = none
  purged : ∀ o, alive o = false → s'.objects.get? o = none ∨
    s'.operations / s.settings.purgeInterval = s.operations / s.settings.purgeInterval
  kept : ∀ o id, alive o = true → ¬freed o → s.objects.get? o = some id →
    s'.objects.get? o = some id

theorem later_tick (s : Store) (alive : ObjectId → Bool) (freed : ObjectId → Prop) :
    Later alive freed s (s.tick alive) 1 := by
  unfold tick
  split
  · rename_i hzero
    exact ⟨rfl, rfl, fun h => absurd hzero h, fun _ _ h => h, fun _ _ => .inr rfl,
      fun _ _ _ _ h => h⟩
  · simp only
    split
    · have hpurged :
        ∀ o, (Store.purge { s with operations := s.operations + 1 } alive).objects.get? o =
          if alive o then s.objects.get? o else none := get?_purge s alive
      refine ⟨rfl, rfl, fun _ => rfl, fun o ho _ => ?_, fun o ho => .inl ?_,
        fun o id ho _ hid => ?_⟩
      · rw [hpurged, if_neg (by simp [ho])]
      · rw [hpurged, if_neg (by simp [ho])]
      · rw [hpurged, if_pos ho, hid]
    · rename_i hbetween
      refine ⟨rfl, rfl, fun _ => rfl, fun _ _ h => h, fun _ _ => .inr ?_, fun _ _ _ _ h => h⟩
      exact Nat.succ_div_of_not_dvd fun hdvd => hbetween (Nat.mod_eq_zero_of_dvd hdvd)

namespace Later

variable {freed : ObjectId → Prop} {k k' : Nat}

theorem refl (s : Store) (alive : ObjectId → Bool) (freed : ObjectId → Prop) :
    Later alive freed s s 0 :=
  ⟨rfl, rfl, fun _ => rfl, fun _ _ h => h, fun _ _ => .inr rfl, fun _ _ _ _ h => h⟩

theorem trans (h : Later alive freed s s' k) (h' : Later alive freed s' s'' k') :
    Later alive freed s s'' (k + k') where
  settings := h'.settings.trans h.settings
  suspended := h'.suspended.trans h.suspended
  operations hinterval := by
    rw [h'.operations (h.settings ▸ hinterval), h.operations hinterval, Nat.add_assoc]
  dead o ho hnone := h'.dead o ho (h.dead o ho hnone)
  purged o ho := by
    rcases h'.purged o ho with hgone | hsame
    · exact .inl hgone
    · rcases h.purged o ho with hgone | hsame'
      · exact .inl (h'.dead o ho hgone)
      · exact .inr (by rw [← hsame', ← h.settings, hsame])
  kept o id ho hfreed hid := h'.kept o id ho hfreed (h.kept o id ho hfreed hid)

/-- What a living object is given is nothing to others. -/
theorem insert (s : Store) (ho : alive o) (id : TrackerId) (l : Ledger)
    (hfreed : freed o ∨ s.objects.get? o = none) :
    Later alive freed s { s with ledger := l, objects := s.objects.insert o id } 0 := by
  refine ⟨rfl, rfl, fun _ => rfl, fun o' ho' hnone => ?_, fun _ _ => .inr rfl,
    fun o' id' _ hkept hid' => ?_⟩
  · rw [WeakMap.get?_insert, if_neg, hnone]
    rintro rfl
    rw [ho] at ho'
    cases ho'
  · rw [WeakMap.get?_insert, if_neg, hid']
    rintro rfl
    rcases hfreed with hfreed | hnone
    · exact hkept hfreed
    · rw [hnone] at hid'
      cases hid'

theorem onLedger (s : Store) (l : Ledger) : Later alive freed s { s with ledger := l } 0 :=
  ⟨rfl, rfl, fun _ => rfl, fun _ _ h => h, fun _ _ => .inr rfl, fun _ _ _ _ h => h⟩

theorem trackerOf (s : Store) (alive : ObjectId → Bool) (freed : ObjectId → Prop) (o : ObjectId) :
    Later alive freed s (s.trackerOf alive o).2 (if s.isActive then 1 else 0) := by
  unfold Store.trackerOf
  split
  · exact later_tick s alive freed
  · exact refl s alive freed

theorem ensureTracker (s : Store) (ho : alive o) :
    Later alive freed s (s.ensureTracker alive o).2 (if s.isActive then 1 else 0) := by
  unfold Store.ensureTracker
  split
  · split
    · exact later_tick s alive freed
    · rename_i hnone
      simp only [addTracker]
      exact (insert s ho _ _ (.inr hnone)).trans (later_tick _ alive freed)
  · exact refl s alive freed

theorem onTracker (s : Store) (ho : alive o) (f : TrackerId → Ledger → Except StoreError Ledger) :
    Later alive freed s (s.onTracker alive o f).2 (if s.isActive then 1 else 0) := by
  have hensured : Later alive freed s _ _ := ensureTracker s ho
  unfold Store.onTracker
  generalize s.ensureTracker alive o = r at *
  obtain ⟨id, u⟩ := r
  cases id with
  | none => exact hensured
  | some id =>
    simp only [Store.onLedger]
    cases f id u.ledger with
    | ok l => exact hensured.trans (onLedger u l)
    | error e => exact hensured

theorem setSource (s : Store) (ho : alive o) (index length : Nat) (source : Option TrackerId)
    (sourceIndex : Nat) :
    Later alive freed s (s.setSource alive o index length source sourceIndex).2
      (s.counted o (.setSource index length source sourceIndex)) := by
  rw [setSource_eq]
  unfold counted
  cases source with
  | some source => exact onTracker s ho _
  | none =>
    have hlooked := trackerOf s alive freed o
    have hfound : (s.trackerOf alive o).1 = if s.isActive then s.objects.get? o else none := by
      unfold Store.trackerOf
      split
      · exact ((alike_tick s alive).tracker o ho).symm
      · rfl
    simp only
    generalize s.trackerOf alive o = r at *
    obtain ⟨id, u⟩ := r
    -- the tracker is looked up a second time only if it was there the first time
    by_cases hactive : s.isActive
    · simp only [hactive, if_true] at hfound hlooked ⊢
      rw [← hfound]
      cases id with
      | none => exact hlooked
      | some _ =>
        have hstill : u.isActive := by
          unfold Store.isActive at hactive ⊢
          rw [hlooked.suspended]
          exact hactive
        have hwritten : Later alive freed u _ _ :=
          onTracker u ho fun id l => l.setSource id index length none sourceIndex
        rw [if_pos hstill] at hwritten
        exact hlooked.trans hwritten
    · simp only [hactive, Bool.false_eq_true, if_false] at hfound hlooked ⊢
      rw [hfound]
      exact hlooked

/-- **One question**: it counts as often as it looks up or inserts. -/
theorem answer (s : Store) (ho : alive o) (a : Ask) :
    Later alive (fun o' => o' = o ∧ a.replaces) s (s.answer alive o a).2 (s.counted o a) := by
  cases a with
  | tracker => exact trackerOf s alive _ o
  | ensure => exact ensureTracker s ho
  | setTracker id =>
    simp only [Store.answer, Store.setTracker, counted]
    split
    · exact (insert s ho id s.ledger (.inl ⟨rfl, rfl⟩)).trans (later_tick _ alive _)
    · exact refl s alive _
  | setSource index length source sourceIndex =>
    have hset : Later alive (fun o' => o' = o ∧
        Ask.replaces (.setSource index length source sourceIndex)) s _ _ :=
      setSource s ho index length source sourceIndex
    simp only [Store.answer]
    generalize s.setSource alive o index length source sourceIndex = r at *
    obtain ⟨result, u⟩ := r
    cases result with
    | ok _ => exact hset
    | error e => exact hset
  | point index =>
    have hlooked := trackerOf s alive (fun o' => o' = o ∧ Ask.replaces (.point index)) o
    simp only [Store.answer, Store.pointAt]
    generalize s.trackerOf alive o = r at *
    obtain ⟨id, u⟩ := r
    cases id with
    | none => exact hlooked
    | some _ => exact hlooked
  | reset =>
    have hremoved : ∀ o', (s.objects.remove o).get? o' = if o' = o then none
    else s.objects.get? o' :=
      s.objects.get?_remove o
    have hcounted : s.counted o .reset = 0 := by
      unfold counted
      split <;> rfl
    rw [hcounted]
    refine ⟨rfl, rfl, fun _ => rfl, fun o' _ hnone => ?_, fun _ _ => .inr rfl,
      fun o' id' _ hkept hid' => ?_⟩
    · simp only [Store.answer, Store.resetTracker, hremoved, hnone]
      split <;> rfl
    · simp only [Store.answer, Store.resetTracker, hremoved]
      rw [if_neg fun h => hkept ⟨h, rfl⟩, hid']

end Later

end Store

/-! ## 4. Objects that come and go -/

/-- A store, and the objects that are there. -/
structure Household where
  store : Store
  objects : Table Unit

/-- What can happen in a household. -/
inductive Move where
  | create
  | drop (o : ObjectId)
  | ask (o : ObjectId) (a : Ask)
  | purge
  | size
  | suspend
  | resume
  /-- Whatever is done to trackers without asking for one. -/
  | deed (d : Ledger.Deed)
  deriving Repr

/-- The object dies, or its tracker is taken away. -/
def Move.Frees (m : Move) (o : ObjectId) : Prop :=
  m = .drop o ∨ ∃ a : Ask, m = .ask o a ∧ a.replaces

namespace Household

def start (settings : StoreSettings) : Household := ⟨.empty settings, .empty⟩

def alive (h : Household) (o : ObjectId) : Bool := (h.objects.get? o).isSome

def act (h : Household) : Move → Reply × Household
  | .create => (.done, { h with objects := h.objects.add () })
  | .drop o => (.done, { h with objects := h.objects.retain fun o' => o' ≠ o })
  | .ask o a =>
    if h.alive o then
      let (reply, store) := h.store.answer h.alive o a
      (reply, { h with store })
    else (.refused, h)
  | .purge =>
    (.count (h.store.objects.deadCount h.alive), { h with store := h.store.purge h.alive })
  | .size => (.count h.store.objects.size, h)
  | .suspend => (.done, { h with store := h.store.suspend })
  | .resume => (.done, { h with store := h.store.resume })
  | .deed d => (.done, { h with store.ledger := h.store.ledger.after d })

/-- Move after move. -/
def run (h : Household) : List Move → List Reply × Household
  | [] => ([], h)
  | m :: ms =>
    let (reply, h) := h.act m
    let (replies, h) := h.run ms
    (reply :: replies, h)

/-- How many lookups and insertions a move counts for. -/
def counted (h : Household) : Move → Nat
  | .ask o a => if h.alive o then h.store.counted o a else 0
  | _ => 0

def countedIn (h : Household) : List Move → Nat
  | [] => 0
  | m :: ms => h.counted m + (h.act m).2.countedIn ms

variable {h h' : Household} {o : ObjectId}

theorem lt_nextId_of_alive (ho : h.alive o) : o < h.objects.nextId := Table.lt_nextId ho

theorem alive_create (h : Household) (o : ObjectId) :
    (h.act .create).2.alive o = true ↔ o = h.objects.nextId ∨ h.alive o = true := by
  unfold alive act
  simp only [Table.get?_add]
  split
  · simp [*]
  · simp [*]

theorem alive_drop (h : Household) (o o' : ObjectId) :
    (h.act (.drop o)).2.alive o' = true ↔ o' ≠ o ∧ h.alive o' = true := by
  unfold alive act
  simp only [Table.get?_retain]
  by_cases heq : o' = o
  · simp [heq]
  · simp [heq]

/-! ### Two households -/

/-- Entries are of objects that were there at some time. -/
def Born (h : Household) : Prop := ∀ o, (h.store.objects.get? o).isSome → o < h.objects.nextId

/-- The same objects, and stores that know the same of them. -/
structure Alike (h h' : Household) : Prop where
  objects : h.objects = h'.objects
  store : Store.Alike h.alive h.store h'.store
  born : h.Born
  born' : h'.Born

theorem Born.act (hb : h.Born) (m : Move) : (h.act m).2.Born := by
  cases m with
  | create =>
    intro o ho
    exact Nat.lt_of_lt_of_eq (Nat.lt_succ_of_lt (hb o ho)) (Table.nextId_add _ _).symm
  | drop o =>
    intro o' ho'
    exact Nat.lt_of_lt_of_eq (hb o' ho') (Table.nextId_retain _ _).symm
  | ask o a =>
    simp only [Household.act]
    split
    · rename_i halive
      intro o' ho'
      by_cases halive' : h.alive o'
      · exact lt_nextId_of_alive halive'
      · -- the dead got no entry
        have hdead := (Store.Later.answer h.store halive a).dead o' (by simpa using halive')
        refine hb o' ?_
        rw [Option.isSome_iff_ne_none]
        intro hnone
        have hstill : (h.store.answer h.alive o a).2.objects.get? o' = none := hdead hnone
        simp only [hstill] at ho'
        cases ho'
    · exact hb
  | purge =>
    intro o ho
    refine hb o ?_
    simp only [Household.act, Store.get?_purge] at ho
    split at ho
    · exact ho
    · cases ho
  | size => exact hb
  | suspend => exact hb
  | resume => exact hb
  | deed d => exact hb

theorem Alike.alive (h₁ : h.Alike h') : h.alive = h'.alive := by
  unfold Household.alive
  rw [h₁.objects]

/-- **One move**: both households see the same. -/
theorem Alike.act (hs : h.Alike h') (m : Move) :
    (h.act m).1.uncounted = (h'.act m).1.uncounted ∧ (h.act m).2.Alike (h'.act m).2 := by
  have hsame : ∀ o, h.alive o = h'.alive o := congrFun hs.alive
  suffices hact : (h.act m).1.uncounted = (h'.act m).1.uncounted ∧
      (h.act m).2.objects = (h'.act m).2.objects ∧
      Store.Alike (h.act m).2.alive (h.act m).2.store (h'.act m).2.store from
    ⟨hact.1, hact.2.1, hact.2.2, hs.born.act m, hs.born'.act m⟩
  have hstore := hs.store
  cases m with
  | create =>
    refine ⟨rfl, by simp only [Household.act, hs.objects], hstore.ledger,
      hstore.suspended, hstore.depth,
      fun o ho => ?_⟩
    rcases (alive_create h o).mp ho with rfl | ho
    · -- neither has an entry for what is not there yet
      have hnone : ∀ {h : Household}, h.Born → h.store.objects.get? h.objects.nextId = none := by
        intro h hb
        rw [← Option.not_isSome_iff_eq_none]
        exact fun hsome => Nat.lt_irrefl _ (hb _ hsome)
      have hnone' := hnone hs.born'
      rw [← hs.objects] at hnone'
      exact (hnone hs.born).trans hnone'.symm
    · exact hstore.tracker o ho
  | drop o =>
    exact ⟨rfl, by simp only [Household.act, hs.objects], hstore.ledger,
      hstore.suspended, hstore.depth,
      fun o' ho' => hstore.tracker o' ((alive_drop h o o').mp ho').2⟩
  | ask o a =>
    simp only [Household.act, ← hsame]
    split
    · rename_i halive
      obtain ⟨hreply, halike⟩ := hstore.answer halive a
      rw [← hs.alive]
      exact ⟨congrArg Reply.uncounted hreply, hs.objects, halike⟩
    · exact ⟨rfl, hs.objects, hstore⟩
  | purge =>
    refine ⟨rfl, hs.objects, ?_⟩
    have hpurged := ((Store.alike_purge h.store h.alive).symm.trans hstore).trans
      (Store.alike_purge h'.store h.alive)
    simp only [Household.act, ← hs.alive]
    exact hpurged
  | size => exact ⟨rfl, hs.objects, hstore⟩
  | suspend => exact ⟨rfl, hs.objects, hstore.ledger, congrArg (· + 1) hstore.suspended,
      hstore.depth, hstore.tracker⟩
  | resume => exact ⟨rfl, hs.objects, hstore.ledger, congrArg (· - 1) hstore.suspended,
      hstore.depth, hstore.tracker⟩
  | deed d =>
    exact ⟨rfl, hs.objects, congrArg (fun l => Ledger.after l d) hstore.ledger,
      hstore.suspended, hstore.depth, hstore.tracker⟩

/-- **All moves.** -/
theorem Alike.run (ms : List Move) : ∀ {h h' : Household}, h.Alike h' →
    (h.run ms).1.map Reply.uncounted = (h'.run ms).1.map Reply.uncounted ∧
    (h.run ms).2.Alike (h'.run ms).2 := by
  induction ms with
  | nil => exact fun hs => ⟨rfl, hs⟩
  | cons m ms ih =>
    intro h h' hs
    obtain ⟨hreply, hs'⟩ := hs.act m
    obtain ⟨hreplies, hend⟩ := ih hs'
    simp only [Household.run, List.map_cons]
    exact ⟨by rw [hreply, hreplies], hend⟩

theorem alike_start (n m depth : Nat) : (start ⟨n, depth⟩).Alike (start ⟨m, depth⟩) := by
  have hborn : ∀ settings, (start settings).Born := by
    intro settings o ho
    cases ho
  exact ⟨rfl, ⟨rfl, rfl, rfl, fun _ _ => rfl⟩, hborn _, hborn _⟩

/-! ### One household later -/

/-- **One move of others**: a living object keeps its tracker. -/
theorem kept_act {id : TrackerId} (ho : h.alive o)
    (hid : h.store.objects.get? o = some id) {m : Move} (hm : ¬m.Frees o) :
    (h.act m).2.alive o ∧ (h.act m).2.store.objects.get? o = some id := by
  cases m with
  | create => exact ⟨(alive_create h o).mpr (.inr ho), hid⟩
  | drop o' =>
    have hother : o ≠ o' := by
      rintro rfl
      exact hm (.inl rfl)
    exact ⟨(alive_drop h o' o).mpr ⟨hother, ho⟩, hid⟩
  | ask o' a =>
    simp only [act]
    split
    · rename_i halive
      refine ⟨ho, (Store.Later.answer h.store halive a).kept o id ho ?_ hid⟩
      rintro ⟨rfl, hreplaces⟩
      exact hm (.inr ⟨a, rfl, hreplaces⟩)
    · exact ⟨ho, hid⟩
  | purge => exact ⟨ho, by simp only [act, Store.get?_purge, if_pos ho, hid]⟩
  | size => exact ⟨ho, hid⟩
  | suspend => exact ⟨ho, hid⟩
  | resume => exact ⟨ho, hid⟩
  | deed d => exact ⟨ho, hid⟩

theorem kept_run {id : TrackerId} (ms : List Move) : ∀ {h : Household}, h.alive o →
    h.store.objects.get? o = some id → (∀ m ∈ ms, ¬m.Frees o) →
    (h.run ms).2.alive o ∧ (h.run ms).2.store.objects.get? o = some id := by
  induction ms with
  | nil => exact fun ho hid _ => ⟨ho, hid⟩
  | cons m ms ih =>
    intro h ho hid hms
    obtain ⟨ho', hid'⟩ := kept_act ho hid (hms m List.mem_cons_self)
    exact ih ho' hid' fun m' hm' => hms m' (List.mem_cons_of_mem m hm')

/-- A tracker that is given out is the one the object has. -/
theorem has_of_answer {id : TrackerId} {a : Ask} (ha : a = .tracker ∨ a = .ensure)
    (hanswer : (h.act (.ask o a)).1 = .tracker (some id)) :
    (h.act (.ask o a)).2.alive o ∧ (h.act (.ask o a)).2.store.objects.get? o = some id := by
  simp only [act] at hanswer ⊢
  split at hanswer
  · rename_i halive
    rw [if_pos halive]
    refine ⟨halive, ?_⟩
    have hticked : ∀ s : Store, (s.tick h.alive).objects.get? o = s.objects.get? o := fun s =>
      ((Store.alike_tick s h.alive).tracker o halive).symm
    rcases ha with rfl | rfl
    · simp only [Store.answer, Store.trackerOf] at hanswer ⊢
      split at hanswer
      · rename_i hactive
        rw [if_pos hactive]
        exact Reply.tracker.inj hanswer
      · cases Reply.tracker.inj hanswer
    · simp only [Store.answer, Store.ensureTracker] at hanswer ⊢
      split at hanswer
      · rename_i hactive
        rw [if_pos hactive]
        cases hid : h.store.objects.get? o with
        | some id' =>
          simp only [hid, hticked] at hanswer ⊢
          exact Reply.tracker.inj hanswer
        | none =>
          simp only [hid, hticked] at hanswer ⊢
          rw [WeakMap.get?_insert, if_pos rfl]
          exact Reply.tracker.inj hanswer
      · cases Reply.tracker.inj hanswer
  · cases hanswer

/-- The tracker that an object has is given out. -/
theorem answer_of_has {id : TrackerId} {a : Ask} (ha : a = .tracker ∨ a = .ensure) (ho : h.alive o)
    (hid : h.store.objects.get? o = some id) :
    (h.act (.ask o a)).1 = .tracker (if h.store.isActive then some id else none) := by
  have hticked : (h.store.tick h.alive).objects.get? o = some id :=
    ((Store.alike_tick h.store h.alive).tracker o ho).symm.trans hid
  rcases ha with rfl | rfl
  · simp only [act, if_pos ho, Store.answer, Store.trackerOf]
    split
    · rw [hticked]
    · rfl
  · simp only [act, if_pos ho, Store.answer, Store.ensureTracker, hid]
    split <;> rfl

/-- **One move** counts for what it looks up and inserts. -/
theorem counts_act (h : Household) (m : Move) : (h.act m).2.store.settings = h.store.settings ∧
    (h.store.settings.purgeInterval ≠ 0 →
      (h.act m).2.store.operations = h.store.operations + h.counted m) := by
  cases m with
  | ask o a =>
    simp only [act, counted]
    split
    · rename_i halive
      have hlater := Store.Later.answer h.store halive a
      exact ⟨hlater.settings, hlater.operations⟩
    · exact ⟨rfl, fun _ => rfl⟩
  | create => exact ⟨rfl, fun _ => rfl⟩
  | drop o => exact ⟨rfl, fun _ => rfl⟩
  | purge => exact ⟨rfl, fun _ => rfl⟩
  | size => exact ⟨rfl, fun _ => rfl⟩
  | suspend => exact ⟨rfl, fun _ => rfl⟩
  | resume => exact ⟨rfl, fun _ => rfl⟩
  | deed d => exact ⟨rfl, fun _ => rfl⟩

theorem counts_run (ms : List Move) :
    ∀ h : Household, (h.run ms).2.store.settings = h.store.settings ∧
    (h.store.settings.purgeInterval ≠ 0 →
      (h.run ms).2.store.operations = h.store.operations + h.countedIn ms) := by
  induction ms with
  | nil => exact fun h => ⟨rfl, fun _ => rfl⟩
  | cons m ms ih =>
    intro h
    obtain ⟨hsettings, hcounts⟩ := counts_act h m
    obtain ⟨hsettings', hcounts'⟩ := ih (h.act m).2
    simp only [run, countedIn]
    refine ⟨hsettings'.trans hsettings, fun hinterval => ?_⟩
    rw [hcounts' (hsettings ▸ hinterval), hcounts hinterval, Nat.add_assoc]

/-- What becomes of an object that is gone. -/
structure Gone (o : ObjectId) (h h' : Household) : Prop where
  given : o < h'.objects.nextId
  dead : h'.alive o = false
  empty : h.store.objects.get? o = none → h'.store.objects.get? o = none
  /-- Its entry stays only until the count passes a multiple of the interval. -/
  purged : h'.store.objects.get? o = none ∨
    h'.store.operations / h.store.settings.purgeInterval =
    h.store.operations / h.store.settings.purgeInterval

/-- **One move**: nobody asks for what is gone, and a purge finds it. -/
theorem gone_act (hgiven : o < h.objects.nextId) (hdead : h.alive o = false) (m : Move) :
    Gone o h (h.act m).2 := by
  cases m with
  | create =>
    refine ⟨?_, ?_, id, .inr rfl⟩
    · exact Nat.lt_of_lt_of_eq (Nat.lt_succ_of_lt hgiven) (Table.nextId_add _ _).symm
    · rw [Bool.eq_false_iff]
      intro ho
      rcases (alive_create h o).mp ho with heq | ho
      · exact Nat.ne_of_lt hgiven heq
      · rw [hdead] at ho
        cases ho
  | drop o' =>
    refine ⟨?_, ?_, id, .inr rfl⟩
    · exact Nat.lt_of_lt_of_eq hgiven (Table.nextId_retain _ _).symm
    · rw [Bool.eq_false_iff]
      intro ho
      rw [((alive_drop h o' o).mp ho).2] at hdead
      cases hdead
  | ask o' a =>
    simp only [act]
    split
    · rename_i halive
      have hlater := Store.Later.answer h.store halive a
      exact ⟨hgiven, hdead, hlater.dead o hdead, hlater.purged o hdead⟩
    · exact ⟨hgiven, hdead, id, .inr rfl⟩
  | purge =>
    have hpurged : (h.store.purge h.alive).objects.get? o = none := by
      rw [Store.get?_purge, hdead]
      rfl
    exact ⟨hgiven, hdead, fun _ => hpurged, .inl hpurged⟩
  | size => exact ⟨hgiven, hdead, id, .inr rfl⟩
  | suspend => exact ⟨hgiven, hdead, id, .inr rfl⟩
  | resume => exact ⟨hgiven, hdead, id, .inr rfl⟩
  | deed d => exact ⟨hgiven, hdead, id, .inr rfl⟩

theorem gone_run (ms : List Move) : ∀ {h : Household}, o < h.objects.nextId → h.alive o = false →
    Gone o h (h.run ms).2 := by
  induction ms with
  | nil => exact fun hgiven hdead => ⟨hgiven, hdead, id, .inr rfl⟩
  | cons m ms ih =>
    intro h hgiven hdead
    have hnow := gone_act hgiven hdead m
    have hlater := ih hnow.given hnow.dead
    simp only [run]
    refine ⟨hlater.given, hlater.dead, fun hnone => hlater.empty (hnow.empty hnone), ?_⟩
    rcases hlater.purged with hgone | hsame
    · exact .inl hgone
    · rcases hnow.purged with hgone | hsame'
      · exact .inl (hlater.empty hgone)
      · exact .inr (by rw [← hsame', ← (counts_act h m).1, hsame])

/-- As many counts as the interval says pass a multiple of it. -/
theorem empty_of_interval_le (hgiven : o < h.objects.nextId) (hdead : h.alive o = false)
    {ms : List Move} (hinterval : 0 < h.store.settings.purgeInterval)
    (hcounts : h.store.settings.purgeInterval ≤ h.countedIn ms) :
    (h.run ms).2.store.objects.get? o = none := by
  rcases (gone_run ms hgiven hdead).purged with hnone | hsame
  · exact hnone
  · have hpassed : h.store.operations / h.store.settings.purgeInterval + 1 ≤
        (h.run ms).2.store.operations / h.store.settings.purgeInterval := by
      rw [(counts_run ms h).2 (Nat.ne_of_gt hinterval), ← Nat.add_div_right _ hinterval]
      exact Nat.div_le_div_right (Nat.add_le_add_left hcounts _)
    omega

/-- **Purging is not seen, and it is timely.**  Whatever happens in a household: the answers, but
for the numbers of entries, and the trackers are the same for every interval; an object that was
given a tracker has it as long as it lives and nobody takes it away or gives it another one, and is
given no other meanwhile; and once an object is gone, its entry is gone after as many lookups and
insertions as the interval says, which are counted as they are made. -/
theorem purging (n m depth : Nat) (ms : List Move) :
    (((start ⟨n, depth⟩).run ms).1.map Reply.uncounted =
      ((start ⟨m, depth⟩).run ms).1.map Reply.uncounted ∧
      ((start ⟨n, depth⟩).run ms).2.store.ledger = ((start ⟨m, depth⟩).run ms).2.store.ledger) ∧
    (∀ (h : Household) (o : ObjectId) (id : TrackerId) (a a' : Ask), a = .tracker ∨ a = .ensure →
      a' = .tracker ∨ a' = .ensure → (h.act (.ask o a)).1 = .tracker (some id) →
      (∀ m ∈ ms, ¬m.Frees o) → (((h.act (.ask o a)).2.run ms).2.act (.ask o a')).1 =
        .tracker (if ((h.act (.ask o a)).2.run ms).2.store.isActive then some id else none)) ∧
    (∀ h : Household, 0 < h.store.settings.purgeInterval →
      (h.run ms).2.store.operations = h.store.operations + h.countedIn ms ∧
      ∀ o < h.objects.nextId, h.alive o = false → h.store.settings.purgeInterval ≤ h.countedIn ms →
        (h.run ms).2.store.objects.get? o = none) := by
  refine ⟨?_, ?_, ?_⟩
  · obtain ⟨hreplies, hend⟩ := (alike_start n m depth).run ms
    exact ⟨hreplies, hend.store.ledger⟩
  · intro h o id a a' ha ha' hanswer hms
    obtain ⟨halive, hid⟩ := has_of_answer ha hanswer
    obtain ⟨halive', hid'⟩ := kept_run ms halive hid hms
    exact answer_of_has ha' halive' hid'
  · intro h hinterval
    exact ⟨(counts_run ms h).2 (Nat.ne_of_gt hinterval), fun o hgiven hdead hcounts =>
      empty_of_interval_le hgiven hdead hinterval hcounts⟩

/-- Two objects get trackers, and one of them goes. -/
def parting : List Move := [.create, .create, .ask 1 .ensure, .ask 2 .ensure, .drop 1]

/-- A household that purges every third time, after the first object is gone. -/
def widowed : Household := ((start ⟨3, 16⟩).run parting).2

/-- Three lookups, while nobody takes the tracker of the second object away. -/
def lookups : List Move := [.ask 2 .tracker, .ask 1 .ensure, .ask 2 (.setSource 0 1 none 0)]

instance (m : Move) (o : ObjectId) : Decidable (m.Frees o) :=
  match m with
  | .drop o' => decidable_of_iff (o' = o) ⟨fun h => .inl (h ▸ rfl), fun h => by
      rcases h with h | ⟨a, h, -⟩
      · exact Move.drop.inj h
      · cases h⟩
  | .ask o' a =>
    decidable_of_iff (o' = o ∧ a.replaces) ⟨fun h => .inr ⟨a, h.1 ▸ rfl, h.2⟩, fun h => by
      rcases h with h | ⟨a', h, ha⟩
      · cases h
      · obtain ⟨rfl, rfl⟩ := Move.ask.inj h
        exact ⟨rfl, ha⟩⟩
  | .create | .purge | .size | .suspend | .resume | .deed _ => .isFalse fun h => by
      rcases h with h | ⟨a, h, -⟩ <;> cases h

theorem purging_widowed :
    ((((start ⟨3, 16⟩).run (parting ++ lookups)).1.map Reply.uncounted =
        ((start ⟨0, 16⟩).run (parting ++ lookups)).1.map Reply.uncounted ∧
      ((start ⟨3, 16⟩).run (parting ++ lookups)).2.store.ledger =
        ((start ⟨0, 16⟩).run (parting ++ lookups)).2.store.ledger)) ∧
    ((widowed.act (.ask 2 .ensure)).1 = .tracker (some 2) ∧ (∀ m ∈ lookups, ¬m.Frees 2) ∧
      (((widowed.act (.ask 2 .ensure)).2.run lookups).2.act (.ask 2 .tracker)).1 =
        .tracker (if ((widowed.act (.ask 2 .ensure)).2.run lookups).2.store.isActive then
          some 2 else none)) ∧
    (0 < widowed.store.settings.purgeInterval ∧ 1 < widowed.objects.nextId ∧
      widowed.alive 1 = false ∧ widowed.store.settings.purgeInterval ≤ widowed.countedIn lookups ∧
      (widowed.run lookups).2.store.objects.get? 1 = none) := by
  obtain ⟨-, hkept, htimely⟩ := purging 3 0 16 lookups
  refine ⟨(purging 3 0 16 (parting ++ lookups)).1, ⟨by decide, by decide, ?_⟩, by decide, by decide,
    by decide, by decide, ?_⟩
  · exact hkept widowed 2 2 .ensure .tracker (.inr rfl) (.inl rfl) (by decide) (by decide)
  · exact (htimely widowed (by decide)).2 1 (by decide) (by decide) (by decide)

end Household

end Provenance
