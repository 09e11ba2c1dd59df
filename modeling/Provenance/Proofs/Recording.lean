/-
# Recording where data came from

A ledger says of each tracker which of its indices came from where (`Ledger.sourceAt`).  Recording
a range of a tracker changes what is said of that range and nothing else, and what is said then is
what the source said before (`setSource_updated`): also where a tracker is its own source and the
two ranges overlap, since all stretches of the source are read before the first one is written.

A source that records parts is read through, so its gaps are copied like its parts; any other source
stands for itself (`Ledger.reads`).
-/
import Provenance.Proofs.PartMap
import Provenance.Store.Ledger

namespace Provenance.Ledger

/-! ## 1. Ledgers that come about -/

/-- The ledgers to which the operations on trackers lead. -/
inductive Reachable : Ledger → Prop where
  | empty : Reachable .empty
  | add {l : Ledger} (h : Reachable l) (role : Role) (content : List UInt8)
      (descriptor : Option String) : Reachable (l.add (.new role content descriptor)).2
  | twins {l : Ledger} (h : Reachable l) (descriptor : String) : Reachable (l.twins descriptor).2.2
  | initTwin {l l' : Ledger} (h : Reachable l) {first second : TrackerId}
      (hlink : l.initTwin first second = .ok l') : Reachable l'
  | append {l l' : Ledger} (h : Reachable l) {id : TrackerId} {data : List UInt8}
      (happend : l.append id data = .ok l') : Reachable l'
  | setDescriptor {l : Ledger} (h : Reachable l) (id : TrackerId) (descriptor : String) :
      Reachable (l.setDescriptor id descriptor)
  | setSource {l l' : Ledger} (h : Reachable l) {id index length sourceIndex : Nat}
      {source : Option TrackerId} (hset : l.setSource id index length source sourceIndex = .ok l') :
      Reachable l'
  | retain {l : Ledger} (h : Reachable l) (roots : List TrackerId) : Reachable (l.retain roots)

/-- Every tracker has its parts in order. -/
def Ordered (l : Ledger) : Prop := ∀ id t, l.tracker? id = some t → Parts.Ordered t.parts

/-! ## 2. Looking at single trackers -/

@[simp] theorem tracker?_modifyTracker (l : Ledger) (id other : TrackerId) (f : Tracker → Tracker) :
    (l.modifyTracker id f).tracker? other =
      if id = other then (l.tracker? other).map f else l.tracker? other :=
  Table.get?_modify l.trackers f id other

@[simp] theorem tracker?_add (l : Ledger) (t : Tracker) (id : TrackerId) :
    (l.add t).2.tracker? id = if id = l.trackers.nextId then some t else l.tracker? id :=
  Table.get?_add l.trackers t id

/-- What is retained is as it was. -/
theorem tracker?_retain {l : Ledger} {roots : List TrackerId} {id : TrackerId} {t : Tracker}
    (h : (l.retain roots).tracker? id = some t) : l.tracker? id = some t := by
  unfold retain tracker? at h
  rw [Table.get?_retain] at h
  split at h
  · exact h
  · exact absurd h (by simp)

/-! ## 3. One step -/

/-- What looking up an index reads of a tracker: its role, its parts, and how long it is if that
never changes. -/
def traced (t : Tracker) : Role × List Part × Option Nat :=
  (t.role, t.parts, if t.role = .fixed then some t.content.length else none)

/-- Two ledgers in which every index is looked up alike. -/
def Alike (l l' : Ledger) : Prop := ∀ id, (l'.tracker? id).map traced = (l.tracker? id).map traced

namespace Alike

variable {l l' l'' : Ledger}

theorem refl : l.Alike l := fun _ => rfl

theorem trans (h : l.Alike l') (h' : l'.Alike l'') : l.Alike l'' := fun id => (h' id).trans (h id)

/-- A change of one tracker that leaves what is looked up in it. -/
theorem modify (l : Ledger) (id : TrackerId) {f : Tracker → Tracker}
    (hf : ∀ t, l.tracker? id = some t → traced (f t) = traced t) :
    l.Alike (l.modifyTracker id f) := by
  intro other
  rw [tracker?_modifyTracker]
  split
  · rename_i hid
    subst hid
    cases ht : l.tracker? id with
    | none => rfl
    | some t => exact congrArg some (hf t ht)
  · rfl

theorem link (l : Ledger) (first second : TrackerId) : l.Alike (l.link first second) := by
  have hstarted : l.Alike { l with conversations := l.conversations.add (.start first second) } :=
    fun _ => rfl
  unfold Ledger.link
  refine hstarted.trans ((modify _ first ?_).trans (modify _ second ?_))
  all_goals
    intro t _
    rfl

theorem initTwin {first second : TrackerId} (h : l.initTwin first second = .ok l') :
    l.Alike l' := by
  unfold Ledger.initTwin at h
  (repeat' split at h) <;> cases h
  exact link l first second

/-- Content only grows in trackers that are read at any index. -/
theorem append {id : TrackerId} {data : List UInt8} (h : l.append id data = .ok l') :
    l.Alike l' := by
  unfold Ledger.append at h
  split at h
  · cases h
    exact refl
  · rename_i t ht
    split at h
    · rename_i haccepts
      cases h
      have hnoted : ∀ noted : Ledger, noted.trackers = l.trackers →
          l.Alike (noted.modifyTracker id fun t => { t with content := t.content ++ data }) := by
        intro noted hsame
        have htracker : ∀ other, noted.tracker? other = l.tracker? other := fun other => by
          simp only [tracker?, hsame]
        have halike : l.Alike noted := fun other => by rw [htracker]
        refine halike.trans (modify noted id fun t' ht' => ?_)
        rw [htracker, ht] at ht'
        cases ht'
        have hrole : t.role ≠ .fixed :=
          fun hfixed => by simp [hfixed, Role.acceptsContent] at haccepts
        simp [traced, hrole]
      refine hnoted _ ?_
      split <;> rfl
    · exact absurd h (by simp)

end Alike

/-- What a copy of a range writes: what the range of the source is made of, or a gap. -/
def copied (l : Ledger) (source : Option TrackerId) (sourceIndex length : Nat) : List Stretch :=
  match source with
  | none => [⟨length, none⟩]
  | some source => l.stretches source sourceIndex length

/-- **What one operation does** to what is looked up in a ledger. -/
inductive Step (l l' : Ledger) : Prop where
  /-- A tracker without parts comes into being. -/
  | added (role : Role) (content : List UInt8) (descriptor : Option String)
      (h : l' = (l.add (.new role content descriptor)).2)
  | kept (h : l.Alike l')
  /-- One tracker that records parts has a range overwritten. -/
  | recorded (id index : Nat) (source : Option TrackerId) (sourceIndex length : Nat) {t : Tracker}
      (ht : l.tracker? id = some t) (hrole : t.role.recordsParts = true)
      (h : l' = l.modifyTracker id fun t =>
        { t with parts := Parts.recordAll index t.parts (l.copied source sourceIndex length) })
  | retained (roots : List TrackerId) (h : l' = l.retain roots)

/-- Recording leaves a ledger as it is or overwrites a range of one tracker that records parts. -/
theorem setSource_cases {l l' : Ledger} {id index length sourceIndex : Nat}
    {source : Option TrackerId} (h : l.setSource id index length source sourceIndex = .ok l') :
    l' = l ∨ ∃ t, l.tracker? id = some t ∧ t.role.recordsParts = true ∧
      l' = l.modifyTracker id fun t =>
        { t with parts := Parts.recordAll index t.parts (l.copied source sourceIndex length) } := by
  unfold setSource at h
  split at h
  · cases h
    exact .inl rfl
  · rename_i t ht
    split at h
    · rename_i hrole
      split at h
      · cases h
        exact .inl rfl
      · cases h
        exact .inr ⟨t, ht, hrole, rfl⟩
    · exact absurd h (by simp)

theorem step_setSource {l l' : Ledger} {id index length sourceIndex : Nat}
    {source : Option TrackerId} (h : l.setSource id index length source sourceIndex = .ok l') :
    l.Step l' := by
  obtain rfl | ⟨t, ht, hrole, hl'⟩ := setSource_cases h
  · exact .kept .refl
  · exact .recorded id index source sourceIndex length ht hrole hl'

/-- **What every step keeps holds of every ledger that comes about.** -/
theorem Reachable.of_steps {P : Ledger → Prop} (hempty : P .empty)
    (hstep : ∀ l l', P l → l.Step l' → P l') {l : Ledger} (h : l.Reachable) : P l := by
  have hadd : ∀ {l : Ledger} (role : Role) (content : List UInt8)
        (descriptor : Option String), P l →
      P (l.add (.new role content descriptor)).2 := fun role content descriptor hl =>
    hstep _ _ hl (.added role content descriptor rfl)
  induction h with
  | empty => exact hempty
  | add _ role content descriptor ih => exact hadd role content descriptor ih
  | twins _ descriptor ih =>
    exact hstep _ _ (hadd _ _ _ (hadd _ _ _ ih)) (.kept (.link _ _ _))
  | initTwin _ hlink ih => exact hstep _ _ ih (.kept (.initTwin hlink))
  | append _ happend ih => exact hstep _ _ ih (.kept (.append happend))
  | setDescriptor _ id descriptor ih =>
    exact hstep _ _ ih (.kept (.modify _ id fun _ _ => rfl))
  | setSource _ hset ih => exact hstep _ _ ih (step_setSource hset)
  | retain _ roots ih => exact hstep _ _ ih (.retained roots rfl)

/-- A tracker of a ledger that looks alike. -/
theorem Alike.tracker {l l' : Ledger} (h : l.Alike l') {id : TrackerId} {t' : Tracker}
    (ht' : l'.tracker? id = some t') : ∃ t, l.tracker? id = some t ∧ traced t = traced t' := by
  have := h id
  rw [ht'] at this
  exact Option.map_eq_some_iff.mp this.symm

/-- **What recording keeps holds of the parts of every tracker**, whatever was done. -/
theorem Reachable.parts {P : List Part → Prop} (hnil : P [])
    (hrecord : ∀ ss ps index, P ps → P (Parts.recordAll index ps ss)) {l : Ledger}
    (h : l.Reachable) :
    ∀ id t, l.tracker? id = some t → P t.parts := by
  refine h.of_steps (P := fun l => ∀ id t, l.tracker? id = some t → P t.parts)
    (fun id t ht => by simp [tracker?, Ledger.empty] at ht) fun l l' hl hstep id t ht => ?_
  cases hstep with
  | added role content descriptor h =>
    subst h
    rw [tracker?_add] at ht
    split at ht
    · cases ht
      exact hnil
    · exact hl id t ht
  | kept h =>
    obtain ⟨t₀, ht₀, hsame⟩ := h.tracker ht
    have hparts : t₀.parts = t.parts := congrArg (·.2.1) hsame
    exact hparts ▸ hl id t₀ ht₀
  | recorded other index source sourceIndex length ht' hrole h =>
    subst h
    rw [tracker?_modifyTracker] at ht
    split at ht
    · obtain ⟨t₀, ht₀, rfl⟩ := Option.map_eq_some_iff.mp ht
      exact hrecord _ _ _ (hl id t₀ ht₀)
    · exact hl id t ht
  | retained roots h =>
    subst h
    exact hl id t (tracker?_retain ht)

/-- **All parts are in order**, whatever was done. -/
theorem Reachable.ordered {l : Ledger} (h : l.Reachable) : l.Ordered :=
  h.parts .nil fun ss _ index hps => hps.recordAll ss index

/-! ## 4. What a copy reads and writes -/

/-- Where the value at an index of a tracker came from. -/
def sourceAt (l : Ledger) (id : TrackerId) (i : Nat) : Option Place := Parts.sourceAt (l.parts id) i

/-- What a copy of an index of a source says of the copied value: where the source has it from, if
the source records parts; else the place itself. -/
def reads (l : Ledger) (source : TrackerId) (i : Nat) : Option Place :=
  match l.tracker? source with
  | none => none
  | some t => if t.role.recordsParts then l.sourceAt source i else some ⟨source, i⟩

/-- The stretches of a source, index by index. -/
theorem placeAt_stretches {l : Ledger} (hl : l.Ordered) (source : TrackerId) (index length : Nat) :
    Parts.extent (l.stretches source index length) = length ∧
      ∀ i, i < length → Parts.placeAt (l.stretches source index length) i =
        l.reads source (index + i) := by
  unfold stretches reads sourceAt parts
  cases ht : l.tracker? source with
  | none => simp [Parts.placeAt, Parts.advance]
  | some t =>
    simp only
    split
    · obtain ⟨hextent, hplace⟩ :=
        Parts.placeAt_window (hl source t ht) (Nat.le_add_right index length)
      rw [Nat.add_sub_cancel_left] at hextent hplace
      exact ⟨hextent, hplace⟩
    · refine ⟨by simp, fun i hi => ?_⟩
      simp [Parts.placeAt, Parts.advance, hi]

/-- What a tracker says of a range after stretches were written there. -/
theorem sourceAt_recordAll {l : Ledger} {id : TrackerId} {t : Tracker} (ht : l.tracker? id = some t)
    (index : Nat) (ss : List Stretch) (i : Nat) :
    (l.modifyTracker id fun t =>
      { t with parts := Parts.recordAll index t.parts ss }).sourceAt id i =
      if index ≤ i ∧ i < index + Parts.extent ss then Parts.placeAt ss (i - index)
      else l.sourceAt id i := by
  unfold sourceAt parts
  rw [tracker?_modifyTracker, if_pos rfl, ht]
  exact Parts.sourceAt_recordAll ss index t.parts i

/-- How a ledger looks after an update of one tracker: that tracker says of a range what is given,
and everything else is as it was. -/
structure Updated (l l' : Ledger) (id : TrackerId) (index length : Nat)
    (given : Nat → Option Place) : Prop where
  inside : ∀ i, i < length → l'.sourceAt id (index + i) = given i
  outside : ∀ i, i < index ∨ index + length ≤ i → l'.sourceAt id i = l.sourceAt id i
  /-- Nothing but the parts of the tracker changes. -/
  same : ∃ t parts, l.tracker? id = some t ∧ l'.tracker? id = some { t with parts }
  others : ∀ other, other ≠ id → l'.tracker? other = l.tracker? other
  conversations : l'.conversations = l.conversations

/-- A tracker that records no parts refuses. -/
theorem setSource_refused {l : Ledger} {id : TrackerId} {t : Tracker} (ht : l.tracker? id = some t)
    (hrole : t.role.recordsParts = false) (index length : Nat) (source : Option TrackerId)
    (sourceIndex : Nat) :
    l.setSource id index length source sourceIndex = .error (.immutable id t.role) := by
  simp [setSource, ht, hrole]

/-- A tracker that records parts takes over what the source says. -/
theorem setSource_updated {l : Ledger} (hl : l.Reachable) {id : TrackerId} {t : Tracker}
    (ht : l.tracker? id = some t) (hrole : t.role.recordsParts = true) (index length : Nat)
    (source : Option TrackerId) (sourceIndex : Nat) :
    ∃ l', l.setSource id index length source sourceIndex = .ok l' ∧
      l.Updated l' id index length fun i => source.bind fun s => l.reads s (sourceIndex + i) := by
  unfold setSource
  simp only [ht]
  rw [if_pos hrole]
  split
  · rename_i hlength
    refine ⟨l, rfl,
      ⟨fun i hi => by omega, fun _ _ => rfl, ⟨t, t.parts, ht, ht⟩, fun _ _ => rfl, rfl⟩⟩
  · -- the stretches are made of the ledger before anything is written
    have hmade : ∀ ss : List Stretch, Parts.extent ss = length →
        (∀ i, i < length → Parts.placeAt ss i = source.bind fun s => l.reads s (sourceIndex + i)) →
        l.Updated
          (l.modifyTracker id fun t => { t with parts := Parts.recordAll index t.parts ss }) id
          index length fun i => source.bind fun s => l.reads s (sourceIndex + i) := by
      intro ss hextent hplace
      refine ⟨fun i hi => ?_, fun i hi => ?_, ⟨t, Parts.recordAll index t.parts ss, ht, ?_⟩,
        fun other hother => ?_, rfl⟩
      · rw [sourceAt_recordAll ht, hextent, if_pos (by omega), Nat.add_sub_cancel_left, hplace i hi]
      · rw [sourceAt_recordAll ht, hextent, if_neg (by omega)]
      · simp [ht]
      · rw [tracker?_modifyTracker, if_neg (Ne.symm hother)]
    refine ⟨_, rfl, hmade _ ?_ ?_⟩
    · cases source with
      | none => simp
      | some s => exact (placeAt_stretches hl.ordered s sourceIndex length).1
    · intro i hi
      cases source with
      | none => simp [Parts.placeAt, Parts.advance]
      | some s => exact (placeAt_stretches hl.ordered s sourceIndex length).2 i hi

end Provenance.Ledger
