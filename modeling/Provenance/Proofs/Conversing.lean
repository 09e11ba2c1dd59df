/-
# What twins say to each other

The two trackers of a channel receive their contents in turns, and every switch of sides leaves a
marker.  Contents and markers together tell the whole conversation: cut at the markers and read in
turns (`Conversation.retold`), the contents give every byte in the order in which it arrived
(`Ledger.twins_retold`).

The first turn leaves no marker, and a turn may bring nothing; so the side that began is the one
that is not the receiver of the first marker, or, without a marker, the only one that received
anything.

Two inductions carry this.  One is on the turns, which an append prolongs by a piece of content or
by a marker and a piece (`Turns.grow`, `Turns.switch_to`).  The other is on everything that is done
to the ledger meanwhile (`Ledger.Deed`), none of which touches a channel but what is said on it.
-/
import Mathlib.Data.List.Chain
import Provenance.Proofs.Flatness

namespace Provenance

/-! ## 1. Reading a conversation -/

/-- Bytes in the order of their arrival, each with the tracker that received it. -/
abbrev Spoken := List (TrackerId × UInt8)

namespace Spoken

/-- Bytes that all go to one tracker. -/
def turn (id : TrackerId) (data : List UInt8) : Spoken := data.map fun byte => (id, byte)

/-- The bytes that one tracker received. -/
def received (s : Spoken) (id : TrackerId) : List UInt8 := (s.filter fun e => e.1 = id).map Prod.snd

theorem turn_append (id : TrackerId) (data more : List UInt8) :
    turn id (data ++ more) = turn id data ++ turn id more := List.map_append

theorem received_turn (id id' : TrackerId) (data : List UInt8) :
    received (turn id data) id' = if id' = id then data else [] := by
  induction data with
  | nil => simp [turn, received]
  | cons byte data ih =>
    simp only [turn, received] at ih ⊢
    by_cases h : id' = id
    · subst h
      simpa using ih
    · simp [h, Ne.symm h]

theorem received_append_turn (s : Spoken) (id id' : TrackerId) (data : List UInt8) :
    received (s ++ turn id data) id' = if id' = id then received s id' ++ data
      else received s id' := by
  have hturn := received_turn id id' data
  unfold received at hturn ⊢
  rw [List.filter_append, List.map_append, hturn]
  split <;> simp

end Spoken

/-- How long a side was when a marker was left. -/
def Marker.position (m : Marker) (id : TrackerId) : Nat :=
  if id = m.receiver then m.receiverIndex else m.otherIndex

namespace Conversation

open Spoken

/-- What lies between two places of a content. -/
def piece (content : TrackerId → List UInt8) (id : TrackerId) (start stop : Nat) : Spoken :=
  turn id (((content id).take stop).drop start)

/-- The contents read in turns, beginning with a side at a place: a marker ends the turn of that
side and begins the one of its receiver. -/
def inTurns (content : TrackerId → List UInt8) : TrackerId → Nat → List Marker → Spoken
  | id, start, [] => piece content id start (content id).length
  | id, start, m :: ms =>
    piece content id start (m.position id) ++ inTurns content m.receiver (m.position m.receiver) ms

/-- The side that began. -/
def opening (c : Conversation) (content : TrackerId → List UInt8) : TrackerId :=
  match c.markers with
  | m :: _ => c.otherOf m.receiver
  | [] => if content c.first = [] then c.second else c.first

/-- The conversation as its markers and the two contents tell it. -/
def retold (c : Conversation) (content : TrackerId → List UInt8) : Spoken :=
  inTurns content (c.opening content) 0 c.markers

/-! ## 2. Turns -/

/-- Markers that fit the contents: the first turn is of a side from a place on, the last one is of
the speaker, and no marker stands beyond what its side had received. -/
inductive Turns (content : TrackerId → List UInt8) (speaker : TrackerId) :
    TrackerId → Nat → List Marker → Prop where
  | last {start : Nat} (hstart : start ≤ (content speaker).length) :
      Turns content speaker speaker start []
  | switch {id : TrackerId} {start : Nat} {m : Marker} {ms : List Marker} (hne : m.receiver ≠ id)
      (hstop : m.position id ≤ (content id).length)
      (hrest : Turns content speaker m.receiver (m.position m.receiver) ms) :
      Turns content speaker id start (m :: ms)

namespace Turns

variable {content content' : TrackerId → List UInt8} {speaker id : TrackerId} {start : Nat}
  {ms : List Marker}

/-- **The speaker goes on**: what it receives comes last. -/
theorem grow {data : List UInt8} (hown : content' speaker = content speaker ++ data)
    (hothers : ∀ other, other ≠ speaker → content' other = content other)
    (h : Turns content speaker id start ms) : Turns content' speaker id start ms ∧
      inTurns content' id start ms = inTurns content id start ms ++ turn speaker data := by
  induction h with
  | last hstart =>
    constructor
    · exact .last (by rw [hown, List.length_append]; omega)
    · simp only [inTurns, piece, hown, List.take_length]
      rw [List.drop_append_of_le_length hstart, turn_append]
  | @switch id start m ms hne hstop hrest ih =>
    obtain ⟨hturns, hread⟩ := ih
    -- what was said before a marker stays where it is
    have hkept : m.position id ≤ (content' id).length ∧
        (content' id).take (m.position id) = (content id).take (m.position id) := by
      by_cases hid : id = speaker
      · subst hid
        rw [hown]
        exact ⟨by rw [List.length_append]; omega, List.take_append_of_le_length hstop⟩
      · rw [hothers id hid]
        exact ⟨hstop, rfl⟩
    constructor
    · exact .switch hne hkept.1 hturns
    · simp only [inTurns, piece, hkept.2, hread, List.append_assoc]

/-- **The other side begins**: a marker where both have got to says nothing by itself. -/
theorem switch_to {m : Marker} (hne : m.receiver ≠ speaker)
    (hold : m.position speaker = (content speaker).length)
    (hnew : m.position m.receiver = (content m.receiver).length)
    (h : Turns content speaker id start ms) : Turns content m.receiver id start (ms ++ [m]) ∧
      inTurns content id start (ms ++ [m]) = inTurns content id start ms := by
  induction h with
  | last hstart =>
    constructor
    · exact .switch hne (Nat.le_of_eq hold) (.last (Nat.le_of_eq hnew))
    · simp [inTurns, piece, hold, hnew, turn]
  | switch hother hstop hrest ih =>
    obtain ⟨hturns, hread⟩ := ih
    constructor
    · exact .switch hother hstop hturns
    · simp only [List.cons_append, inTurns, hread]

theorem alternate (h : Turns content speaker id start ms) :
    ms.IsChain fun m m' => m'.receiver ≠ m.receiver := by
  induction h with
  | last => exact .nil
  | switch hne hstop hrest ih =>
    cases hrest with
    | last => exact .singleton _
    | switch hne' _ _ => exact .cons_cons hne' ih

end Turns

/-! ## 3. One turn -/

/-- One of the two trackers of a conversation. -/
def Side (c : Conversation) (id : TrackerId) : Prop := id = c.first ∨ id = c.second

/-- A conversation whose markers tell what was said. -/
structure Tells (c : Conversation) (s : Spoken) : Prop where
  unbegun : c.previous = none → s = [] ∧ c.markers = []
  begun : ∀ speaker, c.previous = some speaker → ∃ opener, c.Side opener ∧ c.Side speaker ∧
    Turns (received s) speaker opener 0 c.markers ∧ inTurns (received s) opener 0 c.markers = s
  /-- Without a marker only one side has spoken. -/
  silent : c.markers = [] → ∀ id, c.Side id → c.previous ≠ some id → received s id = []
  sides : ∀ m ∈ c.markers, c.Side m.receiver
  within : ∀ id, c.Side id → ∀ m ∈ c.markers, m.position id ≤ (received s id).length
  ascending : ∀ id, c.Side id → (c.markers.map fun m => m.position id).Pairwise (· ≤ ·)

variable {c : Conversation} {s : Spoken} {id : TrackerId}

theorem eq_otherOf (hid : c.Side id) {other : TrackerId} (hother : c.Side other)
    (hne : other ≠ id) :
    other = c.otherOf id := by
  unfold otherOf
  rcases hid with rfl | rfl <;> rcases hother with rfl | rfl
  · exact absurd rfl hne
  · rw [if_pos rfl]
  · rw [if_neg (Ne.symm hne)]
  · exact absurd rfl hne

theorem otherOf_side (c : Conversation) (id : TrackerId) : c.Side (c.otherOf id) := by
  unfold otherOf
  split
  · exact .inr rfl
  · exact .inl rfl

theorem tells_start (first second : TrackerId) : (start first second).Tells [] where
  unbegun := fun _ => ⟨rfl, rfl⟩
  begun := nofun
  silent := fun _ _ _ _ => rfl
  sides := nofun
  within := nofun
  ascending := fun _ _ => .nil

/-- The marker that a switch of sides leaves says how long both sides are. -/
theorem position_of_switch (hid : c.Side id) {other : TrackerId} (hother : c.Side other) :
    Marker.position ⟨id, (received s id).length, (received s (c.otherOf id)).length⟩ other =
      (received s other).length := by
  unfold Marker.position
  split
  · rename_i h
    rw [h]
  · rename_i h
    rw [eq_otherOf hid hother h]

/-- **One turn**: what a conversation notes before a side receives something tells it. -/
theorem Tells.note (h : c.Tells s) (hid : c.Side id) (data : List UInt8) :
    (c.note id (received s id).length (received s (c.otherOf id)).length).Tells
      (s ++ turn id data) := by
  have hgrown : ∀ other, (received s other).length ≤
      (received (s ++ turn id data) other).length := by
    intro other
    rw [received_append_turn]
    split
    · rw [List.length_append]
      omega
    · omega
  have hown : received (s ++ turn id data) id = received s id ++ data := by
    rw [received_append_turn, if_pos rfl]
  have hothers : ∀ other, other ≠ id → received (s ++ turn id data) other = received s other := by
    intro other hother
    rw [received_append_turn, if_neg hother]
  cases hprevious : c.previous with
  | none =>
    obtain ⟨rfl, hmarkers⟩ := h.unbegun hprevious
    have hbegun : Turns (received ([] ++ turn id data)) id id 0 c.markers ∧
        inTurns (received ([] ++ turn id data)) id 0 c.markers = [] ++ turn id data := by
      rw [hmarkers]
      exact ⟨.last (Nat.zero_le _), by simp [inTurns, piece, received_turn]⟩
    unfold Conversation.note
    simp only [hprevious, Bool.false_eq_true, if_false]
    refine ⟨nofun, fun speaker hspeaker => ?_, fun _ other _ hother => ?_, h.sides, ?_,
      h.ascending⟩
    · obtain rfl := Option.some.inj hspeaker
      exact ⟨id, hid, hid, hbegun⟩
    · exact hothers other fun heq => hother (congrArg some heq.symm)
    · intro other _ m hm
      rw [hmarkers] at hm
      cases hm
  | some speaker =>
    obtain ⟨opener, hopener, hspeaker, hturns, hread⟩ := h.begun speaker hprevious
    by_cases hsame : speaker = id
    · subst hsame
      obtain ⟨hturns', hread'⟩ := hturns.grow hown hothers
      unfold Conversation.note
      simp only [hprevious, bne_self_eq_false, Bool.false_eq_true, if_false]
      refine ⟨nofun, fun other hother => ?_, fun hnone other hside hother => ?_, h.sides, ?_,
        h.ascending⟩
      · obtain rfl := Option.some.inj hother
        exact ⟨opener, hopener, hspeaker, hturns', by rw [hread', hread]⟩
      · rw [hothers other fun heq => hother (congrArg some heq.symm)]
        exact h.silent hnone other hside (hprevious ▸ hother)
      · exact fun other hside m hm => Nat.le_trans (h.within other hside m hm) (hgrown other)
    · have hposition : ∀ other, c.Side other →
          Marker.position ⟨id, (received s id).length, (received s (c.otherOf id)).length⟩ other =
            (received s other).length := fun _ hother => position_of_switch hid hother
      obtain ⟨hswitched, hsilent⟩ := hturns.switch_to
        (m := ⟨id, (received s id).length, (received s (c.otherOf id)).length⟩) (Ne.symm hsame)
        (hposition speaker hspeaker) (hposition id hid)
      obtain ⟨hturns', hread'⟩ := hswitched.grow hown hothers
      unfold Conversation.note
      simp only [hprevious, bne_iff_ne, ne_eq, hsame, not_false_eq_true, if_true]
      refine ⟨nofun, fun other hother => ?_, fun hnone => by simp at hnone, fun m hm => ?_,
        fun other hside m hm => ?_, fun other hside => ?_⟩
      · obtain rfl := Option.some.inj hother
        exact ⟨opener, hopener, hid, hturns', by rw [hread', hsilent, hread]⟩
      · rcases List.mem_append.mp hm with hm | hm
        · exact h.sides m hm
        · rw [List.mem_singleton.mp hm]
          exact hid
      · refine Nat.le_trans ?_ (hgrown other)
        rcases List.mem_append.mp hm with hm | hm
        · exact h.within other hside m hm
        · rw [List.mem_singleton.mp hm]
          exact Nat.le_of_eq (hposition other hside)
      · -- no marker stands beyond the lengths that the new one gives
        rw [List.map_append, List.pairwise_append]
        refine ⟨h.ascending other hside, by simp, fun a ha b hb => ?_⟩
        obtain ⟨m, hm, rfl⟩ := List.mem_map.mp ha
        rw [List.map_singleton, List.mem_singleton] at hb
        rw [hb]
        exact Nat.le_trans (h.within other hside m hm) (Nat.le_of_eq (hposition other hside).symm)

/-- **A conversation that tells what was said gives it back.** -/
theorem Tells.retold (h : c.Tells s) (hne : c.first ≠ c.second) : c.retold (received s) = s := by
  unfold Conversation.retold opening
  cases hprevious : c.previous with
  | none =>
    obtain ⟨rfl, hmarkers⟩ := h.unbegun hprevious
    simp [hmarkers, inTurns, piece, received, turn]
  | some speaker =>
    obtain ⟨opener, hopener, hspeaker, hturns, hread⟩ := h.begun speaker hprevious
    cases hmarkers : c.markers with
    | cons m ms =>
      rw [hmarkers] at hturns hread
      cases hturns with
      | switch hother _ _ =>
        have hfirst : opener = c.otherOf m.receiver :=
          eq_otherOf (h.sides m (by simp [hmarkers])) hopener (Ne.symm hother)
        simp only
        rw [← hfirst, hread]
    | nil =>
      rw [hmarkers] at hturns hread
      cases hturns with
      | last _ =>
        have hsilent := h.silent hmarkers
        rw [hprevious] at hsilent
        simp only
        split
        · -- the first side has received nothing, so the second side has all there is
          rename_i hfirst
          rcases hspeaker with rfl | rfl
          · have hsecond := hsilent c.second (.inr rfl) fun h => hne (Option.some.inj h)
            have hnothing : inTurns (received s) c.second 0 [] =
                inTurns (received s) c.first 0 [] := by
              simp [inTurns, piece, hfirst, hsecond, turn]
            rw [hnothing, hread]
          · exact hread
        · rename_i hfirst
          rcases hspeaker with rfl | rfl
          · exact hread
          · exact absurd (hsilent c.first (.inl rfl) fun h => hne (Option.some.inj h).symm) hfirst

theorem inTurns_congr {content content' : TrackerId → List UInt8} {ms : List Marker} :
    ∀ {id : TrackerId} {start : Nat}, content id = content' id →
      (∀ m ∈ ms, content m.receiver = content' m.receiver) →
      inTurns content id start ms = inTurns content' id start ms := by
  induction ms with
  | nil =>
    intro id start hid _
    simp only [inTurns, piece, hid]
  | cons m ms ih =>
    intro id start hid hreceivers
    simp only [inTurns, piece, hid]
    rw [ih (hreceivers m List.mem_cons_self)
      fun m' hm' => hreceivers m' (List.mem_cons_of_mem m hm')]

/-- Only the contents of the two sides are read. -/
theorem retold_congr {content content' : TrackerId → List UInt8}
    (hcontent : ∀ id, c.Side id → content id = content' id)
    (hsides : ∀ m ∈ c.markers, c.Side m.receiver) :
    c.retold content = c.retold content' := by
  have hopening : c.opening content = c.opening content' := by
    unfold opening
    rw [hcontent c.first (.inl rfl)]
  have hside : c.Side (c.opening content') := by
    unfold opening
    split
    · exact c.otherOf_side _
    · split
      · exact .inr rfl
      · exact .inl rfl
  unfold Conversation.retold
  rw [hopening]
  exact inTurns_congr (hcontent _ hside) fun m hm => hcontent _ (hsides m hm)

/-- The markers go to the two sides by turns. -/
theorem Tells.alternate (h : c.Tells s) :
    c.markers.IsChain fun m m' => m'.receiver ≠ m.receiver := by
  cases hprevious : c.previous with
  | none =>
    rw [(h.unbegun hprevious).2]
    exact .nil
  | some speaker =>
    obtain ⟨opener, -, -, hturns, -⟩ := h.begun speaker hprevious
    exact hturns.alternate

end Conversation

/-! ## 4. Whatever is done to a ledger -/

/-- The two trackers of a channel and their conversation, by number. -/
structure Channel where
  input : TrackerId
  output : TrackerId
  conversation : Nat

namespace Channel

def Has (ch : Channel) (id : TrackerId) : Prop := id = ch.input ∨ id = ch.output

instance (ch : Channel) (id : TrackerId) : Decidable (ch.Has id) :=
  inferInstanceAs (Decidable (id = ch.input ∨ id = ch.output))

def partner (ch : Channel) (id : TrackerId) : TrackerId :=
  if id = ch.input then ch.output else ch.input

end Channel

namespace Ledger

open Spoken Conversation

/-- What a tracker has received so far. -/
def contentOf (l : Ledger) (id : TrackerId) : List UInt8 :=
  match l.tracker? id with
  | some t => t.content
  | none => []

/-- Anything that can be done to a ledger. -/
inductive Deed where
  | add (role : Role) (content : List UInt8) (descriptor : Option String)
  | twins (descriptor : String)
  | on (id : TrackerId) (op : Operation)
  | describe (id : TrackerId) (descriptor : String)
  /-- Trackers go unless the given ones lead to them. -/
  | release (roots : List TrackerId)
  deriving Repr

/-- Does something to a ledger; what is refused changes nothing. -/
def after (l : Ledger) : Deed → Ledger
  | .add role content descriptor => (l.add (.new role content descriptor)).2
  | .twins descriptor => (l.twins descriptor).2.2
  | .on id op =>
    match l.perform id op with
    | .ok l' => l'
    | .error _ => l
  | .describe id descriptor => l.setDescriptor id descriptor
  | .release roots => l.retain roots

def afterAll (l : Ledger) (ds : List Deed) : Ledger := ds.foldl after l

/-- What is said on a channel. -/
def Deed.spoken (input output : TrackerId) : Deed → Spoken
  | .on id (.append data) => if id = input ∨ id = output then turn id data else []
  | _ => []

/-! ### Trackers that are gone stay gone -/

/-- A later ledger, in which no tracker came back. -/
structure Older (l l' : Ledger) : Prop where
  nextId : l.trackers.nextId ≤ l'.trackers.nextId
  alive : ∀ id < l.trackers.nextId, (l'.tracker? id).isSome → (l.tracker? id).isSome

namespace Older

variable {l l' l'' : Ledger}

theorem refl (l : Ledger) : l.Older l := ⟨Nat.le_refl _, fun _ _ h => h⟩

theorem trans (h : l.Older l') (h' : l'.Older l'') : l.Older l'' where
  nextId := Nat.le_trans h.nextId h'.nextId
  alive id hid hsome := h.alive id hid (h'.alive id (Nat.lt_of_lt_of_le hid h.nextId) hsome)

theorem add (l : Ledger) (t : Tracker) : l.Older (l.add t).2 where
  nextId := by simp [Ledger.add, Table.nextId_add]
  alive id hid h := by
    rw [tracker?_add, if_neg (Nat.ne_of_lt hid)] at h
    exact h

theorem modify (l : Ledger) (id : TrackerId) (f : Tracker → Tracker) :
    l.Older (l.modifyTracker id f) where
  nextId := by simp [modifyTracker, Table.nextId_modify]
  alive other _ h := by
    rw [tracker?_modifyTracker] at h
    split at h
    · simpa using h
    · exact h

/-- Conversations are no trackers. -/
theorem of_trackers (h : l'.trackers = l.trackers) : l.Older l' := by
  obtain ⟨trackers, conversations⟩ := l'
  subst h
  exact ⟨Nat.le_refl _, fun _ _ h => h⟩

theorem link (l : Ledger) (first second : TrackerId) : l.Older (l.link first second) := by
  have hstarted : l.Older { l with conversations := l.conversations.add (.start first second) } :=
    of_trackers rfl
  exact hstarted.trans ((modify _ first _).trans (modify _ second _))

theorem append {id : TrackerId} {data : List UInt8} (h : l.append id data = .ok l') :
    l.Older l' := by
  unfold Ledger.append at h
  split at h
  · cases h
    exact refl l
  · split at h
    · cases h
      split
      · exact modify l id _
      · refine Older.trans ?_ (modify _ id _)
        exact of_trackers rfl
    · cases h

theorem setSource {id index length sourceIndex : Nat} {source : Option TrackerId}
    (h : l.setSource id index length source sourceIndex = .ok l') : l.Older l' := by
  obtain rfl | ⟨t, ht, hrole, rfl⟩ := setSource_cases h
  · exact refl l'
  · exact modify l id _

theorem initTwin {first second : TrackerId} (h : l.initTwin first second = .ok l') :
    l.Older l' := by
  unfold Ledger.initTwin at h
  (repeat' split at h) <;> cases h
  exact link l first second

theorem perform {id : TrackerId} {op : Operation} (h : l.perform id op = .ok l') : l.Older l' := by
  cases op with
  | append data => exact append h
  | setSource index length source sourceIndex => exact setSource h
  | setSourcePoint index length point =>
    unfold Ledger.perform Ledger.setSourcePoint at h
    cases point with
    | none => exact setSource h
    | some p => exact setSource h
  | twinOf other first =>
    cases first with
    | true => exact initTwin h
    | false => exact initTwin h

theorem after (l : Ledger) (d : Deed) : l.Older (l.after d) := by
  cases d with
  | add role content descriptor => exact add l _
  | twins descriptor => exact ((add l _).trans (add _ _)).trans (link _ _ _)
  | on id op =>
    simp only [Ledger.after]
    cases h : l.perform id op with
    | ok l' => exact perform h
    | error e => exact refl l
  | describe id descriptor => exact modify l id _
  | release roots =>
    refine ⟨by simp [Ledger.after, retain, Table.nextId_retain], fun id _ h => ?_⟩
    obtain ⟨t, ht⟩ := Option.isSome_iff_exists.mp h
    rw [tracker?_retain ht]
    rfl

theorem afterAll (ds : List Deed) : ∀ l : Ledger, l.Older (l.afterAll ds) := by
  induction ds with
  | nil => exact refl
  | cons d ds ih => exact fun l => (after l d).trans (ih (l.after d))

end Older

/-! ### What leaves a channel alone -/

/-- What a tracker shows on a channel. -/
def voice (t : Tracker) : Role × List UInt8 × Option Twin := (t.role, t.content, t.twin)

/-- Nothing was said on a channel, and nobody else has joined it. -/
structure Spares (l l' : Ledger) (ch : Channel) : Prop where
  side : ∀ id, ch.Has id → ∀ t', l'.tracker? id = some t' → ∃ t, l.tracker? id = some t ∧
    voice t' = voice t
  conversation : l'.conversations.get? ch.conversation = l.conversations.get? ch.conversation
  strangers : ∀ id t' twin, l'.tracker? id = some t' → t'.twin = some twin →
    twin.conversation = ch.conversation → ∃ t, l.tracker? id = some t ∧ t.twin = some twin

namespace Spares

variable {l l' l'' : Ledger} {ch : Channel}

theorem refl (l : Ledger) (ch : Channel) : l.Spares l ch :=
  ⟨fun _ _ t ht => ⟨t, ht, rfl⟩, rfl, fun _ t _ ht htwin _ => ⟨t, ht, htwin⟩⟩

theorem trans (h : l.Spares l' ch) (h' : l'.Spares l'' ch) : l.Spares l'' ch where
  side id hid t'' ht'' := by
    obtain ⟨t', ht', hvoice'⟩ := h'.side id hid t'' ht''
    obtain ⟨t, ht, hvoice⟩ := h.side id hid t' ht'
    exact ⟨t, ht, hvoice'.trans hvoice⟩
  conversation := h'.conversation.trans h.conversation
  strangers id t'' twin ht'' htwin hconversation := by
    obtain ⟨t', ht', htwin'⟩ := h'.strangers id t'' twin ht'' htwin hconversation
    exact h.strangers id t' twin ht' htwin' hconversation

theorem add (hsides : ∀ id, ch.Has id → (l.tracker? id).isSome) (role : Role) (content : List UInt8)
    (descriptor : Option String) : l.Spares (l.add (.new role content descriptor)).2 ch where
  side id hid t' ht' := by
    obtain ⟨t, ht⟩ := Option.isSome_iff_exists.mp (hsides id hid)
    obtain rfl := Option.some.inj ((tracker?_add_of_some ht _).symm.trans ht')
    exact ⟨t, ht, rfl⟩
  conversation := rfl
  strangers id t' twin ht' htwin _ := by
    rw [tracker?_add] at ht'
    split at ht'
    · cases ht'
      cases htwin
    · exact ⟨t', ht', htwin⟩

/-- A change of a tracker that keeps what a side shows and makes no link to the conversation. -/
theorem modify {id : TrackerId} {f : Tracker → Tracker}
    (hvoice : ∀ t, l.tracker? id = some t → ch.Has id → voice (f t) = voice t)
    (htwin : ∀ t twin, l.tracker? id = some t → (f t).twin = some twin →
      twin.conversation = ch.conversation → t.twin = some twin) :
      l.Spares (l.modifyTracker id f) ch where
  side other hother t' ht' := by
    rw [tracker?_modifyTracker] at ht'
    split at ht'
    · rename_i h
      obtain ⟨t, ht, rfl⟩ := Option.map_eq_some_iff.mp ht'
      subst h
      exact ⟨t, ht, hvoice t ht hother⟩
    · exact ⟨t', ht', rfl⟩
  conversation := rfl
  strangers other t' twin ht' htwin' hconversation := by
    rw [tracker?_modifyTracker] at ht'
    split at ht'
    · rename_i h
      obtain ⟨t, ht, rfl⟩ := Option.map_eq_some_iff.mp ht'
      subst h
      exact ⟨t, ht, htwin t twin ht htwin' hconversation⟩
    · exact ⟨t', ht', htwin'⟩

/-- A new conversation has a number of its own. -/
theorem link {first second : TrackerId} (hfirst : ¬ch.Has first) (hsecond : ¬ch.Has second)
    (hconversation : ch.conversation ≠ l.conversations.nextId) :
    l.Spares (l.link first second) ch := by
  have hstarted : l.Spares
      { l with conversations := l.conversations.add (.start first second) } ch :=
    ⟨fun _ _ t ht => ⟨t, ht, rfl⟩, by simp only [Table.get?_add, if_neg hconversation],
      fun _ t _ ht htwin _ => ⟨t, ht, htwin⟩⟩
  refine (hstarted.trans (modify (fun _ _ h => absurd h hfirst) ?_)).trans
    (modify (fun _ _ h => absurd h hsecond) ?_)
  all_goals
    intro t twin _ htwin hsame
    rw [← Option.some.inj htwin] at hsame
    exact absurd hsame.symm hconversation

theorem setSource {id index length sourceIndex : Nat} {source : Option TrackerId}
    (h : l.setSource id index length source sourceIndex = .ok l') : l.Spares l' ch := by
  obtain rfl | ⟨t, ht, hrole, rfl⟩ := setSource_cases h
  · exact refl l' ch
  · exact modify (fun _ _ _ => rfl) fun _ _ _ h _ => h

end Spares

/-! ### What is said on a channel -/

/-- A channel of which both trackers are there, with what was said on it. -/
structure Carries (l : Ledger) (ch : Channel) (s : Spoken) : Prop where
  distinct : ch.input ≠ ch.output
  side : ∀ id, ch.Has id → ∃ t, l.tracker? id = some t ∧ (t.role = .origin ∨ t.role = .sink) ∧
    t.content = received s id ∧ t.twin = some ⟨ch.partner id, ch.conversation⟩
  told : ∃ c, l.conversations.get? ch.conversation = some c ∧ c.first = ch.input ∧
    c.second = ch.output ∧ c.Tells s
  strangers : ∀ id t twin, l.tracker? id = some t → t.twin = some twin →
    twin.conversation = ch.conversation → ch.Has id

namespace Carries

variable {l l' : Ledger} {ch : Channel} {s : Spoken}

theorem isSome (h : l.Carries ch s) {id : TrackerId} (hid : ch.Has id) :
    (l.tracker? id).isSome := by
  obtain ⟨t, ht, -⟩ := h.side id hid
  rw [ht]
  rfl

theorem not_has_nextId (h : l.Carries ch s) : ¬ch.Has l.trackers.nextId := fun hid => by
  have hsome := h.isSome hid
  simp [tracker?, Table.get?, Table.nextId] at hsome

theorem conversation_ne (h : l.Carries ch s) :
    ch.conversation ≠ l.conversations.nextId := fun heq => by
  obtain ⟨c, hc, -⟩ := h.told
  rw [heq] at hc
  simp [Table.get?, Table.nextId] at hc

theorem spares (h : l.Carries ch s) (hspares : l.Spares l' ch)
    (hsides : ∀ id, ch.Has id → (l'.tracker? id).isSome) : l'.Carries ch s where
  distinct := h.distinct
  side id hid := by
    obtain ⟨t', ht'⟩ := Option.isSome_iff_exists.mp (hsides id hid)
    obtain ⟨t, ht, hvoice⟩ := hspares.side id hid t' ht'
    obtain ⟨t₀, ht₀, hrole, hcontent, htwin⟩ := h.side id hid
    obtain rfl := Option.some.inj (ht.symm.trans ht₀)
    have hrole' : t'.role = t.role := congrArg (·.1) hvoice
    have hcontent' : t'.content = t.content := congrArg (·.2.1) hvoice
    have htwin' : t'.twin = t.twin := congrArg (·.2.2) hvoice
    exact ⟨t', ht', hrole' ▸ hrole, hcontent'.trans hcontent, htwin'.trans htwin⟩
  told := hspares.conversation ▸ h.told
  strangers id t' twin ht' htwin hconversation := by
    obtain ⟨t, ht, htwin⟩ := hspares.strangers id t' twin ht' htwin hconversation
    exact h.strangers id t twin ht htwin hconversation

theorem length_side (h : l.Carries ch s) {id : TrackerId} (hid : ch.Has id) :
    l.length id = (received s id).length := by
  obtain ⟨t, ht, hrole, hcontent, -⟩ := h.side id hid
  unfold Ledger.length
  simp only [ht, Tracker.length]
  rcases hrole with hrole | hrole <;> simp [hrole, hcontent]

theorem has_partner (ch : Channel) (id : TrackerId) : ch.Has (ch.partner id) := by
  unfold Channel.partner
  split
  · exact .inr rfl
  · exact .inl rfl

/-- **Something is said.** -/
theorem append (h : l.Carries ch s) {id : TrackerId} (hid : ch.Has id) (data : List UInt8) :
    ∃ l', l.append id data = .ok l' ∧ l'.Carries ch (s ++ turn id data) := by
  obtain ⟨t, ht, hrole, hcontent, htwin⟩ := h.side id hid
  obtain ⟨c, hc, hfirst, hsecond, htells⟩ := h.told
  have haccepts : t.role.acceptsContent = true := by rcases hrole with h | h <;> rw [h] <;> rfl
  have hlength : t.length = (received s id).length := by
    have hlength := h.length_side hid
    simpa only [Ledger.length, ht] using hlength
  have hside : c.Side id := by rwa [Side, hfirst, hsecond]
  have hpartner : ch.partner id = c.otherOf id := by rw [otherOf, Channel.partner, hfirst, hsecond]
  unfold Ledger.append
  simp only [ht, haccepts, if_true, htwin]
  refine ⟨_, rfl, h.distinct, fun other hother => ?_, ?_, fun other t' twin ht' htwin' hsame => ?_⟩
  · obtain ⟨t', ht', hrole', hcontent', htwin'⟩ := h.side other hother
    have hnoted : (l.noteAppend id ⟨ch.partner id, ch.conversation⟩ t.length).tracker? other =
        some t' := ht'
    rw [tracker?_modifyTracker, hnoted, received_append_turn]
    by_cases hsame : id = other
    · rw [if_pos hsame, if_pos hsame.symm]
      exact ⟨_, rfl, hrole', by simp only [hcontent'], htwin'⟩
    · rw [if_neg hsame, if_neg (Ne.symm hsame)]
      exact ⟨t', rfl, hrole', hcontent', htwin'⟩
  · have hnote := htells.note hside data
    refine ⟨_, ?_, ?_, ?_, hnote⟩
    · simp only [modifyTracker, noteAppend, Table.get?_modify, if_true, hc, Option.map_some]
      rw [hlength, h.length_side (has_partner ch id), hpartner]
    · exact hfirst
    · exact hsecond
  · rw [tracker?_modifyTracker] at ht'
    split at ht'
    · rename_i hother
      exact hother ▸ hid
    · exact h.strangers other t' twin ht' htwin' hsame

/-- What is said elsewhere is not said here. -/
theorem append_elsewhere (h : l.Carries ch s) {id : TrackerId} (hid : ¬ch.Has id)
    {data : List UInt8} (happend : l.append id data = .ok l') : l.Spares l' ch := by
  unfold Ledger.append at happend
  split at happend
  · cases happend
    exact .refl l ch
  · rename_i t ht
    split at happend
    · cases happend
      split
      · exact .modify (fun _ _ h => absurd h hid) fun _ _ _ h _ => h
      · rename_i twin htwin
        have hnoted : l.Spares (l.noteAppend id twin t.length) ch := by
          refine ⟨fun _ _ t ht => ⟨t, ht, rfl⟩, ?_, fun _ t _ ht htwin _ => ⟨t, ht, htwin⟩⟩
          unfold noteAppend
          rw [Table.get?_modify, if_neg fun hsame => hid (h.strangers id t twin ht htwin hsame)]
        exact hnoted.trans (.modify (fun _ _ h => absurd h hid) fun _ _ _ h _ => h)
    · cases happend

/-- The two trackers of a channel have their twins. -/
theorem initTwin (h : l.Carries ch s) {first second : TrackerId}
    (hlink : l.initTwin first second = .ok l') :
    l.Spares l' ch := by
  have hhas : ∀ id, ch.Has id → l.hasTwin id = true := by
    intro id hid
    obtain ⟨t, ht, -, -, htwin⟩ := h.side id hid
    simp [hasTwin, ht, htwin]
  unfold Ledger.initTwin at hlink
  split at hlink
  · cases hlink
  · split at hlink
    · cases hlink
    · rename_i hmin
      split at hlink
      · cases hlink
      · rename_i hmax
        cases hlink
        have hstranger : ∀ id, id = min first second ∨ id = max first second → ¬ch.Has id := by
          rintro id (rfl | rfl) hid
          · exact hmin (hhas _ hid)
          · exact hmax (hhas _ hid)
        have hends : ∀ a b : Nat, (a = min a b ∨ a = max a b) ∧
            (b = min a b ∨ b = max a b) := by omega
        exact .link (hstranger first (hends first second).1)
          (hstranger second (hends first second).2) h.conversation_ne

theorem perform (h : l.Carries ch s) {id : TrackerId} {op : Operation}
    (hsaid : ∀ data, op = .append data → ¬ch.Has id) (hop : l.perform id op = .ok l') :
    l.Spares l' ch := by
  cases op with
  | append data => exact h.append_elsewhere (hsaid data rfl) hop
  | setSource index length source sourceIndex => exact .setSource hop
  | setSourcePoint index length point =>
    unfold Ledger.perform Ledger.setSourcePoint at hop
    cases point with
    | none => exact .setSource hop
    | some p => exact .setSource hop
  | twinOf other first =>
    cases first with
    | true => exact h.initTwin hop
    | false => exact h.initTwin hop

/-- A new channel is another one. -/
theorem twins (h : l.Carries ch s) (descriptor : String) :
    l.Spares (l.twins descriptor).2.2 ch := by
  have hadd : ∀ {l : Ledger}, l.Carries ch s → ∀ role descriptor,
      (l.add (.new role [] descriptor)).2.Carries ch s := by
    intro l h role descriptor
    refine h.spares (.add (fun _ => h.isSome) role [] descriptor) fun id hid => ?_
    obtain ⟨t, ht, -⟩ := h.side id hid
    rw [tracker?_add_of_some ht]
    rfl
  have hinput := hadd h .origin (some (descriptor ++ " (in)"))
  have houtput := hadd hinput .sink (some (descriptor ++ " (out)"))
  have hfirst : l.Spares _ ch := .add (fun _ => h.isSome) .origin [] (some (descriptor ++ " (in)"))
  have hsecond := Spares.add (fun _ => hinput.isSome) .sink [] (some (descriptor ++ " (out)"))
  exact (hfirst.trans hsecond).trans
    (.link h.not_has_nextId hinput.not_has_nextId houtput.conversation_ne)

/-- **One deed**: what it says on a channel comes last, and nothing else on it changes. -/
theorem after (h : l.Carries ch s) (d : Deed)
    (hsides : ∀ id, ch.Has id → ((l.after d).tracker? id).isSome) :
    (l.after d).Carries ch (s ++ d.spoken ch.input ch.output) := by
  have hspared : l.Spares (l.after d) ch → (l.after d).Carries ch (s ++ []) := fun hspares => by
    rw [List.append_nil]
    exact h.spares hspares hsides
  cases d with
  | add role content descriptor => exact hspared (.add (fun _ => h.isSome) role content descriptor)
  | twins descriptor => exact hspared (h.twins descriptor)
  | on id op =>
    by_cases hsaid : ∃ data, op = .append data ∧ ch.Has id
    · obtain ⟨data, rfl, hid⟩ := hsaid
      obtain ⟨l', hl', hcarries⟩ := h.append hid data
      have hspoken : Deed.spoken ch.input ch.output (.on id (.append data)) = turn id data :=
        if_pos hid
      have hafter : l.after (.on id (.append data)) = l' := by
        simp only [Ledger.after, Ledger.perform, hl']
      rw [hspoken, hafter]
      exact hcarries
    · have hnothing : Deed.spoken ch.input ch.output (.on id op) = [] := by
        cases op with
        | append data => exact if_neg fun hid => hsaid ⟨data, rfl, hid⟩
        | _ => rfl
      rw [hnothing]
      refine hspared ?_
      simp only [Ledger.after]
      cases hop : l.perform id op with
      | ok l' => exact h.perform (fun data heq hid => hsaid ⟨data, heq, hid⟩) hop
      | error e => exact .refl l ch
  | describe id descriptor => exact hspared (.modify (fun _ _ _ => rfl) fun _ _ _ h _ => h)
  | release roots =>
    exact hspared ⟨fun _ _ t ht => ⟨t, tracker?_retain ht, rfl⟩, rfl,
      fun _ t _ ht htwin _ => ⟨t, tracker?_retain ht, htwin⟩⟩

/-- **Many deeds**, as long as both trackers are there. -/
theorem afterAll (ds : List Deed) : ∀ {l : Ledger} {s : Spoken}, l.Carries ch s →
    (∀ id, ch.Has id → ((l.afterAll ds).tracker? id).isSome) →
    (l.afterAll ds).Carries ch (s ++ ds.flatMap (Deed.spoken ch.input ch.output)) := by
  induction ds with
  | nil =>
    intro l s h _
    rw [List.flatMap_nil, List.append_nil]
    exact h
  | cons d ds ih =>
    intro l s h hsides
    have hnow : ∀ id, ch.Has id → ((l.after d).tracker? id).isSome := by
      intro id hid
      have hold : id < (l.after d).trackers.nextId :=
        Nat.lt_of_lt_of_le (Table.lt_nextId (h.isSome hid)) (Older.after l d).nextId
      exact (Older.afterAll ds (l.after d)).alive id hold (hsides id hid)
    rw [List.flatMap_cons, ← List.append_assoc]
    exact ih (h.after d hnow) hsides

end Carries

/-! ## 5. Twins -/

/-- All trackers are linked to conversations that have begun. -/
def Linked (l : Ledger) : Prop := ∀ id t twin, l.tracker? id = some t → t.twin = some twin →
  twin.conversation < l.conversations.nextId

namespace Linked

variable {l l' : Ledger}

theorem conversations (h : l.Linked) {conversations : Table Conversation}
    (hle : l.conversations.nextId ≤ conversations.nextId) : Linked { l with conversations } :=
  fun id t twin ht htwin => Nat.lt_of_lt_of_le (h id t twin ht htwin) hle

theorem add (h : l.Linked) (role : Role) (content : List UInt8) (descriptor : Option String) :
    (l.add (.new role content descriptor)).2.Linked := by
  intro id t twin ht htwin
  rw [tracker?_add] at ht
  split at ht
  · cases ht
    cases htwin
  · exact h id t twin ht htwin

theorem modify (h : l.Linked) {id : TrackerId} {f : Tracker → Tracker}
    (hf : ∀ t twin, (f t).twin = some twin →
      t.twin = some twin ∨ twin.conversation < l.conversations.nextId) :
      (l.modifyTracker id f).Linked := by
  intro other t' twin ht' htwin
  rw [tracker?_modifyTracker] at ht'
  split at ht'
  · obtain ⟨t, ht, rfl⟩ := Option.map_eq_some_iff.mp ht'
    rcases hf t twin htwin with htwin | hlt
    · exact h other t twin ht htwin
    · exact hlt
  · exact h other t' twin ht' htwin

theorem link (h : l.Linked) (first second : TrackerId) : (l.link first second).Linked := by
  have hstarted : Linked { l with conversations := l.conversations.add (.start first second) } :=
    h.conversations (by rw [Table.nextId_add]; exact Nat.le_succ _)
  refine (hstarted.modify ?_).modify ?_
  all_goals
    intro t twin htwin
    refine .inr ?_
    rw [← Option.some.inj htwin]
    exact Nat.lt_of_lt_of_eq (Nat.lt_succ_self _) (Table.nextId_add _ _).symm

theorem append (h : l.Linked) {id : TrackerId} {data : List UInt8}
    (happend : l.append id data = .ok l') :
    l'.Linked := by
  unfold Ledger.append at happend
  split at happend
  · cases happend
    exact h
  · split at happend
    · cases happend
      split
      · exact h.modify fun _ _ htwin => .inl htwin
      · refine modify (h.conversations ?_) fun _ _ htwin => .inl htwin
        rw [Table.nextId_modify]
    · cases happend

end Linked

theorem Reachable.linked {l : Ledger} (h : l.Reachable) : l.Linked := by
  induction h with
  | empty =>
    intro id t twin ht
    simp [tracker?, Ledger.empty] at ht
  | add _ role content descriptor ih => exact ih.add role content descriptor
  | twins _ descriptor ih => exact ((ih.add _ _ _).add _ _ _).link _ _
  | initTwin _ hlink ih =>
    unfold Ledger.initTwin at hlink
    (repeat' split at hlink) <;> cases hlink
    exact ih.link _ _
  | append _ happend ih => exact ih.append happend
  | setDescriptor _ id descriptor ih => exact ih.modify fun _ _ htwin => .inl htwin
  | setSource _ hset ih =>
    obtain rfl | ⟨t, ht, hrole, rfl⟩ := setSource_cases hset
    · exact ih
    · exact ih.modify fun _ _ htwin => .inl htwin
  | retain _ roots ih => exact fun id t twin ht htwin => ih id t twin (tracker?_retain ht) htwin

theorem tracker?_link (l : Ledger) {first second : TrackerId} (hne : first ≠ second)
    (id : TrackerId) :
    (l.link first second).tracker? id =
      if id = first then
        (l.tracker? id).map fun t => { t with twin := some ⟨second, l.conversations.nextId⟩ }
      else if id = second then
        (l.tracker? id).map fun t => { t with twin := some ⟨first, l.conversations.nextId⟩ }
      else l.tracker? id := by
  unfold link
  have hstarted :
    Ledger.tracker? { l with conversations := l.conversations.add (.start first second) } id =
    l.tracker? id := rfl
  simp only [tracker?_modifyTracker, hstarted]
  by_cases hfirst : id = first
  · rw [if_neg fun h => hne (hfirst.symm.trans h.symm), if_pos hfirst.symm, if_pos hfirst]
  · rw [if_neg hfirst, if_neg (Ne.symm hfirst)]
    simp only [eq_comm]

theorem nextId_of_add (l : Ledger) (t : Tracker) :
    (l.add t).2.trackers.nextId = l.trackers.nextId + 1 :=
  Table.nextId_add _ _

/-- Twins are an origin and a sink that are linked. -/
theorem twins_eq_link (l : Ledger) (descriptor : String) :
    (l.twins descriptor).2.2 =
      ((l.add (.new .origin [] (some (descriptor ++ " (in)")))).2.add
        (.new .sink [] (some (descriptor ++ " (out)")))).2.link l.trackers.nextId
          (l.trackers.nextId + 1) := by
  rw [← nextId_of_add l (.new .origin [] (some (descriptor ++ " (in)")))]
  rfl

/-- The trackers after twins were made. -/
theorem tracker?_twins (l : Ledger) (descriptor : String) (id : TrackerId) :
    (l.twins descriptor).2.2.tracker? id =
      if id = l.trackers.nextId then
        some { Tracker.new .origin [] (some (descriptor ++ " (in)")) with
          twin := some ⟨l.trackers.nextId + 1, l.conversations.nextId⟩ }
      else if id = l.trackers.nextId + 1 then
        some { Tracker.new .sink [] (some (descriptor ++ " (out)")) with
          twin := some ⟨l.trackers.nextId, l.conversations.nextId⟩ }
      else l.tracker? id := by
  rw [twins_eq_link, tracker?_link _ (Nat.succ_ne_self _).symm, tracker?_add, tracker?_add,
    nextId_of_add]
  by_cases hinput : id = l.trackers.nextId
  · have houtput : id ≠ l.trackers.nextId + 1 := hinput ▸ (Nat.succ_ne_self _).symm
    simp only [if_pos hinput, if_neg houtput]
    rfl
  · by_cases houtput : id = l.trackers.nextId + 1
    · simp only [if_neg hinput, if_pos houtput]
      rfl
    · simp only [if_neg hinput, if_neg houtput]

/-- **A new channel**, on which nothing has been said. -/
theorem Reachable.carries_twins {l l' : Ledger} (h : l.Reachable) {descriptor : String}
    {input output : TrackerId} (htwins : l.twins descriptor = (input, output, l')) :
    l'.Carries ⟨input, output, l.conversations.nextId⟩ [] := by
  obtain ⟨rfl, rfl, rfl⟩ : l.trackers.nextId = input ∧ l.trackers.nextId + 1 = output ∧
      (l.twins descriptor).2.2 = l' := by
    rw [htwins]
    unfold Ledger.twins at htwins
    simp only [Prod.mk.injEq] at htwins
    refine ⟨htwins.1, ?_, rfl⟩
    rw [← htwins.2.1]
    exact (Table.nextId_add _ _).symm
  refine ⟨(Nat.succ_ne_self _).symm, fun id hid => ?_, ⟨_, ?_, rfl, rfl, tells_start _ _⟩,
    fun id t twin ht htwin hconversation => ?_⟩
  · rw [tracker?_twins]
    rcases hid with rfl | rfl
    · rw [if_pos rfl]
      exact ⟨_, rfl, .inl rfl, rfl, by simp [Channel.partner]⟩
    · rw [if_neg (Nat.succ_ne_self _), if_pos rfl]
      exact ⟨_, rfl, .inr rfl, rfl, by simp [Channel.partner]⟩
  · rw [twins_eq_link]
    exact (Table.get?_add _ _ _).trans (if_pos rfl)
  · rw [tracker?_twins] at ht
    split at ht
    · exact .inl ‹_›
    · split at ht
      · exact .inr ‹_›
      · exact absurd hconversation (Nat.ne_of_lt (h.linked id t twin ht htwin))

theorem Carries.conversation? {l : Ledger} {ch : Channel} {s : Spoken} (h : l.Carries ch s)
    {c : Conversation} (hc : l.conversations.get? ch.conversation = some c) {id : TrackerId}
    (hid : ch.Has id) :
    l.conversation? id = some c := by
  obtain ⟨t, ht, -, -, htwin⟩ := h.side id hid
  simp [Ledger.conversation?, ht, htwin, hc]

/-- The contents are what was said to either side. -/
theorem Carries.contentOf {l : Ledger} {ch : Channel} {s : Spoken} (h : l.Carries ch s)
    {id : TrackerId} (hid : ch.Has id) : l.contentOf id = received s id := by
  obtain ⟨t, ht, -, hcontent, -⟩ := h.side id hid
  unfold Ledger.contentOf
  rw [ht]
  exact hcontent

/-- **The markers of twins tell their conversation.**  Whatever is done from the making of a pair of
twins on, as long as both of them are there: contents and markers, read in turns, give the bytes
that the two received, each with its side and in the order in which it arrived; the markers go to
one side and the other by turns; and no marker stands before an earlier one, on either side. -/
theorem twins_retold {l l' : Ledger} (hl : l.Reachable) {descriptor : String}
    {input output : TrackerId} (htwins : l.twins descriptor = (input, output, l'))
    (deeds : List Deed) (hinput : ((l'.afterAll deeds).tracker? input).isSome)
    (houtput : ((l'.afterAll deeds).tracker? output).isSome) :
    ∃ c, (l'.afterAll deeds).conversation? input = some c ∧
      (l'.afterAll deeds).conversation? output = some c ∧ c.first = input ∧ c.second = output ∧
      c.retold (l'.afterAll deeds).contentOf = deeds.flatMap (Deed.spoken input output) ∧
      (c.markers.IsChain fun m m' => m'.receiver ≠ m.receiver) ∧
      (∀ m ∈ c.markers, m.receiver = input ∨ m.receiver = output) ∧
      ∀ id, id = input ∨ id = output → (c.markers.map fun m => m.position id).Pairwise (· ≤ ·) := by
  have hcarries : (l'.afterAll deeds).Carries ⟨input, output, l.conversations.nextId⟩
      ([] ++ deeds.flatMap (Deed.spoken input output)) := by
    refine (hl.carries_twins htwins).afterAll deeds fun id hid => ?_
    rcases hid with rfl | rfl
    · exact hinput
    · exact houtput
  rw [List.nil_append] at hcarries
  obtain ⟨c, hc, hfirst, hsecond, htells⟩ := hcarries.told
  have hsides : ∀ id, c.Side id ↔ id = input ∨ id = output := by
    intro id
    unfold Conversation.Side
    rw [hfirst, hsecond]
  have hretold : c.retold (l'.afterAll deeds).contentOf = c.retold (received (deeds.flatMap _)) :=
    retold_congr (fun id hid => hcarries.contentOf ((hsides id).mp hid)) htells.sides
  refine ⟨c, hcarries.conversation? hc (.inl rfl), hcarries.conversation? hc (.inr rfl),
    hfirst, hsecond, ?_, htells.alternate, fun m hm => (hsides _).mp (htells.sides m hm),
    fun id hid => ?_⟩
  · rw [hretold]
    exact htells.retold (by rw [hfirst, hsecond]; exact hcarries.distinct)
  · exact htells.ascending id ((hsides id).mpr hid)

/-- What a client and a server say, with an empty append and another channel in between. -/
def httpTalk : List Deed :=
  [.on 2 (.append "GET /".toUTF8.toList), .twins "log", .on 2 (.append " HTTP".toUTF8.toList),
    .on 1 (.append []), .on 3 (.append "x".toUTF8.toList), .on 1 (.append "200 OK".toUTF8.toList),
    .on 2 (.append "QUIT".toUTF8.toList), .release [1, 2]]

theorem httpTwins_retold : empty.Reachable ∧ empty.twins "http" = (1, 2, (empty.twins "http").2.2) ∧
    (((empty.twins "http").2.2.afterAll httpTalk).tracker? 1).isSome ∧
    (((empty.twins "http").2.2.afterAll httpTalk).tracker? 2).isSome ∧
    ∃ c, ((empty.twins "http").2.2.afterAll httpTalk).conversation? 1 = some c ∧
      ((empty.twins "http").2.2.afterAll httpTalk).conversation? 2 = some c ∧ c.first = 1 ∧
      c.second = 2 ∧ c.retold ((empty.twins "http").2.2.afterAll httpTalk).contentOf =
        httpTalk.flatMap (Deed.spoken 1 2) ∧
      (c.markers.IsChain fun m m' => m'.receiver ≠ m.receiver) ∧
      (∀ m ∈ c.markers, m.receiver = 1 ∨ m.receiver = 2) ∧
      ∀ id, id = 1 ∨ id = 2 → (c.markers.map fun m => m.position id).Pairwise (· ≤ ·) :=
  ⟨.empty, rfl, by decide, by decide, twins_retold .empty rfl httpTalk (by decide) (by decide)⟩

end Ledger

end Provenance
