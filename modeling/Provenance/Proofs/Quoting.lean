/-
# Characters of a literal point at their bytes

The table of a class holds the bytes of its literals, and the copy of a literal that the program
gets has characters.  Each of them came from the byte of the table at which it begins, which is as
many bytes into the literal as the characters before it take (`Ledger.spelling`), and there the
table says this very character (`Work.constantString_points`).

For a text of which every character takes one byte the hook records one range, for any other text
one range for each character.  Either way the same is known in the end, so the parts are those that
the characters leave one by one.
-/
import Provenance.Proofs.Concatenating
import Provenance.Proofs.Tabulating

namespace Provenance

open Work (TextSource)

/-! ## 1. A text spelled out -/

namespace Ledger

variable {l : Ledger} {table : TrackerId}

/-- The place of each character of a text that begins at some byte of a table. -/
def spelling (table : TrackerId) (offset : Nat) (text : List Char) (i : Nat) : Option Place :=
  if i < text.length then some ⟨table, offset + Utf8.byteLength (text.take i)⟩ else none

/-- One range for each character, given the bytes at which they begin. -/
def characterRanges (table : TrackerId) : Nat → List Nat → List TextSource
  | _, [] => []
  | index, offset :: rest => ⟨index, 1, table, offset⟩ :: characterRanges table (index + 1) rest

/-- What stands for itself says so of each of its places. -/
theorem Standing.reads_self (h : l.Standing table) (i : Nat) :
    l.reads table i = some ⟨table, i⟩ := by
  obtain ⟨t, ht, hrole⟩ := h
  simp [reads, ht, hrole]

/-- **One range** is enough where characters are bytes. -/
theorem draw_spelling (h : l.Standing table) {text : List Char} (htext : Utf8.isAscii text)
    (offset : Nat) :
    l.draw (fun _ => none) ⟨0, text.length, table, offset⟩ = spelling table offset text := by
  funext i
  unfold draw spelling
  simp only [Nat.zero_le, true_and, Nat.zero_add, Nat.sub_zero, h.reads_self]
  split
  · rename_i hi
    rw [Utf8.byteLength_of_isAscii (Utf8.isAscii_take htext i),
      List.length_take_of_le (Nat.le_of_lt hi)]
  · rfl

/-- **Character by character**, from some index on. -/
theorem drawAll_characterRanges (h : l.Standing table) : ∀ (text : List Char) (index offset : Nat)
    (known : Nat → Option Place) (i : Nat),
    l.drawAll known (characterRanges table index (Utf8.offsets offset text)) i =
      if index ≤ i ∧ i < index + text.length then spelling table offset text (i - index)
        else known i := by
  intro text
  induction text with
  | nil =>
    intro index offset known i
    rw [if_neg (by simp only [List.length_nil]; omega)]
    rfl
  | cons c text ih =>
    intro index offset known i
    rw [Utf8.offsets, characterRanges]
    refine (ih (index + 1) _ (l.draw known ⟨index, 1, table, offset⟩) i).trans ?_
    simp only [draw, h.reads_self, spelling, List.length_cons]
    rcases Nat.lt_trichotomy i index with hi | rfl | hi
    · rw [if_neg (by omega), if_neg (by omega), if_neg (by omega)]
    · rw [if_neg (by omega), if_pos (by omega), if_pos (by omega), if_pos (by omega)]
      simp [Utf8.byteLength]
    · by_cases hlast : i < index + (text.length + 1)
      · obtain ⟨k, rfl⟩ := Nat.exists_eq_add_of_lt hi
        rw [if_pos (by omega), if_pos (by omega), if_pos (by omega), if_pos (by omega)]
        have hk : index + k + 1 - index = k + 1 := by omega
        have hk' : index + k + 1 - (index + 1) = k := by omega
        rw [hk, hk', List.take_succ_cons, Utf8.byteLength, Utf8.byteLength, Utf8.encode_cons,
          List.length_append, Nat.add_assoc]
      · rw [if_neg (by omega), if_neg (by omega), if_neg (by omega)]

/-- The characters of a text where nothing was known. -/
theorem drawAll_spelling (h : l.Standing table) (text : List Char) (offset : Nat) :
    l.drawAll (fun _ => none) (characterRanges table 0 (Utf8.offsets offset text)) =
      spelling table offset text := by
  funext i
  rw [drawAll_characterRanges h]
  simp only [Nat.zero_le, true_and, Nat.zero_add, Nat.sub_zero]
  split
  · rfl
  · rename_i hi
    exact (if_neg hi).symm

end Ledger

/-- The place of a literal in its table reads as the literal does, character by character. -/
theorem Entry.StandsIn.readAt {e : Entry} {s : Store} {t : ConstantTable} (h : e.StandsIn s t)
    {i : Nat} {c : Char} (hc : e.text[i]? = some c) :
    Utf8.readAt (s.ledger.content t.tracker) (e.place.offset + Utf8.byteLength (e.text.take i)) =
      some (c, (String.utf8EncodeChar c).length) := by
  -- the content falls into what is in front of the literal, the literal and what is behind it
  have hcontent : s.ledger.content t.tracker = (s.ledger.content t.tracker).take e.place.offset ++
      (Utf8.encode e.text ++ ((s.ledger.content t.tracker).drop e.place.offset).drop
          e.place.length) := by
    rw [← h.slice, List.take_append_drop, List.take_append_drop]
  have hfront : ((s.ledger.content t.tracker).take e.place.offset).length = e.place.offset :=
    List.length_take_of_le (Nat.le_trans (Nat.le_add_right _ _) h.within)
  have hread := Utf8.readAt_encode ((s.ledger.content t.tracker).take e.place.offset)
    (((s.ledger.content t.tracker).drop e.place.offset).drop e.place.length) hc
  rwa [← hcontent, hfront] at hread

/-- A literal that was registered stands where it is said to. -/
theorem Store.Tabled.registerString {s s' : Store} {classId offset : Nat} {text : String}
    (h : s.Tabled) (hregistered : s.registerString classId text = .ok (offset, s')) :
    s'.Tabled ∧
    ∃ t, Entry.StandsIn ⟨⟨classId, offset, Utf8.byteLength text.toList⟩, text.toList⟩ s' t := by
  have hreply : s.register (.string classId text) = (.offset offset, s') := by
    simp only [Store.register, hregistered]
  by_cases hknown : (RegistryCall.string classId text).Known s
  · obtain ⟨r, s'', hregister, -, hundergone⟩ := h.register _ hknown
    obtain ⟨rfl, rfl⟩ := Prod.mk.inj (hreply.symm.trans hregister)
    exact ⟨hundergone.tabled, hundergone.stands _ rfl⟩
  · obtain ⟨e, hrefused⟩ := Store.register_unknown hknown
    cases hreply.symm.trans hrefused

/-! ## 2. Recording the characters -/

namespace Work

open Provenance.Action (Wp)

variable {s : Store} {w : World} {b : Bench} {o : ObjectId} {table : TrackerId} {text : List Char}
  {L : Array Value} {S : List Value} {inUse : Thunk (List Value)}

/-- One range after the other. -/
theorem wp_characterSources (htable : (s.ledger.tracker? table).isSome) :
    ∀ (offsets : List Nat) (index : Nat) {b : Bench} {known : Nat → Option Place},
    s.Drawn b.world.store o known → b.world.alive inUse o →
    Wp (characterSources inUse o table index offsets)
      (fun _ => DrawnOn s o (s.ledger.drawAll known (Ledger.characterRanges table index offsets)) b)
      (fun _ _ => False) b := by
  intro offsets
  induction offsets with
  | nil => exact fun _ _ _ h _ => ⟨rfl, h⟩
  | cons offset offsets ih =>
    intro index b known h ho
    unfold characterSources characterSourcesBy
    refine wp_setSource_drawn (t := ⟨index, 1, table, offset⟩) h ho htable fun store hstore => ?_
    have hrest := ih (index + 1) (b := { b with world.store := store }) hstore ho
    exact hrest.mono (fun _ b' h' => ⟨h'.bench, h'.store⟩) fun _ _ h' => h'

/-- **All characters one by one.** -/
theorem wp_characterSources_spelling (hs : s.ledger.Standing table)
    (h : s.Drawn b.world.store o fun _ => none) (ho : b.world.alive inUse o) (offset : Nat) :
    Wp (characterSources inUse o table 0 (Utf8.offsets offset text))
      (fun _ => DrawnOn s o (Ledger.spelling table offset text) b) (fun _ _ => False) b := by
  obtain ⟨t, ht, -⟩ := id hs
  rw [← Ledger.drawAll_spelling hs]
  exact wp_characterSources (by rw [ht]; rfl) _ 0 h ho

/-- **Characters one by one or all at once**: what is known in the end is the same. -/
theorem wp_literalSource (hs : s.ledger.Standing table) (h : s.Drawn b.world.store o fun _ => none)
    (ho : b.world.alive inUse o) (offset : Nat) :
    Wp (literalSource inUse o text table offset)
      (fun _ => DrawnOn s o (Ledger.spelling table offset text) b) (fun _ _ => False) b := by
  unfold literalSource literalSourceBy
  split
  · rename_i htext
    obtain ⟨t, ht, -⟩ := id hs
    refine wp_setSource_drawn (t := ⟨0, text.length, table, offset⟩) h ho (by rw [ht]; rfl)
      fun store hstore => ?_
    rw [Ledger.draw_spelling hs htext] at hstore
    exact ⟨rfl, hstore⟩
  · exact wp_characterSources_spelling hs h ho offset

/-! ## 3. The copy of a literal -/

/-- The world with a copy of a literal of which nothing is known yet. -/
def quoted (w : World) (text : String) : World :=
  { w with heap := (w.heap.allocate (.ofText text)).2 }

theorem quoted_object (w : World) (text : String) :
    (quoted w text).heap.objects.get? w.heap.objects.nextId = some (.ofText text) := by
  simp only [quoted, Heap.allocate, Table.get?_add, if_true]

theorem quoted_alive (w : World) (text : String) (inUse : Thunk (List Value)) :
    (quoted w text).alive (alsoInUse w.heap.objects.nextId inUse) w.heap.objects.nextId :=
  World.alive_of_inUse (by rw [quoted_object]; rfl) List.mem_cons_self

theorem text?_ofText (text : String) : (HeapObject.ofText text).text? = some text := by
  simp [HeapObject.ofText, HeapObject.text?]

variable {literal : String} {classId offset : Nat} {t : ConstantTable}

/-- **A copy is made, and its characters are recorded.** -/
theorem wp_copyLiteral (hsound : Sound w inUse [] []) (hliteral : w.heap.text? o = some literal)
    (ht : w.store.tables[classId]? = some t) (hs : w.store.ledger.Standing t.tracker) :
    Wp (copyLiteral inUse classId offset o)
      (fun v b' => v = .ref w.heap.objects.nextId ∧
        ∃ store, b' = ⟨{ quoted w literal with store }, L, S⟩ ∧
        w.store.Drawn store w.heap.objects.nextId (Ledger.spelling t.tracker offset literal.toList))
      (fun _ _ => False) ⟨w, L, S⟩ := by
  have htable : w.store.table classId = .ok t := by simp only [Store.table, ht]
  unfold copyLiteral copyLiteralBy
  simp only [Action.wp_bind, wp_fromHeap, hliteral, Option.getD_some, allocate, wp_onHeap,
    wp_onStore, htable]
  refine (wp_literalSource (b := ⟨quoted w literal, L, S⟩) hs
    (.start hsound.active hsound.ledger hsound.untracked)
    (quoted_alive w literal inUse) offset).mono (fun _ b' h => ?_) fun _ _ h => h
  exact ⟨rfl, b'.world.store, h.bench, h.store⟩

/-- **Every character of a literal's copy points at its own bytes.**  A text was registered, and
whatever was done to the store since, tables only grew.  Then the hook behind the literal leaves a
new string with the text, and of its characters is known: each points into the table, as many bytes
behind the beginning of the literal as the characters before it take, where the table reads as this
character; nothing is known past the end.  The parts that are left are those that recording the
characters one by one leaves, also where the hook records the text as one range. -/
theorem constantString_points {s₀ s₁ : Store} (hs₀ : s₀.Tabled)
    (hregistered : s₀.registerString classId literal = .ok (offset, s₁)) (hkept : s₁.Kept w.store)
    (hsound : Sound w inUse [] []) (hliteral : w.heap.text? o = some literal) :
    ∃ t copy b' b'', (hook inUse (.constantString classId offset)).outcome ⟨w, L, .ref o :: S⟩ =
      (.ok (), b') ∧ w.store.tables[classId]? = some t ∧ w.heap.objects.get? copy = none ∧
      b'.locals = L ∧ b'.stack = .ref copy :: S ∧ b'.world.heap.text? copy = some literal ∧
      (∀ i c, literal.toList[i]? = some c →
        Utf8.readAt (b'.world.store.ledger.content t.tracker)
          (offset + Utf8.byteLength (literal.toList.take i)) =
          some (c, (String.utf8EncodeChar c).length)) ∧
      (∀ inUse' : Thunk (List Value), .ref copy ∈ inUse'.get → ∀ i,
        (b'.world.store.pointAt (b'.world.alive inUse') copy i).1 =
          if i < literal.toList.length then
            some ⟨t.tracker, offset + Utf8.byteLength (literal.toList.take i), 1⟩
          else none) ∧
      (characterSources (alsoInUse copy inUse) copy t.tracker 0
        (Utf8.offsets offset literal.toList)).outcome ⟨quoted w literal, L, .ref copy :: S⟩ =
        (.ok (), b'') ∧
      b'.world.store.partsOf copy = b''.world.store.partsOf copy := by
  obtain ⟨hs₁, t, hstands₁⟩ := hs₀.registerString hregistered
  have hstands := hstands₁.kept hs₁ hkept
  obtain ⟨tracker, htracker, hrole⟩ :=
    (hkept.contents t (List.mem_of_getElem? hstands₁.table)
      (hs₁.origin t (List.mem_of_getElem? hstands₁.table))).1
  have hs : w.store.ledger.Standing t.tracker := ⟨tracker, htracker, by rw [hrole]; rfl⟩
  have hhook : Wp (hook inUse (.constantString classId offset))
      (fun _ b' => ∃ store, b' = ⟨{ quoted w literal with store }, L,
        .ref w.heap.objects.nextId :: S⟩ ∧
        w.store.Drawn store w.heap.objects.nextId (Ledger.spelling t.tracker offset literal.toList))
      (fun _ _ => False) ⟨w, L, .ref o :: S⟩ := by
    unfold hook take
    simp only [Action.wp_bind, wp_pop_cons, wp_fromHeap, Heap.reference]
    refine (wp_copyLiteral hsound hliteral hstands.table hs).mono (fun v b' h => ?_) fun _ _ h => h
    obtain ⟨rfl, store, rfl, hstore⟩ := h
    exact ⟨store, rfl, hstore⟩
  obtain ⟨_, _, hrun, store, rfl, hdrawn⟩ := hhook.exists_ok
  obtain ⟨_, b'', hloop, hlooped⟩ := Action.Wp.exists_ok (x := characterSources
      (alsoInUse w.heap.objects.nextId inUse) w.heap.objects.nextId t.tracker 0
      (Utf8.offsets offset literal.toList))
    (wp_characterSources_spelling (b := ⟨quoted w literal, L, .ref w.heap.objects.nextId :: S⟩) hs
      (.start hsound.active hsound.ledger hsound.untracked) (quoted_alive w literal inUse) offset)
  refine ⟨t, _, _, b'', hrun, hstands.table, Table.get?_nextId _, rfl, rfl, ?_, fun i c hc => ?_,
    fun inUse' hinUse' i => ?_, hloop, hdrawn.partsOf_eq hlooped.store fun _ => rfl⟩
  · unfold Heap.text?
    rw [Heap.object_of_get? (quoted_object w literal), text?_ofText]
  · have hsame : store.ledger.content t.tracker = w.store.ledger.content t.tracker := by
      unfold Ledger.content
      rw [hdrawn.standing _ hs]
    exact hsame ▸ hstands.readAt hc
  · have hlives : World.alive { quoted w literal with store } inUse' w.heap.objects.nextId = true :=
      World.alive_of_inUse (by rw [quoted_object]; rfl) hinUse'
    have hpoint := hdrawn.pointOf hsound.depth (fun i p hp => ?_) i
    · rw [Store.pointAt_eq (s := store) hdrawn.active hlives, hpoint, Store.pointTo,
        Ledger.spelling]
      split
      · simp [Ledger.resolve, htracker, hrole]
      · rfl
    · unfold Ledger.spelling at hp
      split at hp
      · cases hp
        exact hs
      · cases hp

/-- The store after the first class was registered. -/
def opened : Store := ((Store.empty .default).undergo (.call (.registerClass "a/B"))).2

/-- The store once a text was registered there, whose first character takes two bytes. -/
def spelled : Store := (opened.undergo (.call (.string 0 "éx"))).2

/-- A string of this text. -/
def spelledWorld : World where
  heap := (Heap.empty.allocate (.ofText "éx")).2
  store := spelled
  literals := []
  held := []
  journal := []

/-- The second character of the copy points two bytes behind the first one, and there the table says
it. -/
theorem spelled_points :
    ∃ t o b', (hook (.pure [.ref 1]) (.constantString 0 12)).outcome ⟨spelledWorld, #[], [.ref 1]⟩ =
      (.ok (), b') ∧ spelledWorld.store.tables[0]? = some t ∧ b'.stack = [.ref o] ∧
      b'.world.heap.text? o = some "éx" ∧
      (b'.world.store.pointAt (b'.world.alive (.pure [.ref o])) o 0).1 = some ⟨t.tracker, 12, 1⟩ ∧
      (b'.world.store.pointAt (b'.world.alive (.pure [.ref o])) o 1).1 = some ⟨t.tracker, 14, 1⟩ ∧
      (b'.world.store.pointAt (b'.world.alive (.pure [.ref o])) o 2).1 = none ∧
      Utf8.readAt (b'.world.store.ledger.content t.tracker) 12 = some ('é', 2) ∧
      Utf8.readAt (b'.world.store.ledger.content t.tracker) 14 = some ('x', 1) := by
  have hopened : opened.Tabled :=
    ((Store.tabled_empty .default).undergo (.call (.registerClass "a/B"))).tabled
  have hledger : spelled.ledger.Reachable :=
    .append (.append (.append (.append (.add .empty .origin [] (some "class a.B"))
      (show Ledger.append _ 1 (Utf8.encode "class a.B\n".toList) = _ from rfl))
      (show Ledger.append _ 1 (Utf8.encode [' ', ' ']) = _ from rfl))
      (show Ledger.append _ 1 (Utf8.encode "éx".toList) = _ from rfl))
      (show Ledger.append _ 1 (Utf8.encode ['\n']) = _ from rfl)
  have hsound : Sound spelledWorld (.pure [.ref 1]) [] [] := by
    refine ⟨by decide, by decide, hledger, fun a id hid => ?_,
      fun a ha => absurd ha List.not_mem_nil,
      fun p hp => absurd hp List.not_mem_nil⟩
    cases hid
  have hregistered : opened.registerString 0 "éx" = .ok (12, spelled) := rfl
  have hliteral : spelledWorld.heap.text? 1 = some "éx" := rfl
  obtain ⟨t, o, b', b'', hrun, ht, -, -, hstack, htext, hread, hpoint, -⟩ :=
    constantString_points (L := #[])
    (S := []) hopened hregistered (.refl spelled) hsound hliteral
  have hpoint' := hpoint (.pure [.ref o]) List.mem_cons_self
  exact ⟨t, o, b', hrun, ht, hstack, htext, hpoint' 0, hpoint' 1, hpoint' 2, hread 0 'é' rfl,
    hread 1 'x' rfl⟩

end Work

end Provenance
