/-
# Where the characters of an argument stand in its origin

A char array among the arguments is tied to an origin that holds the bytes of its text, and its
element at an index leads to the byte of the same number (`Tool.Traced.pointAt`).  Characters are
numbered, though, one by one, and take up to four bytes.  So an element leads to its own character
as long as the characters before it take one byte each, and a character of more bytes puts all that
come after it out of line (`Utf8.inLine_encode_iff`).

The arguments are made one after the other, and making one leaves the earlier ones as they are,
because they are held (`Tool.Keeps`).
-/
import Provenance.Proofs.Decoding
import Provenance.Proofs.Living
import Provenance.Proofs.Rewriting
import Provenance.Proofs.Growing
import Provenance.Tool.Run

namespace Provenance

/-! ## 1. Characters and bytes -/

namespace Utf8

/-- Each character of the text begins in the content at the byte of its number. -/
def InLine (content : List UInt8) (cs : List Char) : Prop :=
  ∀ i c, cs[i]? = some c → String.utf8EncodeChar c <+: content.drop i

/-- A character stands behind the bytes of those before it. -/
theorem isPrefix_drop_encode {cs : List Char} {i : Nat} {c : Char} (hc : cs[i]? = some c) :
    String.utf8EncodeChar c <+: (encode cs).drop (byteLength (cs.take i)) := by
  have hdrop := drop_encode hc []
  simp only [List.append_nil] at hdrop
  exact hdrop ▸ List.prefix_append _ _

/-- No character begins at the second byte of another one. -/
theorem not_isPrefix_tail {c d : Char} {b b' : UInt8} {bs rest : List UInt8}
    (hc : String.utf8EncodeChar c = b :: b' :: bs) :
    ¬String.utf8EncodeChar d <+: b' :: bs ++ rest := by
  intro hbegins
  have hlength : 0 < (String.utf8EncodeChar d).length :=
    List.length_pos_of_ne_nil String.utf8EncodeChar_ne_nil
  have hfirst : (String.utf8EncodeChar d)[0].IsUTF8FirstByte :=
    UInt8.isUTF8FirstByte_getElem_zero_utf8EncodeChar
  rw [hbegins.getElem hlength] at hfirst
  have htwo : 1 < (String.utf8EncodeChar c).length := by simp [hc]
  have hsecond : (String.utf8EncodeChar c)[1].IsUTF8FirstByte := by simpa [hc] using hfirst
  cases UInt8.isUTF8FirstByte_getElem_utf8EncodeChar.mp hsecond

/-- **The bytes of a text are in line** with its characters if all but the last take one byte each,
and not otherwise. -/
theorem inLine_encode_iff : ∀ cs : List Char, InLine (encode cs) cs ↔ isAscii cs.dropLast
  | [] => by simp [InLine, isAscii]
  | [c] => by
    refine iff_of_true (fun i c' hc' => ?_) rfl
    obtain ⟨rfl, rfl⟩ : i = 0 ∧ c = c' := by simpa [List.getElem?_singleton] using hc'
    simp
  | c :: d :: cs => by
    have htext : isAscii (c :: d :: cs).dropLast ↔ c.toNat < 128 ∧ isAscii (d :: cs).dropLast := by
      simp [isAscii]
    rw [htext, ← inLine_encode_iff (d :: cs), encode_cons]
    rcases hbytes : String.utf8EncodeChar c with _ | ⟨b, _ | ⟨b', bs⟩⟩
    · exact absurd hbytes String.utf8EncodeChar_ne_nil
    · have hsize : c.utf8Size = 1 := by
        rw [← String.length_utf8EncodeChar, hbytes, List.length_singleton]
      have hc : c.toNat < 128 :=
        Nat.lt_succ_of_le (UInt32.le_iff_toNat_le.mp (Char.utf8Size_eq_one_iff.mp hsize))
      constructor
      · exact fun h => ⟨hc, fun i c' hc' => h (i + 1) c' hc'⟩
      · rintro ⟨-, h⟩ (_ | i) c' hc'
        · obtain rfl : c = c' := Option.some.inj hc'
          rw [hbytes]
          exact List.prefix_append [b] _
        · exact h i c' hc'
    · -- the second character is looked for at the second byte of the first
      have hc : ¬c.toNat < 128 := fun hc => by
        have hlength := length_utf8EncodeChar_ascii hc
        rw [hbytes] at hlength
        simp at hlength
      refine iff_of_false (fun h => ?_) fun h => hc h.1
      exact not_isPrefix_tail hbytes (h 1 d rfl)

end Utf8

/-! ## 2. An array and its origin -/

namespace Ledger

/-- An origin stands for itself. -/
theorem resolve_origin {l : Ledger} {id : TrackerId} {t : Tracker} (ht : l.tracker? id = some t)
    (hrole : t.role = .origin) {depth : Nat} (hdepth : 0 < depth) (index length : Nat) :
    l.resolve depth id index length = some ⟨id, index, length⟩ := by
  obtain ⟨depth, rfl⟩ := Nat.exists_eq_succ_of_ne_zero hdepth.ne'
  simp only [resolve, ht, hrole]

/-- The ledger with an origin more, which holds some data. -/
def withOrigin (l : Ledger) (descriptor : Option String) (data : List UInt8) : Ledger :=
  (l.add (.new .origin [] descriptor)).2.modifyTracker l.trackers.nextId fun t =>
    { t with content := t.content ++ data }

variable (l : Ledger) (descriptor : Option String) (data : List UInt8)

theorem append_new : (l.add (.new .origin [] descriptor)).2.append l.trackers.nextId data =
    .ok (l.withOrigin descriptor data) := by
  unfold append
  rw [tracker?_add, if_pos rfl]
  rfl

theorem tracker?_withOrigin_new : (l.withOrigin descriptor data).tracker? l.trackers.nextId =
    some (.new .origin data descriptor) := by
  unfold withOrigin
  rw [tracker?_modifyTracker, if_pos rfl, tracker?_add, if_pos rfl]
  rfl

theorem tracker?_withOrigin {l : Ledger} {id : TrackerId} {t : Tracker}
    (h : l.tracker? id = some t) :
    (l.withOrigin descriptor data).tracker? id = some t := by
  have hlt := Table.lt_nextId (Option.isSome_of_eq_some h)
  unfold withOrigin
  rw [tracker?_modifyTracker, if_neg hlt.ne', tracker?_add_of_some h]

end Ledger

namespace Store

/-- An object is given its tracker, whether that purges or not. -/
theorem alike_setTracker {s : Store} (hs : s.isActive) (alive : ObjectId → Bool) (o : ObjectId)
    (id : TrackerId) :
    Alike alive { s with objects := s.objects.insert o id } (s.setTracker alive o id) := by
  unfold setTracker
  rw [if_pos hs]
  exact alike_tick _ alive

end Store

namespace Tool

variable {w w' : World} {text : String} {array : ObjectId} {origin : TrackerId}

/-- An array of the characters of a text, which is held and tied to an origin with that text. -/
structure Traced (w : World) (text : String) (array : ObjectId) (origin : TrackerId) : Prop where
  held : .ref array ∈ w.held
  object : w.heap.objects.get? array = some (.charArray text)
  tracker : w.store.objects.get? array = some origin
  origin : ∃ t, w.store.ledger.tracker? origin = some t ∧ t.role = .origin ∧
    t.content = Utf8.bytes text

/-- **Where an element came from**: its index is looked up among the bytes of the origin. -/
theorem Traced.pointAt (h : Traced w text array origin) (hactive : w.store.isActive)
    (hdepth : 0 < w.store.settings.maxResolveDepth) (inUse : Thunk (List Value)) (i : Nat) :
    (w.store.pointAt (w.alive inUse) array i).1 = some ⟨origin, i, 1⟩ := by
  obtain ⟨t, ht, hrole, -⟩ := h.origin
  have halive : w.alive inUse array = true := World.alive_of_held (by rw [h.object]; rfl) h.held
  rw [Store.pointAt_eq hactive halive, Store.pointOf, h.tracker]
  exact Ledger.resolve_origin ht hrole hdepth i 1

/-- What the arguments to come leave of a world. -/
structure Keeps (w w' : World) : Prop where
  active : w'.store.isActive = w.store.isActive
  depth : w'.store.settings.maxResolveDepth = w.store.settings.maxResolveDepth
  traced {text : String} {array : ObjectId} {origin : TrackerId} :
    Traced w text array origin → Traced w' text array origin

namespace Keeps

variable {w'' : World}

theorem refl (w : World) : Keeps w w := ⟨rfl, rfl, id⟩

theorem trans (h : Keeps w w') (h' : Keeps w' w'') : Keeps w w'' :=
  ⟨h'.active.trans h.active, h'.depth.trans h.depth, fun ht => h'.traced (h.traced ht)⟩

theorem allocate (w : World) (x : HeapObject) : Keeps w (w.allocate x).2 := by
  refine ⟨rfl, rfl, fun h => ⟨h.held, ?_, h.tracker, h.origin⟩⟩
  have hlt := Table.lt_nextId (Option.isSome_of_eq_some h.object)
  exact (Table.get?_add _ _ _).trans ((if_neg hlt.ne).trans h.object)

/-- One value more is held. -/
theorem hold (w : World) (v : Value) : Keeps w { w with held := v :: w.held } :=
  ⟨rfl, rfl, fun h => ⟨List.mem_cons_of_mem v h.held, h.object, h.tracker, h.origin⟩⟩

end Keeps

/-! ## 3. Arguments -/

/-- The world in which an array and an origin for it are made, and not yet tied. -/
def untied (w : World) (label text : String) : World :=
  { (w.allocate (.charArray text)).2 with
    store := { w.store with ledger := w.store.ledger.withOrigin (some label) (Utf8.bytes text) } }

theorem trackedChars_eq (w : World) (label text : String) :
    trackedChars w label text =
      (.ref w.heap.objects.nextId,
        ⟨label, w.heap.objects.nextId, some w.store.ledger.trackers.nextId⟩,
        { untied w label text with
          store := (untied w label text).store.setTracker
            ((untied w label text).alive (.pure [.ref w.heap.objects.nextId]))
            w.heap.objects.nextId w.store.ledger.trackers.nextId }) := by
  have happend := w.store.ledger.append_new (some label) (Utf8.bytes text)
  unfold trackedChars
  simp only [World.allocate, Heap.allocate, Store.addTracker, Ledger.add,
    Store.onLedger] at happend ⊢
  rw [happend]
  rfl

theorem untied_keeps (w : World) (label text : String) : Keeps w (untied w label text) := by
  refine (Keeps.allocate w (.charArray text)).trans ⟨rfl, rfl, fun h => ?_⟩
  obtain ⟨t, ht, horigin⟩ := h.origin
  exact ⟨h.held, h.object, h.tracker, t, Ledger.tracker?_withOrigin _ _ ht, horigin⟩

/-- **The array of an argument** is tied to an origin with the text of the argument. -/
theorem trackedChars_traced (hactive : w.store.isActive) (label text : String) :
    ∃ array origin w', trackedChars w label text = (.ref array, ⟨label, array, some origin⟩, w') ∧
      Keeps w w' ∧ Traced { w' with held := .ref array :: w'.held } text array origin := by
  have hkeeps := untied_keeps w label text
  have hnew : (untied w label text).heap.objects.get? w.heap.objects.nextId =
      some (.charArray text) :=
    (Table.get?_add _ _ _).trans (if_pos rfl)
  have halike := Store.alike_setTracker (hkeeps.active.trans hactive)
    ((untied w label text).alive (.pure [.ref w.heap.objects.nextId])) w.heap.objects.nextId
    w.store.ledger.trackers.nextId
  have hentry := fun o ho => (halike.tracker o ho).symm.trans (WeakMap.get?_insert _ _ _ _)
  refine ⟨_, _, _, trackedChars_eq w label text,
    ⟨halike.isActive.symm, halike.depth.symm, fun h => ?_⟩, List.mem_cons_self, hnew, ?_, ?_⟩
  · -- what is held is alive, and not the new array
    have hold := hkeeps.traced h
    have hother := (Table.lt_nextId (Option.isSome_of_eq_some h.object)).ne
    refine ⟨hold.held, hold.object, ?_, halike.ledger ▸ hold.origin⟩
    rw [hentry _ (World.alive_of_held (Option.isSome_of_eq_some hold.object) hold.held),
      if_neg hother]
    exact h.tracker
  · rw [hentry _
      (World.alive_of_inUse (Option.isSome_of_eq_some hnew) List.mem_cons_self), if_pos rfl]
  · exact halike.ledger ▸ ⟨_, Ledger.tracker?_withOrigin_new _ _ _, rfl, rfl⟩

theorem argumentValue_keeps (hactive : w.store.isActive) {label : String} {a : Argument} {v : Value}
    {x : Option Observed} (h : argumentValue w label a = (v, x, w')) :
    Keeps w { w' with held := v :: w'.held } := by
  suffices hmade : Keeps w (argumentValue w label a).2.2 by
    rw [h] at hmade
    exact hmade.trans (.hold w' v)
  cases a with
  | int _ | null => exact .refl w
  | str text => exact .allocate w _
  | buffer length => exact .allocate w _
  | chars text =>
    obtain ⟨array, origin, w', heq, hkeeps, -⟩ := trackedChars_traced hactive label text
    simpa only [argumentValue, heq] using hkeeps

/-- **Making arguments** leaves those that are there as they are. -/
theorem argumentValues_keeps : ∀ {texts : List String} {w w' : World} {index : Nat}
    {values : List Value} {observed : List Observed}, w.store.isActive →
    argumentValues w index texts = .ok (values, observed, w') → Keeps w w'
  | [], w, w', index, values, observed, _, h => by
    obtain ⟨-, -, rfl⟩ : values = [] ∧ observed = [] ∧ w' = w := by
      simpa [argumentValues, eq_comm] using h
    exact .refl _
  | text :: texts, w, w', index, values, observed, hactive, h => by
    obtain ⟨a, v, x, w₁, vs, others, -, hvalue, hrest, -, -⟩ := argumentValues_cons h
    have hkeeps := argumentValue_keeps hactive hvalue
    exact hkeeps.trans (argumentValues_keeps (hkeeps.active.trans hactive) hrest)

/-- **Each text of characters** among the arguments has its array and its origin when all are made.
-/
theorem argumentValues_traced : ∀ {texts : List String} {w w' : World} {index k : Nat}
    {values : List Value} {observed : List Observed} {argument : String}, w.store.isActive →
    argumentValues w index texts = .ok (values, observed, w') → texts[k]? = some argument →
    Argument.parse argument = .ok (.chars text) → ∃ array origin, values[k]? = some (.ref array) ∧
      ⟨"argument " ++ toString (index + k), array, some origin⟩ ∈ observed ∧
      Traced w' text array origin
  | first :: texts, w, w', index, k, values, observed, argument, hactive, h, hk, hparse => by
    obtain ⟨a, v, x, w₁, vs, others, ha, hvalue, hrest, rfl, rfl⟩ := argumentValues_cons h
    have hactive₁ := (argumentValue_keeps hactive hvalue).active.trans hactive
    cases k with
    | zero =>
      obtain rfl : first = argument := Option.some.inj hk
      obtain rfl : a = .chars text := Except.ok.inj (ha.symm.trans hparse)
      obtain ⟨array, origin, w₂, heq, -, htraced⟩ :=
        trackedChars_traced hactive ("argument " ++ toString index) text
      rw [argumentValue, heq] at hvalue
      cases hvalue
      exact ⟨array, origin, rfl, List.mem_cons_self,
        (argumentValues_keeps hactive₁ hrest).traced htraced⟩
    | succ k =>
      obtain ⟨array, origin, hvalues, hobserved, htraced⟩ :=
        argumentValues_traced hactive₁ hrest hk hparse
      rw [Nat.add_right_comm] at hobserved
      exact ⟨array, origin, hvalues, List.mem_append_right _ hobserved, htraced⟩

/-! ## 4. Before the run -/

theorem one_le_maxResolveDepth (env : Environment) :
    1 ≤ (StoreSettings.ofEnvironment env).maxResolveDepth := by
  unfold StoreSettings.ofEnvironment
  simp only
  cases (env "FLOWTRACK_MAX_RESOLVE_DEPTH").bind (Numeral.nat? Numeral.wordBound) with
  | none => decide
  | some n => exact Nat.le_max_left 1 n

/-- **The store before the run** is a new one, but for the literals of the class. -/
theorem prepare_store {s : Surroundings} {o : RunOptions} {c woven : Class} {store : Store}
    (h : (prepare s o c).outcome = .ok (woven, store)) :
    (Store.empty (.ofEnvironment s.environment)).OnlyWrites store := by
  unfold prepare at h
  split at h
  · obtain ⟨-, rfl⟩ := Prod.mk.inj (Except.ok.inj h)
    exact .refl _
  · obtain ⟨⟨_, report, after⟩, hfresh, hend⟩ := Logged.of_bind h
    obtain ⟨_, -, hend⟩ := Logged.of_bind hend
    obtain ⟨settings, -, hfresh⟩ := Logged.of_bind hfresh
    obtain ⟨weaver, -, hfresh⟩ := Logged.of_bind hfresh
    obtain ⟨_, -, hfresh⟩ := Logged.of_bind hfresh
    have hweave := weaver.weaveClass_store (.empty (.ofEnvironment s.environment)) c
    cases hend
    cases hfresh
    exact hweave

theorem prepare_active {s : Surroundings} {o : RunOptions} {c woven : Class} {store : Store}
    (h : (prepare s o c).outcome = .ok (woven, store)) :
    store.isActive ∧ 1 ≤ store.settings.maxResolveDepth := by
  obtain ⟨ledger, tables, rfl⟩ := prepare_store h
  exact ⟨rfl, one_le_maxResolveDepth s.environment⟩

end Tool

/-- **Elements lead to bytes.**  Before the method runs, each char array made of a text among the
arguments has an origin with the bytes of the text, and its element at an index leads to the byte of
that number.  The character of that index begins behind the bytes of the characters before it; so
every element leads to its own character exactly if all characters but the last take one byte each.
-/
theorem elements_lead_to_bytes {s : Surroundings} {o : RunOptions} {c woven : Class} {store : Store}
    {settings : StoreSettings} {values : List Value} {observed : List Tool.Observed}
    {w₀ : World} {k : Nat} {argument text : String}
    (hprepare : (Tool.prepare s o c).outcome = .ok (woven, store))
    (hargs : Tool.argumentValues { World.empty settings with store } 0 o.args =
      .ok (values, observed, w₀))
    (hk : o.args[k]? = some argument) (hparse : Argument.parse argument = .ok (.chars text)) :
    let w : World := { w₀ with held := observed.map fun x => .ref x.object }
    ∃ array origin t, values[k]? = some (.ref array) ∧
      w.heap.objects.get? array = some (.charArray text) ∧
      w.store.ledger.tracker? origin = some t ∧ t.role = .origin ∧ t.content = Utf8.bytes text ∧
      (∀ inUse i, (w.store.pointAt (w.alive inUse) array i).1 = some ⟨origin, i, 1⟩) ∧
      (∀ i ch, text.toList[i]? = some ch →
        String.utf8EncodeChar ch <+: t.content.drop (Utf8.byteLength (text.toList.take i))) ∧
      ((∀ i ch, text.toList[i]? = some ch → ∀ inUse, ∃ p,
        (w.store.pointAt (w.alive inUse) array i).1 = some ⟨origin, p, 1⟩ ∧
          String.utf8EncodeChar ch <+: t.content.drop p) ↔ Utf8.isAscii text.toList.dropLast) := by
  intro w
  obtain ⟨hactive, hdepth⟩ := Tool.prepare_active hprepare
  have hkeeps := Tool.argumentValues_keeps hactive hargs
  obtain ⟨array, origin, hvalue, hobserved, htraced₀⟩ :=
    Tool.argumentValues_traced hactive hargs hk hparse
  have htraced : Tool.Traced w text array origin :=
    { htraced₀ with held := List.mem_map.mpr ⟨_, hobserved, rfl⟩ }
  have hpoint := htraced.pointAt (hkeeps.active.trans hactive) (hkeeps.depth ▸ hdepth)
  obtain ⟨t, ht, hrole, hcontent⟩ := htraced.origin
  refine ⟨array, origin, t, hvalue, htraced.object, ht, hrole, hcontent, hpoint,
    fun i ch hch => ?_, ?_⟩
  · rw [hcontent]
    exact Utf8.isPrefix_drop_encode hch
  · rw [← Utf8.inLine_encode_iff, hcontent]
    constructor
    · intro h i ch hch
      obtain ⟨p, hp, hbegins⟩ := h i ch hch (.pure [])
      cases (hpoint (.pure []) i).symm.trans hp
      exact hbegins
    · exact fun h i ch hch inUse => ⟨i, hpoint inUse i, h i ch hch⟩

/-- The second of two characters, the first of which takes two bytes, leads into the first. -/
theorem second_leads_into_first : ∃ values observed w₀,
    Tool.argumentValues
      { World.empty .default with store := .empty (.ofEnvironment fun _ => none) } 0
      ["chars:éa"] = .ok (values, observed, w₀) ∧
    let w : World := { w₀ with held := observed.map fun x => .ref x.object }
    ∃ array origin t, values[0]? = some (.ref array) ∧ w.store.ledger.tracker? origin = some t ∧
      (w.store.pointAt (w.alive (.pure [])) array 1).1 = some ⟨origin, 1, 1⟩ ∧
      ¬String.utf8EncodeChar 'a' <+: t.content.drop 1 ∧
      String.utf8EncodeChar 'a' <+: t.content.drop 2 := by
  have hok : (Tool.argumentValues { World.empty .default with
      store := .empty (.ofEnvironment fun _ => none) } 0 ["chars:éa"]).isOk = true := by
        decide +kernel
  have hparse : Argument.parse "chars:éa" = .ok (.chars "éa") := by decide +kernel
  cases hargs : Tool.argumentValues { World.empty .default with
      store := .empty (.ofEnvironment fun _ => none) } 0 ["chars:éa"] with
  | error e =>
    rw [hargs] at hok
    cases hok
  | ok x =>
    obtain ⟨values, observed, w₀⟩ := x
    obtain ⟨array, origin, t, hvalue, -, ht, -, hcontent, hpoint, -, -⟩ :=
      elements_lead_to_bytes (s := ⟨fun _ => none, fun _ => none⟩)
        (o := ⟨"", "", "", ["chars:éa"], none, true⟩) (c := ⟨"demo/T", []⟩) (k := 0)
        rfl hargs rfl hparse
    refine ⟨values, observed, w₀, rfl, array, origin, t, hvalue, ht, hpoint _ 1, ?_, ?_⟩
    · rw [hcontent]
      decide +kernel
    · rw [hcontent]
      decide +kernel

end Provenance
