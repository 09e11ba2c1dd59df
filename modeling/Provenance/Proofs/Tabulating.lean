/-
# Literals stay where they are

A table only grows at its end, so what was registered stands where it was put for good: whatever is
registered in whatever table afterwards, and whatever else is done to trackers meanwhile, the bytes
of every literal are found at the place that was given out for it, and no two places of a table
share a byte (`Store.registry_keeps`).

One write (`Store.Written`) makes one call (`Store.Tabled.register`), and what one occurrence does
(`Store.Undergone`) is put together to what all of them do (`Store.Lived`).
-/
import Mathlib.Data.List.Nodup
import Provenance.Proofs.Conversing
import Provenance.Proofs.Decoding
import Provenance.Proofs.HookEffects
import Provenance.Proofs.Registering

namespace Provenance

/-! ## 1. Renderings of whole numbers -/

theorem hexDigit_ne : ∀ n < 16, Nat.digitChar n ≠ '(' := by decide

/-- Digits are no parentheses. -/
theorem ne_of_mem_hexDigits : ∀ (fuel n : Nat) (cs : List Char), (∀ c ∈ cs, c ≠ '(') →
    ∀ c ∈ Nat.toDigitsCore 16 fuel n cs, c ≠ '(' := by
  intro fuel
  induction fuel with
  | zero => exact fun _ _ hcs => hcs
  | succ fuel ih =>
    intro n cs hcs
    have hmore : ∀ c ∈ (n % 16).digitChar :: cs, c ≠ '(' :=
      List.forall_mem_cons.mpr ⟨hexDigit_ne _ (Nat.mod_lt n (by decide)), hcs⟩
    rw [Nat.toDigitsCore]
    split
    · exact hmore
    · exact ih _ _ hmore

/-- A decimal tells the number. -/
theorem toDigits_injective {n n' : Nat} (h : Nat.toDigits 10 n = Nat.toDigits 10 n') : n = n' := by
  rw [← Nat.ofDigitChars_ten_toDigits (n := n), h, Nat.ofDigitChars_ten_toDigits]

theorem toList_toString (i : Int) :
    (toString i).toList =
      if 0 ≤ i then Nat.toDigits 10 i.toNat else '-' :: Nat.toDigits 10 (-i).toNat := by
  rw [Int.toString_eq_repr, Int.repr_eq_if]
  split <;> simp [Nat.repr_eq_ofList_toDigits]

/-- So does a decimal with a sign. -/
theorem toString_injective {i i' : Int}
    (h : (toString i).toList = (toString i').toList) : i = i' := by
  have hsign : ∀ n n' : Nat, Nat.toDigits 10 n ≠ '-' :: Nat.toDigits 10 n' := fun n n' h =>
    absurd (Nat.isDigit_of_mem_toDigits (n := n) (by decide) (Nat.le_refl 10)
      (h ▸ List.mem_cons_self)) (by decide)
  rw [toList_toString, toList_toString] at h
  split at h <;> split at h
  · have := toDigits_injective h
    omega
  · exact absurd h (hsign _ _)
  · exact absurd h.symm (hsign _ _)
  · have := toDigits_injective (List.cons.inj h).2
    omega

theorem toNat_printable : ∀ n < 127, (Char.ofNat n).toNat = n := by decide

namespace Store

theorem renderConstant_of_printable {value : Int64} (h : 32 ≤ value.toInt ∧ value.toInt < 127) :
    renderConstant value = [Char.ofNat value.toInt.toNat] := if_pos h

theorem renderConstant_of_not {value : Int64} (h : ¬(32 ≤ value.toInt ∧ value.toInt < 127)) :
    renderConstant value = ['0', 'x'] ++ Nat.toDigits 16 value.toUInt64.toNat ++ [' ', '('] ++
      (toString value.toInt).toList ++ [')'] := if_neg h

/-- What stands in front of the decimal. -/
theorem dropWhile_renderConstant {value : Int64} (h : ¬(32 ≤ value.toInt ∧ value.toInt < 127)) :
    (renderConstant value).dropWhile (· != '(') =
      '(' :: (toString value.toInt).toList ++ [')'] := by
  have hdigits : ∀ c ∈ Nat.toDigits 16 value.toUInt64.toNat, (c != '(') = true := fun c hc =>
    bne_iff_ne.mpr (ne_of_mem_hexDigits _ _ [] (fun _ h => absurd h List.not_mem_nil) c hc)
  have hprefix : ∀ c ∈ ['0', 'x'], (c != '(') = true := by simp
  rw [renderConstant_of_not h]
  simp only [List.append_assoc]
  rw [List.dropWhile_append_of_pos hprefix, List.dropWhile_append_of_pos hdigits]
  rfl

theorem length_renderConstant {value : Int64} (h : ¬(32 ≤ value.toInt ∧ value.toInt < 127)) :
    1 < (renderConstant value).length := by
  rw [renderConstant_of_not h]
  simp only [List.length_append, List.length_cons, List.length_nil]
  omega

/-- **A rendering tells the number.** -/
theorem renderConstant_injective {value value' : Int64}
    (h : renderConstant value = renderConstant value') :
    value = value' := by
  by_cases hv : 32 ≤ value.toInt ∧ value.toInt < 127
  · by_cases hv' : 32 ≤ value'.toInt ∧ value'.toInt < 127
    · rw [renderConstant_of_printable hv, renderConstant_of_printable hv'] at h
      have hchar := congrArg Char.toNat (List.cons.inj h).1
      rw [toNat_printable _ (by omega), toNat_printable _ (by omega)] at hchar
      exact Int64.toInt_inj.mp (by omega)
    · have hlong := length_renderConstant hv'
      rw [← h, renderConstant_of_printable hv] at hlong
      exact absurd hlong (Nat.lt_irrefl 1)
  · by_cases hv' : 32 ≤ value'.toInt ∧ value'.toInt < 127
    · have hlong := length_renderConstant hv
      rw [h, renderConstant_of_printable hv'] at hlong
      exact absurd hlong (Nat.lt_irrefl 1)
    · have hsame := congrArg (List.dropWhile (· != '(')) h
      rw [dropWhile_renderConstant hv, dropWhile_renderConstant hv'] at hsame
      have hdecimal := List.append_cancel_right (List.cons.inj hsame).2
      exact Int64.toInt_inj.mp (toString_injective hdecimal)

end Store

/-! ## 2. Contents go on -/

namespace Ledger

variable {l l' l'' : Ledger} {id : TrackerId}

/-- An origin that is there. -/
def IsOrigin (l : Ledger) (id : TrackerId) : Prop := ∃ t, l.tracker? id = some t ∧ t.role = .origin

/-- The content of a tracker; one that is gone has none. -/
def content (l : Ledger) (id : TrackerId) : List UInt8 :=
  match l.tracker? id with
  | some t => t.content
  | none => []

theorem content_of_some {t : Tracker} (ht : l.tracker? id = some t) : l.content id = t.content := by
  unfold content
  rw [ht]

theorem IsOrigin.length (h : l.IsOrigin id) : l.length id = (l.content id).length := by
  obtain ⟨t, ht, hrole⟩ := h
  rw [content_of_some ht]
  unfold Ledger.length Tracker.length
  rw [ht]
  simp only [hrole]

/-- A later ledger: what was an origin is one still, and its content goes on from what it was. -/
def Grows (l l' : Ledger) (id : TrackerId) : Prop :=
  l.IsOrigin id → l'.IsOrigin id ∧ l.content id <+: l'.content id

namespace Grows

theorem refl (l : Ledger) (id : TrackerId) : l.Grows l id := fun h => ⟨h, List.prefix_refl _⟩

theorem trans (h : l.Grows l' id) (h' : l'.Grows l'' id) : l.Grows l'' id := by
  intro horigin
  obtain ⟨horigin', hprefix⟩ := h horigin
  obtain ⟨horigin'', hprefix'⟩ := h' horigin'
  exact ⟨horigin'', hprefix.trans hprefix'⟩

theorem of_same (h : l'.tracker? id = l.tracker? id) : l.Grows l' id := by
  rintro ⟨t, ht, hrole⟩
  have hcontent : l'.content id = l.content id :=
    (content_of_some (h.trans ht)).trans (content_of_some ht).symm
  exact ⟨⟨t, h.trans ht, hrole⟩, hcontent ▸ List.prefix_refl _⟩

/-- A change of one tracker that keeps its role and lets its content go on. -/
theorem modify (l : Ledger) (other : TrackerId) {f : Tracker → Tracker}
    (hrole : ∀ t, (f t).role = t.role) (hcontent : ∀ t, t.content <+: (f t).content) :
    l.Grows (l.modifyTracker other f) id := by
  rintro ⟨t, ht, horigin⟩
  by_cases hid : other = id
  · have ht' : (l.modifyTracker other f).tracker? id = some (f t) := by
      rw [tracker?_modifyTracker, if_pos hid, ht, Option.map_some]
    refine ⟨⟨f t, ht', (hrole t).trans horigin⟩, ?_⟩
    rw [content_of_some ht, content_of_some ht']
    exact hcontent t
  · exact of_same (by rw [tracker?_modifyTracker, if_neg hid]) ⟨t, ht, horigin⟩

/-- A change that has nothing to do with contents. -/
theorem modify_same (l : Ledger) (other : TrackerId) {f : Tracker → Tracker}
    (hrole : ∀ t, (f t).role = t.role) (hcontent : ∀ t, (f t).content = t.content) :
    l.Grows (l.modifyTracker other f) id :=
  modify l other hrole fun t => hcontent t ▸ List.prefix_refl _

theorem add (l : Ledger) (t : Tracker) (id : TrackerId) : l.Grows (l.add t).2 id := by
  rintro ⟨t', ht', hrole⟩
  exact of_same ((tracker?_add_of_some ht' t).trans ht'.symm) ⟨t', ht', hrole⟩

theorem link (l : Ledger) (first second : TrackerId) : l.Grows (l.link first second) id := by
  have hstarted : l.Grows { l with conversations := l.conversations.add (.start first second) }
      id := of_same rfl
  refine hstarted.trans ((modify_same _ first ?_ ?_).trans (modify_same _ second ?_ ?_))
  all_goals
    intro t
    rfl

theorem append {other : TrackerId} {data : List UInt8} (h : l.append other data = .ok l') :
    l.Grows l' id := by
  unfold Ledger.append at h
  split at h
  · cases h
    exact refl l id
  · split at h
    · cases h
      refine Grows.trans ?_ (modify _ other ?_ ?_)
      · split
        · exact refl l id
        · exact of_same rfl
      · intro t
        rfl
      · intro t
        exact List.prefix_append _ _
    · cases h

theorem setSource {other index length sourceIndex : Nat} {source : Option TrackerId}
    (h : l.setSource other index length source sourceIndex = .ok l') : l.Grows l' id := by
  obtain rfl | ⟨t, -, -, rfl⟩ := setSource_cases h
  · exact refl l' id
  · exact modify_same l other (fun _ => rfl) fun _ => rfl

theorem perform {other : TrackerId} {op : Operation} (h : l.perform other op = .ok l') :
    l.Grows l' id := by
  have hlinked : ∀ {first second : TrackerId}, l.initTwin first second = .ok l' →
      l.Grows l' id := by
    intro first second h
    unfold Ledger.initTwin at h
    (repeat' split at h) <;> cases h
    exact link l first second
  cases op with
  | append data => exact append h
  | setSource index length source sourceIndex => exact setSource h
  | setSourcePoint index length point =>
    unfold Ledger.perform Ledger.setSourcePoint at h
    cases point with
    | none => exact setSource h
    | some p => exact setSource h
  | twinOf other' first =>
    cases first with
    | true => exact hlinked h
    | false => exact hlinked h

end Grows

/-- The same deed, but for some trackers that do not go. -/
def Deed.sparing (ids : List TrackerId) : Deed → Deed
  | .release roots => .release (roots ++ ids)
  | d => d

/-- **Whatever is done to trackers**, the content of an origin that is kept goes on. -/
theorem Grows.after (l : Ledger) (d : Deed) {ids : List TrackerId} (hid : id ∈ ids) :
    l.Grows (l.after (d.sparing ids)) id := by
  cases d with
  | add role content descriptor => exact add l _ id
  | twins descriptor => exact ((add l _ id).trans (add _ _ id)).trans (link _ _ _)
  | on other op =>
    simp only [Deed.sparing, Ledger.after]
    cases h : l.perform other op with
    | ok l' => exact perform h
    | error e => exact refl l id
  | describe other descriptor => exact modify_same l other (fun _ => rfl) fun _ => rfl
  | release roots => exact of_same (tracker?_retain_of_mem l (List.mem_append_right roots hid))

end Ledger

/-! ## 3. Writing to a table -/

namespace Store

variable {s s' s'' : Store} {id : TrackerId}

/-- A store in which some bytes were written to an origin, and nothing else was done. -/
structure Written (s s' : Store) (id : TrackerId) (bytes : List UInt8) : Prop where
  tables : s'.tables = s.tables
  content : s'.ledger.content id = s.ledger.content id ++ bytes
  grows : ∀ other, s.ledger.Grows s'.ledger other

theorem Written.trans {bytes bytes' : List UInt8} (h : s.Written s' id bytes)
    (h' : s'.Written s'' id bytes') :
    s.Written s'' id (bytes ++ bytes') where
  tables := h'.tables.trans h.tables
  content := by rw [h'.content, h.content, List.append_assoc]
  grows other := (h.grows other).trans (h'.grows other)

/-- **One write.** -/
theorem write_written (text : List Char) (h : s.ledger.IsOrigin id) :
    ∃ s', s.write id text = .ok s' ∧ s.Written s' id (Utf8.encode text) := by
  obtain ⟨t, ht, hrole⟩ := h
  have happend : ∃ l, s.ledger.append id (Utf8.encode text) = .ok l ∧
      l.tracker? id = some { t with content := t.content ++ Utf8.encode text } := by
    -- noting the switch of sides leaves the trackers alone
    have hwritten : ∀ noted : Ledger, noted.trackers = s.ledger.trackers →
        (noted.modifyTracker id fun t =>
          { t with content := t.content ++ Utf8.encode text }).tracker? id =
          some { t with content := t.content ++ Utf8.encode text } := by
      intro noted hnoted
      have hsame : noted.tracker? id = some t := by
        rw [Ledger.tracker?, hnoted, ← Ledger.tracker?, ht]
      rw [Ledger.tracker?_modifyTracker, if_pos rfl, hsame, Option.map_some]
    unfold Ledger.append
    simp only [ht, hrole, Role.acceptsContent, if_true]
    refine ⟨_, rfl, (hwritten _ ?_).trans (by rw [hrole])⟩
    split <;> rfl
  obtain ⟨l, hl, hlater⟩ := happend
  refine ⟨{ s with ledger := l }, by simp only [write, onLedger, hl], rfl, ?_,
    fun other => .append hl⟩
  rw [Ledger.content_of_some hlater, Ledger.content_of_some ht]

/-- **A literal** stands on a line of its own, behind two blanks. -/
theorem writeLiteral_written {classId : Nat} {t : ConstantTable} (text : List Char)
    (ht : s.tables[classId]? = some t) (h : s.ledger.IsOrigin t.tracker) :
    ∃ s', s.writeLiteral classId text = .ok ((s.ledger.content t.tracker).length + 2, s') ∧
      s.Written s' t.tracker
        (Utf8.encode [' ', ' '] ++ (Utf8.encode text ++ Utf8.encode ['\n'])) := by
  obtain ⟨s₁, h₁, hw₁⟩ := write_written [' ', ' '] h
  have horigin₁ := (hw₁.grows _ h).1
  obtain ⟨s₂, h₂, hw₂⟩ := write_written text horigin₁
  obtain ⟨s₃, h₃, hw₃⟩ := write_written ['\n'] (hw₂.grows _ horigin₁).1
  have hlength : s₁.ledger.length t.tracker = (s.ledger.content t.tracker).length + 2 := by
    rw [horigin₁.length, hw₁.content, List.length_append]
    rfl
  refine ⟨s₃, ?_, hw₁.trans (hw₂.trans hw₃)⟩
  simp only [writeLiteral, table, ht, h₁, h₂, h₃, hlength]

/-! ## 4. The tables of a store -/

/-- Every table has an origin of its own. -/
structure Tabled (s : Store) : Prop where
  origin : ∀ t ∈ s.tables, s.ledger.IsOrigin t.tracker
  distinct : (s.tables.map ConstantTable.tracker).Nodup

/-- A later store: the tables are there still, and they have only grown. -/
structure Kept (s s' : Store) : Prop where
  tables : s.tables <+: s'.tables
  contents : ∀ t ∈ s.tables, s.ledger.Grows s'.ledger t.tracker

theorem Kept.refl (s : Store) : s.Kept s := ⟨List.prefix_refl _, fun _ _ => .refl _ _⟩

theorem Kept.trans (h : s.Kept s') (h' : s'.Kept s'') : s.Kept s'' where
  tables := h.tables.trans h'.tables
  contents t ht := (h.contents t ht).trans (h'.contents t (h.tables.subset ht))

theorem tabled_empty (settings : StoreSettings) : (Store.empty settings).Tabled :=
  ⟨fun _ ht => absurd ht List.not_mem_nil, List.nodup_nil⟩

/-- What leaves the list of tables alone. -/
theorem Tabled.of_grows (h : s.Tabled) (htables : s'.tables = s.tables)
    (hgrows : ∀ t ∈ s.tables, s.ledger.Grows s'.ledger t.tracker) : s'.Tabled ∧ s.Kept s' := by
  refine ⟨⟨fun t ht => ?_, htables ▸ h.distinct⟩, htables ▸ List.prefix_refl _, hgrows⟩
  rw [htables] at ht
  exact (hgrows t ht (h.origin t ht)).1

theorem Tabled.written {bytes : List UInt8} (h : s.Tabled) (hw : s.Written s' id bytes) :
    s'.Tabled ∧ s.Kept s' :=
  h.of_grows hw.tables fun _ _ => hw.grows _

/-- **A new table** gets the next number, and its origin is that of no other table. -/
theorem Tabled.registerClass (h : s.Tabled) (className : String) :
    ∃ s', s.registerClass className = .ok (s.tables.length, s') ∧ s'.Tabled ∧ s.Kept s' ∧
      ∃ tracker, s'.tables = s.tables ++ [⟨className, tracker⟩] := by
  have hnew :
      (s.addTracker (.new .origin [] (some ("class " ++ Ty.dotted className)))).2.ledger.IsOrigin
      s.ledger.trackers.nextId := ⟨_, by rw [addTracker, Ledger.tracker?_add, if_pos rfl], rfl⟩
  obtain ⟨u, hu, hw⟩ := write_written (("class " ++ Ty.dotted className).toList ++ ['\n']) hnew
  have htables : u.tables = s.tables := hw.tables
  have hgrows : ∀ other, s.ledger.Grows u.ledger other := fun other =>
    (Ledger.Grows.add s.ledger _ other).trans (hw.grows other)
  have hfresh : s.ledger.trackers.nextId ∉ s.tables.map ConstantTable.tracker := by
    intro hmem
    obtain ⟨t, ht, hid⟩ := List.mem_map.mp hmem
    obtain ⟨t', ht', -⟩ := h.origin t ht
    rw [hid, Ledger.tracker?, Table.get?_nextId] at ht'
    cases ht'
  refine ⟨{ u with tables := u.tables ++ [⟨className, s.ledger.trackers.nextId⟩] }, ?_,
    ⟨fun t ht => ?_, ?_⟩, ⟨?_, fun t _ => hgrows t.tracker⟩,
    s.ledger.trackers.nextId, by rw [htables]⟩
  · unfold Store.registerClass
    simp only
    rw [show (s.addTracker _).1 = s.ledger.trackers.nextId from rfl, hu]
    simp only [htables]
  · rw [htables] at ht
    rcases List.mem_append.mp ht with ht | ht
    · exact (hgrows _ (h.origin t ht)).1
    · rw [List.mem_singleton.mp ht]
      exact (hw.grows _ hnew).1
  · rw [htables, List.map_append, List.map_singleton]
    refine List.nodup_append.mpr ⟨h.distinct, List.nodup_singleton _,
      fun a ha b hb hab => hfresh ?_⟩
    obtain rfl : b = s.ledger.trackers.nextId := List.mem_singleton.mp hb
    exact hab ▸ ha
  · rw [htables]
    exact List.prefix_append _ _

end Store

/-! ## 5. What is registered -/

/-- A call of the registry of literals. -/
inductive RegistryCall where
  | registerClass (className : String)
  | startMethod (classId : Nat) (description : String)
  | constant (classId : Nat) (value : Int64)
  | string (classId : Nat) (text : String)
  deriving Repr

inductive RegistryReply where
  | table (classId : Nat)
  | done
  | constant (c : ClassConstant)
  | offset (n : Nat)
  | refused (e : StoreError)
  deriving Repr

/-- The table a call is about is there. -/
def RegistryCall.Known (s : Store) : RegistryCall → Prop
  | .registerClass _ => True
  | .startMethod classId _ | .constant classId _ | .string classId _ => classId < s.tables.length

/-- A reply is of the kind that is expected. -/
def RegistryReply.Answers : RegistryReply → RegistryCall → Prop
  | .table _, .registerClass _ => True
  | .done, .startMethod _ _ => True
  | .constant c, .constant classId _ => c.classId = classId
  | .offset _, .string _ _ => True
  | _, _ => False

/-- What happens to a store with tables of literals: a call, or something that is done to trackers.
-/
inductive Occurrence where
  | call (c : RegistryCall)
  | deed (d : Ledger.Deed)
  deriving Repr

namespace Store

/-- Answers a call; what is refused changes nothing. -/
def register (s : Store) : RegistryCall → RegistryReply × Store
  | .registerClass className =>
    match s.registerClass className with
    | .ok (classId, s) => (.table classId, s)
    | .error e => (.refused e, s)
  | .startMethod classId description =>
    match s.startMethod classId description with
    | .ok s => (.done, s)
    | .error e => (.refused e, s)
  | .constant classId value =>
    match s.registerConstant classId value with
    | .ok (c, s) => (.constant c, s)
    | .error e => (.refused e, s)
  | .string classId text =>
    match s.registerString classId text with
    | .ok (offset, s) => (.offset offset, s)
    | .error e => (.refused e, s)

/-- One occurrence; the trackers of the tables do not go. -/
def undergo (s : Store) : Occurrence → RegistryReply × Store
  | .call c => s.register c
  | .deed d =>
    (.done, { s with ledger := s.ledger.after (d.sparing (s.tables.map ConstantTable.tracker)) })

/-- All occurrences with their replies, and the store they lead to. -/
def undergoAll (s : Store) : List Occurrence → List (Occurrence × RegistryReply) × Store
  | [] => ([], s)
  | o :: os =>
    let (r, s) := s.undergo o
    let (rs, s) := s.undergoAll os
    ((o, r) :: rs, s)

end Store

/-- A literal with the place that was given out for it. -/
structure Entry where
  place : ClassConstant
  text : List Char
  deriving DecidableEq, Repr

namespace Entry

/-- The literal that was registered, if it was one. -/
def of? : Occurrence × RegistryReply → Option Entry
  | (.call (.constant _ value), .constant c) => some ⟨c, Store.renderConstant value⟩
  | (.call (.string classId text), .offset n) =>
    some ⟨⟨classId, n, Utf8.byteLength text.toList⟩, text.toList⟩
  | _ => none

/-- In one table, one place ends before the other begins. -/
def Before (e e' : Entry) : Prop :=
  e.place.classId = e'.place.classId → e.place.offset + e.place.length ≤ e'.place.offset

/-- A literal stands in its table, at its place. -/
structure StandsIn (e : Entry) (s : Store) (t : ConstantTable) : Prop where
  table : s.tables[e.place.classId]? = some t
  length : e.place.length = Utf8.byteLength e.text
  within : e.place.offset + e.place.length ≤ (s.ledger.content t.tracker).length
  slice : ((s.ledger.content t.tracker).drop e.place.offset).take e.place.length =
    Utf8.encode e.text

variable {e : Entry} {s s' : Store} {t : ConstantTable}

/-- **What stands in a table stays there.** -/
theorem StandsIn.kept (h : e.StandsIn s t) (hs : s.Tabled) (hkept : s.Kept s') :
    e.StandsIn s' t := by
  have ht : t ∈ s.tables := List.mem_of_getElem? h.table
  obtain ⟨more, htables⟩ := hkept.tables
  obtain ⟨behind, hcontent⟩ := (hkept.contents t ht (hs.origin t ht)).2
  have hwithin := h.within
  refine ⟨?_, h.length, ?_, ?_⟩
  · rw [← htables, List.getElem?_append_left (List.getElem?_eq_some_iff.mp h.table).1, h.table]
  · rw [← hcontent, List.length_append]
    omega
  · rw [← hcontent, List.drop_append_of_le_length (by omega),
      List.take_append_of_le_length (by rw [List.length_drop]; omega), h.slice]

/-- The point of a literal is its place. -/
theorem StandsIn.point (h : e.StandsIn s t) (hs : s.Tabled) :
    s.constantPoint e.place.classId e.place.offset e.place.length =
      .ok ⟨t.tracker, e.place.offset, e.place.length⟩ := by
  have hlength := (hs.origin t (List.mem_of_getElem? h.table)).length
  have hwithin := h.within
  unfold Store.constantPoint Store.table
  rw [h.table]
  simp only [hlength, if_neg (Nat.not_lt.mpr hwithin)]

/-- A literal that was just written stands behind all that was there. -/
theorem standsIn_written {classId : Nat} {text : List Char} (ht : s.tables[classId]? = some t)
    (hw : s.Written s' t.tracker
      (Utf8.encode [' ', ' '] ++ (Utf8.encode text ++ Utf8.encode ['\n']))) :
    StandsIn ⟨⟨classId, (s.ledger.content t.tracker).length + 2, Utf8.byteLength text⟩,
      text⟩ s' t where
  table := hw.tables ▸ ht
  length := rfl
  within := by
    simp only [hw.content, List.length_append, Utf8.byteLength]
    have hblanks : (Utf8.encode [' ', ' ']).length = 2 := rfl
    omega
  slice := by
    simp only [hw.content, Utf8.byteLength, List.drop_length_add_append]
    have hblanks : (Utf8.encode [' ', ' ']).length = 2 := rfl
    rw [List.drop_left' hblanks, List.take_left' rfl]

/-- What ends where a content ends now is before what is written later. -/
theorem StandsIn.before {e₀ : Entry} {t₀ : ConstantTable} {classId length : Nat} {text : List Char}
    (h : e₀.StandsIn s t₀) (ht : s.tables[classId]? = some t) :
    e₀.Before ⟨⟨classId, (s.ledger.content t.tracker).length + 2, length⟩, text⟩ := by
  intro hsame
  obtain rfl : t₀ = t := Option.some.inj (h.table.symm.trans (hsame ▸ ht))
  exact Nat.le_trans h.within (Nat.le_add_right _ 2)

end Entry

/-- The class that was registered, if it was one, with the number it was given. -/
def Occurrence.class? : Occurrence × RegistryReply → Option (String × Nat)
  | (.call (.registerClass className), .table classId) => some (className, classId)
  | _ => none

namespace Store

/-! ## 6. One occurrence and all of them -/

variable {s s' : Store}

/-- **What an occurrence does to the tables**: they grow, classes are numbered as they come, and a
literal is put behind all that stands there. -/
structure Undergone (s : Store) (o : Occurrence) (r : RegistryReply) (s' : Store) : Prop where
  tabled : s'.Tabled
  kept : s.Kept s'
  classes : (s'.tables.map ConstantTable.className).zipIdx =
    (s.tables.map ConstantTable.className).zipIdx ++ (Occurrence.class? (o, r)).toList
  stands : ∀ e, Entry.of? (o, r) = some e → ∃ t, e.StandsIn s' t
  behind : ∀ e, Entry.of? (o, r) = some e → ∀ (e₀ : Entry) t₀, e₀.StandsIn s t₀ → e₀.Before e

/-- What neither registers a class nor writes a literal. -/
theorem Undergone.of_kept {o : Occurrence} {r : RegistryReply} (h : s'.Tabled ∧ s.Kept s')
    (htables : s'.tables = s.tables) (hclass : Occurrence.class? (o, r) = none)
    (hentry : Entry.of? (o, r) = none) : s.Undergone o r s' where
  tabled := h.1
  kept := h.2
  classes := by rw [htables, hclass, Option.toList_none, List.append_nil]
  stands e he := nomatch hentry.symm.trans he
  behind e he := nomatch hentry.symm.trans he

/-- A literal that is written to a table. -/
theorem Undergone.of_literal {o : Occurrence} {r : RegistryReply} {classId : Nat}
    {t : ConstantTable} {text : List Char} (h : s.Tabled) (ht : s.tables[classId]? = some t)
    (hw : s.Written s' t.tracker
      (Utf8.encode [' ', ' '] ++ (Utf8.encode text ++ Utf8.encode ['\n'])))
    (hclass : Occurrence.class? (o, r) = none) (hentry : Entry.of? (o, r) =
      some ⟨⟨classId, (s.ledger.content t.tracker).length + 2, Utf8.byteLength text⟩, text⟩) :
    s.Undergone o r s' where
  tabled := (h.written hw).1
  kept := (h.written hw).2
  classes := by rw [hw.tables, hclass, Option.toList_none, List.append_nil]
  stands e he := by
    obtain rfl := Option.some.inj (hentry.symm.trans he)
    exact ⟨t, Entry.standsIn_written ht hw⟩
  behind e he e₀ t₀ h₀ := by
    obtain rfl := Option.some.inj (hentry.symm.trans he)
    exact h₀.before ht

/-- **A call** about a table that is there is answered. -/
theorem Tabled.register (h : s.Tabled) (c : RegistryCall) (hc : c.Known s) :
    ∃ r s', s.register c = (r, s') ∧ r.Answers c ∧ s.Undergone (.call c) r s' := by
  cases c with
  | registerClass className =>
    obtain ⟨s', hs', htabled, hkept, tracker, htables⟩ := h.registerClass className
    refine ⟨.table s.tables.length, s', by simp only [Store.register, hs'], trivial,
      htabled, hkept, ?_,
      fun _ he => (nomatch he), fun _ he => nomatch he⟩
    rw [htables, List.map_append, List.zipIdx_append, List.length_map, Nat.zero_add]
    rfl
  | startMethod classId description =>
    have ht := List.getElem?_eq_getElem hc
    obtain ⟨s', hs', hw⟩ :=
      write_written (description.toList ++ [':', '\n']) (h.origin _ (List.getElem_mem hc))
    exact ⟨.done, s', by simp only [Store.register, startMethod, table, ht, hs'], trivial,
      .of_kept (h.written hw) hw.tables rfl rfl⟩
  | constant classId value =>
    have ht := List.getElem?_eq_getElem hc
    obtain ⟨s', hs', hw⟩ :=
      writeLiteral_written (renderConstant value) ht (h.origin _ (List.getElem_mem hc))
    exact ⟨.constant ⟨classId, _, _⟩, s', by simp only [Store.register, registerConstant, hs'], rfl,
      .of_literal h ht hw rfl rfl⟩
  | string classId text =>
    have ht := List.getElem?_eq_getElem hc
    obtain ⟨s', hs', hw⟩ := writeLiteral_written text.toList ht (h.origin _ (List.getElem_mem hc))
    exact ⟨.offset _, s', by simp only [Store.register, registerString, hs'], trivial,
      .of_literal h ht hw rfl rfl⟩

/-- A call about a table that is not there changes nothing. -/
theorem register_unknown {c : RegistryCall} (hc : ¬c.Known s) :
    ∃ e, s.register c = (.refused e, s) := by
  cases c with
  | registerClass className => exact absurd trivial hc
  | startMethod classId description =>
    exact ⟨.unknownTable classId, by
      simp only [register, startMethod, table, List.getElem?_eq_none (Nat.not_lt.mp hc)]⟩
  | constant classId value =>
    exact ⟨.unknownTable classId, by simp only [register, registerConstant, writeLiteral, table,
      List.getElem?_eq_none (Nat.not_lt.mp hc)]⟩
  | string classId text =>
    exact ⟨.unknownTable classId, by simp only [register, registerString, writeLiteral, table,
      List.getElem?_eq_none (Nat.not_lt.mp hc)]⟩

/-- **One occurrence.** -/
theorem Tabled.undergo (h : s.Tabled) (o : Occurrence) :
    s.Undergone o (s.undergo o).1 (s.undergo o).2 := by
  cases o with
  | call c =>
    by_cases hc : c.Known s
    · obtain ⟨r, s', hs', -, hundergone⟩ := h.register c hc
      simp only [Store.undergo, hs']
      exact hundergone
    · obtain ⟨e, hs'⟩ := register_unknown hc
      simp only [Store.undergo, hs']
      exact .of_kept ⟨h, .refl s⟩ rfl (by cases c <;> rfl) (by cases c <;> rfl)
  | deed d =>
    exact .of_kept (h.of_grows rfl fun t ht => .after _ d (List.mem_map_of_mem ht)) rfl rfl rfl

/-- What all occurrences together do. -/
structure Lived (s : Store) (history : List (Occurrence × RegistryReply)) (s' : Store) : Prop where
  tabled : s'.Tabled
  kept : s.Kept s'
  classes : (s'.tables.map ConstantTable.className).zipIdx =
    (s.tables.map ConstantTable.className).zipIdx ++ history.filterMap Occurrence.class?
  stands : ∀ e ∈ history.filterMap Entry.of?, ∃ t, e.StandsIn s' t
  behind : ∀ e ∈ history.filterMap Entry.of?, ∀ (e₀ : Entry) t₀, e₀.StandsIn s t₀ → e₀.Before e
  ordered : (history.filterMap Entry.of?).Pairwise Entry.Before

/-- **All occurrences**, one after another. -/
theorem Tabled.undergoAll (os : List Occurrence) :
    ∀ {s : Store}, s.Tabled → s.Lived (s.undergoAll os).1 (s.undergoAll os).2 := by
  induction os with
  | nil =>
    intro s h
    exact ⟨h, .refl s, (List.append_nil _).symm, fun _ he => absurd he List.not_mem_nil,
      fun _ he => absurd he List.not_mem_nil, .nil⟩
  | cons o os ih =>
    intro s h
    have hfirst := h.undergo o
    have hrest := ih hfirst.tabled
    simp only [Store.undergoAll]
    generalize (s.undergo o).1 = r at hfirst ⊢
    -- the first literal, if there is one, with those that come later
    have hentries : List.filterMap Entry.of? ((o, r) :: ((s.undergo o).2.undergoAll os).1) =
        (Entry.of? (o, r)).toList ++
            List.filterMap Entry.of? ((s.undergo o).2.undergoAll os).1 := by
      rw [List.filterMap_cons]
      cases Entry.of? (o, r) <;> rfl
    refine ⟨hrest.tabled, hfirst.kept.trans hrest.kept, ?_, ?_, ?_, ?_⟩
    · rw [hrest.classes, hfirst.classes, List.append_assoc, List.filterMap_cons]
      cases Occurrence.class? (o, r) <;> rfl
    · rw [hentries]
      intro e he
      rcases List.mem_append.mp he with he | he
      · obtain ⟨t, ht⟩ := hfirst.stands e (Option.mem_toList.mp he)
        exact ⟨t, ht.kept hfirst.tabled hrest.kept⟩
      · exact hrest.stands e he
    · rw [hentries]
      intro e he e₀ t₀ h₀
      rcases List.mem_append.mp he with he | he
      · exact hfirst.behind e (Option.mem_toList.mp he) e₀ t₀ h₀
      · exact hrest.behind e he e₀ t₀ (h₀.kept h hfirst.kept)
    · rw [hentries]
      refine List.pairwise_append.mpr ⟨?_, hrest.ordered, fun e he e' he' => ?_⟩
      · cases Entry.of? (o, r) with
        | none => exact .nil
        | some e => exact List.pairwise_singleton _ e
      · obtain ⟨t, ht⟩ := hfirst.stands e (Option.mem_toList.mp he)
        exact hrest.behind e' he' e t ht

/-- **Places of literals hold for good.**  Calls of the registry come in any order, and between them
anything is done to trackers, the tables' own among them.  Then in every later store each literal
stands in its table at the place that was given out for it, which is a point of that table; a place
is behind all that were given out in its table before it, and no two tables share a tracker; classes
have the numbers in whose order they came; every call about a table that is there is answered; and
the rendering of a whole number is that of no other. -/
theorem registry_keeps (s : Store) (hs : s.Tabled) (os more : List Occurrence) :
    let run := s.undergoAll os
    let later := (run.2.undergoAll more).2
    (∀ e ∈ run.1.filterMap Entry.of?, ∃ t, e.StandsIn later t ∧
      later.constantPoint e.place.classId e.place.offset e.place.length =
        .ok ⟨t.tracker, e.place.offset, e.place.length⟩) ∧
    (run.1.filterMap Entry.of?).Pairwise Entry.Before ∧
    (later.tables.map ConstantTable.tracker).Nodup ∧
    (run.2.tables.map ConstantTable.className).zipIdx =
      (s.tables.map ConstantTable.className).zipIdx ++ run.1.filterMap Occurrence.class? ∧
    run.2.tables <+: later.tables ∧
    (∀ c : RegistryCall, c.Known later → (later.register c).1.Answers c) ∧
    ∀ value value' : Int64,
      Utf8.encode (renderConstant value) = Utf8.encode (renderConstant value') →
          value = value' := by
  intro run later
  have hrun : s.Lived run.1 run.2 := hs.undergoAll os
  have hlater : run.2.Lived (run.2.undergoAll more).1 later := hrun.tabled.undergoAll more
  refine ⟨fun e he => ?_, hrun.ordered, hlater.tabled.distinct, hrun.classes, hlater.kept.tables,
    fun c hc => ?_,
    fun value value' h => renderConstant_injective (Utf8.encode_injective h)⟩
  · obtain ⟨t, ht⟩ := hrun.stands e he
    have hstands := ht.kept hrun.tabled hlater.kept
    exact ⟨t, hstands, hstands.point hlater.tabled⟩
  · obtain ⟨r, s', hs', hanswers, -⟩ := hlater.tabled.register c hc
    rw [hs']
    exact hanswers

/-- Two classes whose literals are registered by turns, and a release meanwhile. -/
def dealings : List Occurrence :=
  [.call (.registerClass "a/B"), .call (.constant 0 (-1)), .call (.string 0 "é"),
    .deed (.release []), .call (.registerClass "C"), .call (.string 1 "é"), .call (.string 7 "é"),
    .call (.constant 0 65)]

/-- A number takes both notations, a text its bytes and a letter one byte; what is registered later
leaves them alone. -/
theorem dealings_kept :
    let run := (Store.empty .default).undergoAll dealings
    let later := (run.2.undergoAll [.call (.startMethod 0 "f"), .call (.constant 0 (-1))]).2
    run.1.filterMap Occurrence.class? = [("a/B", 0), ("C", 1)] ∧
    run.1.filterMap Entry.of? =
    [⟨⟨0, 12, 23⟩, "0xffffffffffffffff (-1)".toList⟩, ⟨⟨0, 38, 2⟩, ['é']⟩,
      ⟨⟨1, 10, 2⟩, ['é']⟩, ⟨⟨0, 43, 1⟩, ['A']⟩] ∧
    (∀ e ∈ run.1.filterMap Entry.of?, ∃ t, e.StandsIn later t ∧
      later.constantPoint e.place.classId e.place.offset e.place.length =
        .ok ⟨t.tracker, e.place.offset, e.place.length⟩) ∧
    (run.1.filterMap Entry.of?).Pairwise Entry.Before ∧
        (later.tables.map ConstantTable.tracker).Nodup := by
  intro run later
  obtain ⟨hstands, hordered, hdistinct, -⟩ := registry_keeps (.empty .default)
    (tabled_empty .default) dealings [.call (.startMethod 0 "f"), .call (.constant 0 (-1))]
  have hclasses : run.1.filterMap Occurrence.class? = [("a/B", 0), ("C", 1)] := by decide +kernel
  have hentries : run.1.filterMap Entry.of? = [⟨⟨0, 12, 23⟩, "0xffffffffffffffff (-1)".toList⟩,
      ⟨⟨0, 38, 2⟩, ['é']⟩, ⟨⟨1, 10, 2⟩, ['é']⟩, ⟨⟨0, 43, 1⟩, ['A']⟩] := by decide +kernel
  exact ⟨hclasses, hentries, hstands, hordered, hdistinct⟩

end Store

end Provenance
