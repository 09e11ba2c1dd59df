/-
# Literals are registered without fail

The table of a class is an origin, which takes content, and it stays one.  A pool whose table, if it
has one, is among the tables of its store, with a tracker that takes content as long as it is there,
registers whatever literal it is given and is such a pool again (`LiteralPool.Usable`).
-/
import Provenance.Proofs.Recording
import Provenance.Weave.Plan

namespace Provenance

/-! ## 1. Writing to a tracker that takes content -/

namespace Store

/-- Whether a tracker takes content, as long as it is there. -/
def Writable (s : Store) (id : TrackerId) : Prop :=
  ∀ t, s.ledger.tracker? id = some t → t.role.acceptsContent = true

/-- What writing leaves as it is: the tables, and what can be written to. -/
structure KeepsTables (s s' : Store) : Prop where
  tables : s'.tables = s.tables
  writable : ∀ id, s.Writable id → s'.Writable id

theorem KeepsTables.trans {s s' s'' : Store} (h : s.KeepsTables s') (h' : s'.KeepsTables s'') :
    s.KeepsTables s'' :=
  ⟨h'.tables.trans h.tables, fun id hid => h'.writable id (h.writable id hid)⟩

/-- **Writing** goes well. -/
theorem write_isOk {s : Store} {id : TrackerId} (text : List Char) (h : s.Writable id) :
    ∃ s', s.write id text = .ok s' ∧ s.KeepsTables s' := by
  have happend : ∃ l, s.ledger.append id (Utf8.encode text) = .ok l := by
    unfold Ledger.append
    cases ht : s.ledger.tracker? id with
    | none => exact ⟨_, rfl⟩
    | some t =>
      simp only [h t ht, if_true]
      exact ⟨_, rfl⟩
  obtain ⟨l, hl⟩ := happend
  refine ⟨{ s with ledger := l }, by simp only [write, onLedger, hl], rfl, fun j hj t' ht' => ?_⟩
  have halike := Ledger.Alike.append hl j
  rw [show l.tracker? j = some t' from ht'] at halike
  obtain ⟨t, ht, hsame⟩ := Option.map_eq_some_iff.mp halike.symm
  obtain ⟨hrole, -⟩ := Prod.mk.inj hsame
  exact hrole ▸ hj t ht

/-- **A literal** is written on a line of its own. -/
theorem writeLiteral_isOk {s : Store} {classId : Nat} {t : ConstantTable} (text : List Char)
    (ht : s.tables[classId]? = some t) (h : s.Writable t.tracker) :
    ∃ offset s', s.writeLiteral classId text = .ok (offset, s') ∧ s.KeepsTables s' := by
  obtain ⟨s₁, h₁, hk₁⟩ := write_isOk [' ', ' '] h
  obtain ⟨s₂, h₂, hk₂⟩ := write_isOk text (hk₁.writable _ h)
  obtain ⟨s₃, h₃, hk₃⟩ := write_isOk ['\n'] (hk₂.writable _ (hk₁.writable _ h))
  refine ⟨s₁.ledger.length t.tracker, s₃, ?_, (hk₁.trans hk₂).trans hk₃⟩
  simp only [writeLiteral, table, ht, h₁, h₂, h₃]

end Store

/-! ## 2. The pool of a class -/

namespace LiteralPool

/-- A pool whose table, if there is one, can be written to. -/
def Usable (p : LiteralPool) : Prop :=
  ∀ classId, p.table = some classId →
    ∃ t, p.store.tables[classId]? = some t ∧ p.store.Writable t.tracker

/-- **The pool with which weaving a class begins.** -/
theorem ofClass_usable (store : Store) (className : String) : (ofClass store className).Usable :=
  fun _ h => nomatch h

/-- A pool is still usable when something was written. -/
theorem Usable.write {p : LiteralPool} (h : p.Usable) {s : Store} (hs : p.store.KeepsTables s)
    (heading : Option String) : Usable { p with store := s, heading } := by
  intro classId hid
  obtain ⟨t, ht, hw⟩ := h classId hid
  exact ⟨t, hs.tables ▸ ht, hs.writable _ hw⟩

theorem withTable_isOk {p : LiteralPool} (h : p.Usable) :
    ∃ classId p', p.withTable = .ok (classId, p') ∧ p'.table = some classId ∧ p'.Usable := by
  unfold withTable
  cases hid : p.table with
  | some classId => exact ⟨classId, p, rfl, hid, h⟩
  | none =>
    have hnew : (p.store.addTracker (.new .origin [] (some ("class " ++ Ty.dotted p.className)))).2
        |>.Writable p.store.ledger.trackers.nextId := by
      intro t ht
      unfold Store.addTracker at ht
      rw [Ledger.tracker?_add, if_pos rfl] at ht
      exact Option.some.inj ht ▸ rfl
    obtain ⟨s, hs, hk⟩ :=
      Store.write_isOk (("class " ++ Ty.dotted p.className).toList ++ ['\n']) hnew
    have hregister : p.store.registerClass p.className = .ok (s.tables.length,
        { s with tables := s.tables ++ [⟨p.className, p.store.ledger.trackers.nextId⟩] }) := by
      unfold Store.registerClass
      simp only
      rw [show (p.store.addTracker _).1 = p.store.ledger.trackers.nextId from rfl, hs]
    simp only [hregister]
    refine ⟨_, _, rfl, rfl, fun classId hid => ?_⟩
    obtain rfl := Option.some.inj hid
    exact ⟨⟨p.className, p.store.ledger.trackers.nextId⟩, by simp, hk.writable _ hnew⟩

theorem withSection_isOk {p : LiteralPool} (h : p.Usable) (m : Method) :
    ∃ classId p', p.withSection m = .ok (classId, p') ∧ p'.table = some classId ∧ p'.Usable := by
  obtain ⟨classId, p₁, h₁, htable, husable⟩ := withTable_isOk h
  unfold withSection
  simp only [h₁]
  split
  · exact ⟨classId, p₁, rfl, htable, husable⟩
  · obtain ⟨t, ht, hw⟩ := husable classId htable
    obtain ⟨s, hs, hk⟩ := Store.write_isOk (m.description.toList ++ [':', '\n']) hw
    refine ⟨classId, { p₁ with store := s, heading := some m.signature }, ?_, htable,
      husable.write hk _⟩
    simp only [Store.startMethod, Store.table, ht, hs]

/-- **Registering a whole number** goes well. -/
theorem constant_isOk {p : LiteralPool} (h : p.Usable) (m : Method) (value : Int64) :
    ∃ place p', p.constant m value = .ok (place, p') ∧ p'.Usable := by
  obtain ⟨classId, p₁, h₁, htable, husable⟩ := withSection_isOk h m
  obtain ⟨t, ht, hw⟩ := husable classId htable
  obtain ⟨offset, s, hs, hk⟩ := Store.writeLiteral_isOk (Store.renderConstant value) ht hw
  refine ⟨⟨classId, offset, Utf8.byteLength (Store.renderConstant value)⟩, { p₁ with store := s },
    ?_, husable.write hk p₁.heading⟩
  simp only [constant, h₁, Store.registerConstant, hs]

/-- **Registering a string** goes well. -/
theorem string_isOk {p : LiteralPool} (h : p.Usable) (m : Method) (text : String) :
    ∃ place p', p.string m text = .ok (place, p') ∧ p'.Usable := by
  obtain ⟨classId, p₁, h₁, htable, husable⟩ := withSection_isOk h m
  obtain ⟨t, ht, hw⟩ := husable classId htable
  obtain ⟨offset, s, hs, hk⟩ := Store.writeLiteral_isOk text.toList ht hw
  refine ⟨(classId, offset), { p₁ with store := s }, ?_, husable.write hk p₁.heading⟩
  simp only [string, h₁, Store.registerString, hs]

end LiteralPool

end Provenance
