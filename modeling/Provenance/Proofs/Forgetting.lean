/-
# Maps that forget

In memory a weak map finds its entries by address (`AddressMap`).  An entry keeps nothing alive, so
its object may be gone, and it stays until the map is purged; whoever looks there has to see whether
the object still lives.  As long as an entry stands, no other object is made at its address.

Whatever is asked of such a map, while objects come and go, it answers like a map that forgets an
object the moment it dies (`IdealMap`), wherever purges fall; and so does the map by number
(`WeakMap`), which never looks whether an object lives (`Keeper.answers_agree`).  Only counting
shows the entries that are dead: they are the objects that died with an entry since the last purge.

The two comparisons are made event by event (`Pinned.act`, `Forgets.act`) and carried along a run.
-/
import Mathlib.Data.List.Perm.Basic
import Mathlib.Data.List.Nodup
import Provenance.Proofs.HookEffects
import Provenance.Proofs.Merging

namespace Provenance

/-! ## 1. The map in memory -/

/-- Where an object lies. -/
abbrev Address := Nat

/-- A reference that keeps an object alive. -/
structure Handle where
  address : Address
  object : ObjectId

/-- A value, with the object it was put there for. -/
structure WeakEntry (α : Type) where
  object : ObjectId
  value : α

structure AddressMap (α : Type) where
  entries : List (Address × WeakEntry α)

namespace AddressMap

variable {α ρ : Type}

def empty : AddressMap α := ⟨[]⟩

/-- What stands at an address, dead or alive. -/
def entryAt (m : AddressMap α) (address : Address) : Option (WeakEntry α) :=
  m.entries.lookup address

/-- Replaces what stands at the address of an object. -/
def insert (m : AddressMap α) (h : Handle) (a : α) : AddressMap α :=
  ⟨WeakMap.put h.address ⟨h.object, a⟩ m.entries⟩

def get? (m : AddressMap α) (alive : ObjectId → Bool) (h : Handle) : Option α :=
  ((m.entryAt h.address).filter fun e => alive e.object).map WeakEntry.value

/-- The value of an object, after adding the given one if there is none; the flag says whether it
was added. -/
def getOrInsert (m : AddressMap α) (alive : ObjectId → Bool) (h : Handle) (a : α) :
    α × Bool × AddressMap α :=
  match m.entryAt h.address with
  | some e => if alive e.object then (e.value, false, m) else (a, true, m.insert h a)
  | none => (a, true, m.insert h a)

/-- Changes the value of an object in place, after adding the given one if there is none. -/
def update (m : AddressMap α) (alive : ObjectId → Bool) (h : Handle) (a : α) (f : α → ρ × α) :
    ρ × AddressMap α :=
  let e : WeakEntry α := match m.entryAt h.address with
    | some e => if alive e.object then e else ⟨h.object, a⟩
    | none => ⟨h.object, a⟩
  let (result, value) := f e.value
  (result, ⟨WeakMap.put h.address { e with value } m.entries⟩)

/-- Takes what stands at the address of an object away; a dead entry is nobody's. -/
def remove (m : AddressMap α) (alive : ObjectId → Bool) (h : Handle) : Option α × AddressMap α :=
  (m.get? alive h, ⟨m.entries.filter fun e => e.1 ≠ h.address⟩)

/-- Drops the dead entries, and says how many there were. -/
def purge (m : AddressMap α) (alive : ObjectId → Bool) : Nat × AddressMap α :=
  let kept := m.entries.filter fun e => alive e.2.object
  (m.entries.length - kept.length, ⟨kept⟩)

/-- The number of entries, dead ones included. -/
def size (m : AddressMap α) : Nat := m.entries.length

/-- The same entries by the numbers of their objects. -/
def numbered (m : AddressMap α) : WeakMap α := ⟨m.entries.map fun e => (e.2.object, e.2.value)⟩

end AddressMap

/-! ## 2. The map that forgets -/

/-- Values by object, and how many objects died with a value since the last purge. -/
structure IdealMap (α : Type) where
  value : ObjectId → Option α
  lapsed : Nat

namespace IdealMap

variable {α : Type}

def empty : IdealMap α := ⟨fun _ => none, 0⟩

def set (m : IdealMap α) (o : ObjectId) (a : Option α) : IdealMap α :=
  { m with value := fun o' => if o' = o then a else m.value o' }

/-- The object dies. -/
def forget (m : IdealMap α) (o : ObjectId) : IdealMap α :=
  { m.set o none with lapsed := m.lapsed + (m.value o).isSome.toNat }

/-- How many of these objects have a value. -/
def held (m : IdealMap α) (objects : List ObjectId) : Nat :=
  (objects.filter fun o => (m.value o).isSome).length

end IdealMap

/-! ## 3. What happens to a map -/

/-- What is asked of a map about an object. -/
inductive MapCall (α ρ : Type) where
  | get
  | getOrInsert (create : α)
  | insert (value : α)
  | update (create : α) (f : α → ρ × α)
  | remove

inductive MapAnswer (α ρ : Type) where
  | done
  | value (value : Option α)
  | found (value : α) (inserted : Bool)
  | result (result : ρ)
  | count (n : Nat)
  deriving DecidableEq, Repr

/-- Objects come and go, and somebody who has one may ask for its value. -/
inductive MapEvent (α ρ : Type) where
  | create (address : Address)
  | drop (o : ObjectId)
  | call (o : ObjectId) (c : MapCall α ρ)
  | purge
  | size

/-- The objects that are alive, with their addresses, after an event. -/
def MapEvent.objects {α ρ : Type} (objects : Table Address) : MapEvent α ρ → Table Address
  | .create address => objects.add address
  | .drop o => objects.retain fun o' => o' ≠ o
  | _ => objects

/-- A map, and how it answers. -/
structure Keeper (M α ρ : Type) where
  call : (ObjectId → Bool) → Handle → MapCall α ρ → M → MapAnswer α ρ × M
  /-- What the death of an object does to it. -/
  forget : ObjectId → M → M
  purge : (ObjectId → Bool) → M → Nat × M
  size : List ObjectId → M → Nat

namespace Keeper

variable {M α ρ : Type}

/-- The objects that have an address are alive. -/
def alive (objects : Table Address) (o : ObjectId) : Bool := (objects.get? o).isSome

/-- One event; nobody can ask for the value of an object that is gone. -/
def act (k : Keeper M α ρ) (objects : Table Address) (m : M) : MapEvent α ρ → MapAnswer α ρ × M
  | .create _ => (.done, m)
  | .drop o => (.done, k.forget o m)
  | .call o c =>
    match objects.get? o with
    | some address => k.call (alive objects) ⟨address, o⟩ c m
    | none => (.done, m)
  | .purge =>
    let (n, m) := k.purge (alive objects) m
    (.count n, m)
  | .size => (.count (k.size objects.ids m), m)

/-- Event after event. -/
def run (k : Keeper M α ρ) (objects : Table Address) (m : M) :
    List (MapEvent α ρ) → List (MapAnswer α ρ) × Table Address × M
  | [] => ([], objects, m)
  | e :: es =>
    let (answer, m) := k.act objects m e
    let (answers, rest) := k.run (e.objects objects) m es
    (answer :: answers, rest)

/-- The map in memory, as it finds entries by address. -/
def byAddress : Keeper (AddressMap α) α ρ where
  call alive h
    | .get, m => (.value (m.get? alive h), m)
    | .getOrInsert create, m =>
      let (value, inserted, m) := m.getOrInsert alive h create
      (.found value inserted, m)
    | .insert value, m => (.done, m.insert h value)
    | .update create f, m =>
      let (result, m) := m.update alive h create f
      (.result result, m)
    | .remove, m =>
      let (value, m) := m.remove alive h
      (.value value, m)
  forget _ m := m
  purge alive m := m.purge alive
  size _ m := m.size

/-- The map by number. -/
def byNumber : Keeper (WeakMap α) α ρ where
  call _ h
    | .get, m => (.value (m.get? h.object), m)
    | .getOrInsert create, m =>
      let (value, inserted, m) := m.getOrInsert h.object create
      (.found value inserted, m)
    | .insert value, m => (.done, m.insert h.object value)
    | .update create f, m =>
      (.result (f ((m.get? h.object).getD create)).1, m.update h.object create fun a => (f a).2)
    | .remove, m => (.value (m.get? h.object), m.remove h.object)
  forget _ m := m
  purge alive m := (m.deadCount alive, m.purge alive)
  size _ m := m.size

/-- The map that forgets. -/
def ideal : Keeper (IdealMap α) α ρ where
  call _ h
    | .get, m => (.value (m.value h.object), m)
    | .getOrInsert create, m =>
      match m.value h.object with
      | some value => (.found value false, m)
      | none => (.found create true, m.set h.object (some create))
    | .insert value, m => (.done, m.set h.object (some value))
    | .update create f, m =>
      let (result, value) := f ((m.value h.object).getD create)
      (.result result, m.set h.object (some value))
    | .remove, m => (.value (m.value h.object), m.set h.object none)
  forget o m := m.forget o
  purge _ m := (m.lapsed, { m with lapsed := 0 })
  size objects m := m.held objects + m.lapsed

/-- An object is asked for, or dies, while it is there; and it is made where no object and no entry
is. -/
def Feasible (objects : Table Address) (m : AddressMap α) : MapEvent α ρ → Prop
  | .create address => (∀ o ∈ objects.ids, objects.get? o ≠ some address) ∧
      (m.entryAt address).isNone
  | .drop o => alive objects o
  | .call o _ => alive objects o
  | .purge => True
  | .size => True

instance (objects : Table Address) (m : AddressMap α) (e : MapEvent α ρ) :
    Decidable (Feasible objects m e) :=
  match e with
  | .create address => inferInstanceAs (Decidable
      ((∀ o ∈ objects.ids, objects.get? o ≠ some address) ∧ (m.entryAt address).isNone))
  | .drop o => inferInstanceAs (Decidable (alive objects o))
  | .call o _ => inferInstanceAs (Decidable (alive objects o))
  | .purge => .isTrue trivial
  | .size => .isTrue trivial

/-- Events that are possible one after the other. -/
def Admissible (objects : Table Address) (m : AddressMap α) : List (MapEvent α ρ) → Prop
  | [] => True
  | e :: es => Feasible objects m e ∧
      Admissible (e.objects objects) (byAddress.act objects m e).2 es

instance decidableAdmissible :
    ∀ (es : List (MapEvent α ρ)) (objects : Table Address) (m : AddressMap α),
    Decidable (Admissible objects m es)
  | [], _, _ => .isTrue trivial
  | e :: es, objects, m =>
    have := decidableAdmissible es (e.objects objects) (byAddress.act objects m e).2
    inferInstanceAs (Decidable (Feasible objects m e ∧ _))

end Keeper

/-! ## 4. From addresses to numbers -/

open Keeper

namespace AddressMap

variable {α ρ : Type} {objects : Table Address} {m : AddressMap α}

/-- Entries stay with their objects: what stands at the address of a living object was put there for
it, and what was put anywhere for it stands there. -/
structure Pinned (objects : Table Address) (m : AddressMap α) : Prop where
  born : ∀ e ∈ m.entries, e.2.object < objects.nextId
  own : ∀ e ∈ m.entries, ∀ o, objects.get? o = some e.1 → e.2.object = o
  lies : ∀ e ∈ m.entries, ∀ address, objects.get? e.2.object = some address → e.1 = address
  apart : ∀ o o' address, objects.get? o = some address → objects.get? o' = some address → o = o'

end AddressMap

namespace WeakMap

variable {α : Type}

/-- Entries are replaced and added, nothing else. -/
theorem mem_put {o : ObjectId} {a : α} {entries : List (ObjectId × α)} {e : ObjectId × α}
    (h : e ∈ put o a entries) : e = (o, a) ∨ e ∈ entries := by
  induction entries with
  | nil => exact .inl (List.mem_singleton.mp h)
  | cons e' entries ih =>
    unfold put at h
    split at h
    · rcases List.mem_cons.mp h with h | h
      · exact .inl h
      · exact .inr (List.mem_cons_of_mem _ h)
    · rcases List.mem_cons.mp h with h | h
      · exact .inr (h ▸ List.mem_cons_self)
      · exact (ih h).imp_right (List.mem_cons_of_mem _)

end WeakMap

namespace AddressMap.Pinned

variable {α ρ : Type} {objects : Table Address} {m : AddressMap α} {o : ObjectId}
    {address : Address}

theorem empty
    (h : ∀ o o' address, objects.get? o = some address → objects.get? o' = some address → o = o') :
    Pinned objects (AddressMap.empty (α := α)) :=
  ⟨nofun, nofun, nofun, h⟩

/-- At the address of a living object, and nowhere else, are the entries that are its own. -/
theorem address_iff (h : m.Pinned objects) (ho : objects.get? o = some address) :
    ∀ e ∈ m.entries, (e.1 = address ↔ e.2.object = o) := by
  intro e he
  constructor
  · intro haddress
    exact h.own e he o (haddress ▸ ho)
  · intro hobject
    exact h.lies e he address (hobject ▸ ho)

/-- What stands at the address of a living object is its own. -/
theorem object_of_entryAt (h : m.Pinned objects) (ho : objects.get? o = some address)
    {e : WeakEntry α} (he : m.entryAt address = some e) : e.object = o :=
  h.own (address, e) (mem_of_lookup he) o ho

/-- A living object is found by its address as by its number. -/
theorem get?_numbered (h : m.Pinned objects) (ho : objects.get? o = some address) :
    m.numbered.get? o = (m.entryAt address).map WeakEntry.value := by
  have hiff := h.address_iff ho
  obtain ⟨entries⟩ := m
  simp only [numbered, WeakMap.get?, entryAt] at hiff ⊢
  clear h
  induction entries with
  | nil => rfl
  | cons e entries ih =>
    obtain ⟨k, e⟩ := e
    have hhead := hiff (k, e) List.mem_cons_self
    have htail := ih fun e he => hiff e (List.mem_cons_of_mem _ he)
    rw [List.map_cons, lookup_cons_eq, lookup_cons_eq, htail]
    simp only [eq_comm (a := address), eq_comm (a := o), hhead]
    split <;> rfl

/-- Putting an entry at the address of a living object is putting it under its number. -/
theorem numbered_put (h : m.Pinned objects) (ho : objects.get? o = some address) (a : α) :
    numbered ⟨WeakMap.put address ⟨o, a⟩ m.entries⟩ = m.numbered.insert o a := by
  have hiff := h.address_iff ho
  obtain ⟨entries⟩ := m
  simp only [numbered, WeakMap.insert, WeakMap.mk.injEq] at hiff ⊢
  clear h
  induction entries with
  | nil => rfl
  | cons e entries ih =>
    have hhead := hiff e List.mem_cons_self
    have htail := ih fun e he => hiff e (List.mem_cons_of_mem _ he)
    simp only [WeakMap.put, List.map_cons, hhead]
    split
    · rfl
    · rw [List.map_cons, htail]

/-- Taking away what stands at the address of a living object is taking away what is under its
number. -/
theorem numbered_remove (h : m.Pinned objects) (ho : objects.get? o = some address) :
    numbered ⟨m.entries.filter fun e => e.1 ≠ address⟩ = m.numbered.remove o := by
  have hiff := h.address_iff ho
  have hkept : (m.entries.filter fun e => e.1 ≠ address) =
      m.entries.filter fun e => e.2.object ≠ o :=
    List.filter_congr fun e he => by simp only [ne_eq, hiff e he]
  rw [hkept]
  simp only [numbered, WeakMap.remove, List.filter_map, Function.comp_def]

theorem purge_numbered (m : AddressMap α) (alive : ObjectId → Bool) :
    (m.purge alive).1 = m.numbered.deadCount alive ∧
      (m.purge alive).2.numbered = m.numbered.purge alive := by
  constructor
  · have hsplit := List.length_eq_length_filter_add (l := m.entries) fun e => alive e.2.object
    simp only [AddressMap.purge, WeakMap.deadCount, numbered, List.filter_map, List.length_map,
      Function.comp_def]
    omega
  · simp only [AddressMap.purge, WeakMap.purge, numbered, List.filter_map, Function.comp_def]

/-! Nothing that happens moves an entry away from its object. -/

theorem put (h : m.Pinned objects) (ho : objects.get? o = some address) (a : α) :
    Pinned objects ⟨WeakMap.put address ⟨o, a⟩ m.entries⟩ where
  born e he := by
    rcases WeakMap.mem_put he with rfl | he
    · exact Table.lt_nextId (by rw [ho]; rfl)
    · exact h.born e he
  own e he o' ho' := by
    rcases WeakMap.mem_put he with rfl | he
    · exact h.apart o o' address ho ho'
    · exact h.own e he o' ho'
  lies e he address' haddress' := by
    rcases WeakMap.mem_put he with rfl | he
    · exact Option.some.inj (ho.symm.trans haddress')
    · exact h.lies e he address' haddress'
  apart := h.apart

/-- Fewer entries. -/
theorem sublist {m' : AddressMap α} (h : m.Pinned objects)
    (hsub : ∀ e ∈ m'.entries, e ∈ m.entries) :
    m'.Pinned objects :=
  ⟨fun e he => h.born e (hsub e he), fun e he => h.own e (hsub e he),
    fun e he => h.lies e (hsub e he), h.apart⟩

/-- An object dies. -/
theorem drop (h : m.Pinned objects) (o : ObjectId) :
    m.Pinned (objects.retain fun o' => o' ≠ o) := by
  have hold : ∀ o' address, (objects.retain fun o' => o' ≠ o).get? o' = some address →
      objects.get? o' = some address := by
    intro o' address ho'
    rw [Table.get?_retain] at ho'
    split at ho'
    · exact ho'
    · cases ho'
  constructor
  · intro e he
    rw [Table.nextId_retain]
    exact h.born e he
  · exact fun e he o' ho' => h.own e he o' (hold o' _ ho')
  · exact fun e he address haddress => h.lies e he address (hold _ address haddress)
  · exact fun o' o'' address ho' ho'' => h.apart o' o'' address (hold o' _ ho') (hold o'' _ ho'')

/-- An object is made where no object and no entry is. -/
theorem create (h : m.Pinned objects) (hfree : ∀ o ∈ objects.ids, objects.get? o ≠ some address)
    (hnone : (m.entryAt address).isNone) : m.Pinned (objects.add address) := by
  have hold : ∀ o' address', (objects.add address).get? o' = some address' →
      o' = objects.nextId ∧ address' = address ∨
        objects.get? o' = some address' ∧ address' ≠ address := by
    intro o' address' ho'
    rw [Table.get?_add] at ho'
    split at ho'
    · exact .inl ⟨‹_›, (Option.some.inj ho').symm⟩
    · refine .inr ⟨ho', fun heq => ?_⟩
      exact hfree o' (Table.mem_ids (by rw [ho']; rfl)) (heq ▸ ho')
  have hempty : ∀ e ∈ m.entries, e.1 ≠ address := by
    intro e he heq
    rw [entryAt, Option.isNone_iff_eq_none, List.lookup_eq_none_iff] at hnone
    simpa [heq] using hnone e he
  constructor
  · intro e he
    rw [Table.nextId_add]
    exact Nat.lt_succ_of_lt (h.born e he)
  · intro e he o' ho'
    rcases hold o' _ ho' with ⟨-, heq⟩ | ⟨ho', -⟩
    · exact absurd heq (hempty e he)
    · exact h.own e he o' ho'
  · intro e he address' haddress'
    rcases hold _ address' haddress' with ⟨heq, -⟩ | ⟨hobject, -⟩
    · exact absurd heq (Nat.ne_of_lt (h.born e he))
    · exact h.lies e he address' hobject
  · intro o' o'' address' ho' ho''
    rcases hold o' _ ho' with ⟨heq, hhere⟩ | ⟨ho', hthere⟩ <;>
      rcases hold o'' _ ho'' with ⟨heq', hhere'⟩ | ⟨ho'', hthere'⟩
    · exact heq.trans heq'.symm
    · exact absurd hhere hthere'
    · exact absurd hhere' hthere
    · exact h.apart o' o'' address' ho' ho''

/-- **One call**: the map in memory does what the map by number does. -/
theorem call (h : m.Pinned objects) (ho : objects.get? o = some address) (c : MapCall α ρ) :
    (byAddress.call (alive objects) ⟨address, o⟩ c m).1 =
        (byNumber.call (alive objects) ⟨address, o⟩ c m.numbered).1 ∧
      (byAddress.call (alive objects) ⟨address, o⟩ c m).2.numbered =
        (byNumber.call (alive objects) ⟨address, o⟩ c m.numbered).2 ∧
      (byAddress.call (alive objects) ⟨address, o⟩ c m).2.Pinned objects := by
  have halive : alive objects o = true := by simp [alive, ho]
  have hfound := h.get?_numbered ho
  have hget : m.get? (alive objects) ⟨address, o⟩ = m.numbered.get? o := by
    rw [hfound]
    unfold AddressMap.get?
    cases he : m.entryAt address with
    | none => rfl
    | some e => simp [h.object_of_entryAt ho he, halive]
  cases c with
  | get => exact ⟨congrArg MapAnswer.value hget, rfl, h⟩
  | insert a => exact ⟨rfl, h.numbered_put ho a, h.put ho a⟩
  | remove =>
    refine ⟨congrArg MapAnswer.value hget, h.numbered_remove ho, h.sublist fun e he => ?_⟩
    exact (List.mem_filter.mp he).1
  | getOrInsert a =>
    simp only [byAddress, byNumber, AddressMap.getOrInsert, WeakMap.getOrInsert, hfound]
    cases he : m.entryAt address with
    | none => exact ⟨rfl, h.numbered_put ho a, h.put ho a⟩
    | some e =>
      simp only [h.object_of_entryAt ho he, halive, if_true, Option.map_some]
      exact ⟨trivial, trivial, h⟩
  | update a f =>
    simp only [byAddress, byNumber, AddressMap.update, WeakMap.update, hfound]
    cases he : m.entryAt address with
    | none => exact ⟨rfl, h.numbered_put ho _, h.put ho _⟩
    | some e =>
      obtain ⟨o', value⟩ := e
      obtain rfl : o' = o := h.object_of_entryAt ho he
      simp only [halive, if_true, Option.map_some, Option.getD_some]
      exact ⟨trivial, h.numbered_put ho _, h.put ho _⟩

/-- **One event.** -/
theorem act (h : m.Pinned objects) {e : MapEvent α ρ} (hfeasible : Feasible objects m e) :
    (byAddress.act objects m e).1 = (byNumber.act objects m.numbered e).1 ∧
      (byAddress.act objects m e).2.numbered = (byNumber.act objects m.numbered e).2 ∧
      (byAddress.act objects m e).2.Pinned (e.objects objects) := by
  cases e with
  | create address => exact ⟨rfl, rfl, h.create hfeasible.1 hfeasible.2⟩
  | drop o => exact ⟨rfl, rfl, h.drop o⟩
  | call o c =>
    obtain ⟨address, ho⟩ := Option.isSome_iff_exists.mp hfeasible
    simp only [Keeper.act, ho]
    exact h.call ho c
  | purge =>
    obtain ⟨hcount, hentries⟩ := purge_numbered m (alive objects)
    exact ⟨congrArg MapAnswer.count hcount, hentries,
      h.sublist fun e he => (List.mem_filter.mp he).1⟩
  | size => exact ⟨congrArg MapAnswer.count (List.length_map _).symm, rfl, h⟩

end AddressMap.Pinned

/-! ## 5. From numbers to a map that forgets -/

namespace WeakMap

variable {α ρ : Type} {m : WeakMap α} {alive : ObjectId → Bool} {o : ObjectId}

def keys (m : WeakMap α) : List ObjectId := m.entries.map Prod.fst

theorem isSome_get? (m : WeakMap α) (o : ObjectId) : (m.get? o).isSome = true ↔ o ∈ m.keys := by
  obtain ⟨entries⟩ := m
  simp only [get?, keys]
  induction entries with
  | nil => simp
  | cons e entries ih =>
    obtain ⟨k, a⟩ := e
    rw [lookup_cons_eq, List.map_cons, List.mem_cons]
    split
    · simp [*]
    · simp only [*, false_or]

theorem get?_eq_some_iff (h : m.keys.Nodup) {a : α} : m.get? o = some a ↔ (o, a) ∈ m.entries := by
  constructor
  · exact mem_of_lookup
  · obtain ⟨entries⟩ := m
    simp only [keys, get?] at h ⊢
    induction entries with
    | nil =>
      intro hmem
      cases hmem
    | cons e entries ih =>
      obtain ⟨k, b⟩ := e
      rw [List.map_cons, List.nodup_cons] at h
      intro hmem
      rw [lookup_cons_eq]
      rcases List.mem_cons.mp hmem with heq | hmem
      · obtain ⟨rfl, rfl⟩ := Prod.mk.inj heq
        exact if_pos rfl
      · have hother : o ≠ k := fun heq => h.1 (heq ▸ List.mem_map.mpr ⟨(o, a), hmem, rfl⟩)
        rw [if_neg hother]
        exact ih h.2 hmem

/-- An object keeps its place, a new one comes last. -/
theorem keys_put (o : ObjectId) (a : α) (entries : List (ObjectId × α)) :
    (put o a entries).map Prod.fst =
      if o ∈ entries.map Prod.fst then entries.map Prod.fst else entries.map Prod.fst ++ [o] := by
  induction entries with
  | nil => rfl
  | cons e entries ih =>
    obtain ⟨k, b⟩ := e
    unfold put
    by_cases h : k = o
    · simp [h]
    · simp only [if_neg h, List.map_cons, ih, List.mem_cons, Ne.symm h, false_or]
      split <;> rfl

theorem keys_insert (m : WeakMap α) (o : ObjectId) (a : α) :
    (m.insert o a).keys = if o ∈ m.keys then m.keys else m.keys ++ [o] := keys_put o a m.entries

theorem nodup_insert (h : m.keys.Nodup) (o : ObjectId) (a : α) : (m.insert o a).keys.Nodup := by
  rw [keys_insert]
  split
  · exact h
  · rename_i hnew
    exact List.nodup_append.mpr ⟨h, List.nodup_singleton o, fun x hx y hy heq =>
      hnew (List.mem_singleton.mp hy ▸ heq ▸ hx)⟩

/-- Fewer entries. -/
theorem nodup_filter (h : m.keys.Nodup) (keep : ObjectId × α → Bool) :
    (WeakMap.mk (m.entries.filter keep)).keys.Nodup :=
  h.sublist (List.filter_sublist.map Prod.fst)

/-- The entry of a living object is not a dead one. -/
theorem deadCount_insert (h : alive o) (a : α) :
    (m.insert o a).deadCount alive = m.deadCount alive := by
  obtain ⟨entries⟩ := m
  simp only [insert, deadCount]
  induction entries with
  | nil => simp [put, h]
  | cons e entries ih =>
    unfold put
    split
    · rename_i hkey
      simp [hkey, h]
    · rw [List.filter_cons, List.filter_cons]
      split
      · rw [List.length_cons, List.length_cons, ih]
      · exact ih

theorem deadCount_remove (h : alive o) : (m.remove o).deadCount alive = m.deadCount alive := by
  unfold remove deadCount
  rw [List.filter_filter]
  refine congrArg List.length (List.filter_congr fun e _ => ?_)
  by_cases hkey : e.1 = o
  · simp [hkey, h]
  · simp [hkey]

theorem get?_remove (m : WeakMap α) (o o' : ObjectId) :
    (m.remove o).get? o' = if o' = o then none else m.get? o' := by
  refine (lookup_filter_eq (fun k => decide (k ≠ o)) o' m.entries).trans ?_
  by_cases h : o' = o
  · simp [h]
  · simp [h, get?]

/-- An object that dies leaves its entry to be purged. -/
theorem deadCount_drop (hnodup : m.keys.Nodup) (halive : alive o) :
    m.deadCount (fun o' => alive o' && decide (o' ≠ o)) =
      m.deadCount alive + (m.get? o).isSome.toNat := by
  obtain ⟨entries⟩ := m
  simp only [keys, deadCount, get?] at hnodup ⊢
  induction entries with
  | nil => rfl
  | cons e entries ih =>
    obtain ⟨k, a⟩ := e
    rw [List.map_cons, List.nodup_cons] at hnodup
    have htail := ih hnodup.2
    rw [List.filter_cons, List.filter_cons, lookup_cons_eq]
    by_cases hkey : o = k
    · subst hkey
      have hnone : (entries.lookup o).isSome = false := by
        rw [Bool.eq_false_iff]
        exact fun hsome => hnodup.1 ((isSome_get? ⟨entries⟩ o).mp hsome)
      rw [hnone] at htail
      simpa [halive] using htail
    · have hkey' : (alive k && decide (k ≠ o)) = alive k := by simp [Ne.symm hkey]
      rw [hkey', if_neg hkey]
      split
      · rw [List.length_cons, List.length_cons, htail]
        omega
      · exact htail

/-- A map by number beside one that forgets: the living objects have the same values, and the dead
entries are those of the objects that lapsed. -/
structure Forgets (objects : Table Address) (m : WeakMap α) (i : IdealMap α) : Prop where
  nodup : m.keys.Nodup
  born : ∀ o ∈ m.keys, o < objects.nextId
  value : ∀ o, i.value o = if Keeper.alive objects o then m.get? o else none
  lapsed : i.lapsed = m.deadCount (Keeper.alive objects)

namespace Forgets

variable {objects : Table Address} {i : IdealMap α} {address : Address}

theorem empty (objects : Table Address) : Forgets objects (WeakMap.empty (α := α)) .empty :=
  ⟨List.nodup_nil, nofun, fun o => by simp [IdealMap.empty, WeakMap.empty, get?], rfl⟩

theorem value_of_alive (h : m.Forgets objects i) (ho : objects.get? o = some address) :
    i.value o = m.get? o := by
  rw [h.value, if_pos (by simp [Keeper.alive, ho])]

theorem insert (h : m.Forgets objects i) (ho : objects.get? o = some address) (a : α) :
    (m.insert o a).Forgets objects (i.set o (some a)) where
  nodup := nodup_insert h.nodup o a
  born o' ho' := by
    rw [keys_insert] at ho'
    split at ho'
    · exact h.born o' ho'
    · rcases List.mem_append.mp ho' with ho' | ho'
      · exact h.born o' ho'
      · rw [List.mem_singleton.mp ho']
        exact Table.lt_nextId (by rw [ho]; rfl)
  value o' := by
    rw [get?_insert]
    simp only [IdealMap.set]
    by_cases heq : o' = o
    · simp [heq, Keeper.alive, ho]
    · simp only [heq, if_false]
      exact h.value o'
  lapsed := by
    rw [deadCount_insert (by simp [Keeper.alive, ho])]
    exact h.lapsed

theorem remove (h : m.Forgets objects i) (ho : objects.get? o = some address) :
    (m.remove o).Forgets objects (i.set o none) where
  nodup := nodup_filter h.nodup _
  born o' ho' := by
    obtain ⟨e, he, rfl⟩ := List.mem_map.mp ho'
    exact h.born e.1 (List.mem_map_of_mem (List.mem_filter.mp he).1)
  value o' := by
    rw [get?_remove]
    simp only [IdealMap.set]
    by_cases heq : o' = o
    · simp [heq]
    · simp only [heq, if_false]
      exact h.value o'
  lapsed := by
    rw [deadCount_remove (by simp [Keeper.alive, ho])]
    exact h.lapsed

/-- An object is made: no entry is its own yet. -/
theorem create (h : m.Forgets objects i) (address : Address) :
    m.Forgets (objects.add address) i := by
  have halive : ∀ o, o ≠ objects.nextId →
      Keeper.alive (objects.add address) o = Keeper.alive objects o := by
    intro o ho
    unfold Keeper.alive
    rw [Table.get?_add, if_neg ho]
  have hborn : ∀ o ∈ m.keys, o ≠ objects.nextId := fun o ho => Nat.ne_of_lt (h.born o ho)
  constructor
  · exact h.nodup
  · intro o ho
    rw [Table.nextId_add]
    exact Nat.lt_succ_of_lt (h.born o ho)
  · intro o
    by_cases hnew : o = objects.nextId
    · have hnone : m.get? o = none := by
        rw [← Option.not_isSome_iff_eq_none, isSome_get?]
        exact fun hmem => hborn o hmem hnew
      rw [h.value, hnone]
      simp
    · rw [h.value, halive o hnew]
  · rw [h.lapsed]
    refine congrArg List.length (List.filter_congr fun e he => ?_)
    rw [halive e.1 (hborn e.1 (List.mem_map_of_mem he))]

/-- An object dies, with its value if it has one. -/
theorem drop (h : m.Forgets objects i) (o : ObjectId) :
    m.Forgets (objects.retain fun o' => o' ≠ o) (i.forget o) := by
  have halive : ∀ o', Keeper.alive (objects.retain fun o' => o' ≠ o) o' =
      (Keeper.alive objects o' && decide (o' ≠ o)) := by
    intro o'
    unfold Keeper.alive
    rw [Table.get?_retain]
    by_cases heq : o' = o
    · simp [heq]
    · simp [heq]
  constructor
  · exact h.nodup
  · intro o' ho'
    rw [Table.nextId_retain]
    exact h.born o' ho'
  · intro o'
    rw [halive]
    simp only [IdealMap.forget, IdealMap.set]
    by_cases heq : o' = o
    · simp [heq]
    · simp only [heq, if_false, h.value, ne_eq, not_false_eq_true, decide_true, Bool.and_true]
  · rw [funext halive]
    simp only [IdealMap.forget, h.lapsed]
    by_cases ho : Keeper.alive objects o
    · rw [deadCount_drop h.nodup ho, h.value, if_pos ho]
    · have hsame : (fun o' => Keeper.alive objects o' && decide (o' ≠ o)) =
          Keeper.alive objects := by
        funext o'
        by_cases heq : o' = o
        · simp [heq, ho]
        · simp [heq]
      rw [hsame, h.value, if_neg ho]
      rfl

/-- A purge takes the dead entries and nothing else. -/
theorem purge (h : m.Forgets objects i) :
    (m.purge (Keeper.alive objects)).Forgets objects { i with lapsed := 0 } where
  nodup := nodup_filter h.nodup _
  born o ho := by
    obtain ⟨e, he, rfl⟩ := List.mem_map.mp ho
    exact h.born e.1 (List.mem_map_of_mem (List.mem_filter.mp he).1)
  value o := by
    rw [h.value]
    simp only [WeakMap.purge, get?, lookup_filter_eq]
    split <;> rfl
  lapsed := by
    unfold WeakMap.purge deadCount
    rw [List.filter_filter]
    simp

/-- The entries of the living are those that the ideal map has. -/
theorem size_eq (h : m.Forgets objects i) : m.size = i.held objects.ids + i.lapsed := by
  have hids : objects.ids.Nodup := List.nodup_range.map fun _ _ h => Nat.succ.inj h
  have hkeys : ((m.entries.filter fun e => Keeper.alive objects e.1).map Prod.fst).Perm
      (objects.ids.filter fun o => (i.value o).isSome) := by
    refine (List.perm_ext_iff_of_nodup (nodup_filter h.nodup _) (hids.filter _)).mpr fun o => ?_
    rw [List.mem_filter, h.value]
    by_cases ho : Keeper.alive objects o
    · rw [if_pos ho, isSome_get?]
      constructor
      · intro hmem
        obtain ⟨e, he, rfl⟩ := List.mem_map.mp hmem
        exact ⟨Table.mem_ids ho, List.mem_map_of_mem (List.mem_filter.mp he).1⟩
      · rintro ⟨-, hmem⟩
        obtain ⟨e, he, rfl⟩ := List.mem_map.mp hmem
        exact List.mem_map_of_mem (List.mem_filter.mpr ⟨he, ho⟩)
    · rw [if_neg ho]
      constructor
      · intro hmem
        obtain ⟨e, he, rfl⟩ := List.mem_map.mp hmem
        exact absurd (List.mem_filter.mp he).2 ho
      · rintro ⟨-, hmem⟩
        cases hmem
  have hheld := hkeys.length_eq
  have hsplit := List.length_eq_length_filter_add (l := m.entries) fun e => Keeper.alive objects e.1
  rw [List.length_map] at hheld
  rw [h.lapsed]
  unfold size deadCount IdealMap.held
  omega

/-- **One call.** -/
theorem call (h : m.Forgets objects i) (ho : objects.get? o = some address) (c : MapCall α ρ) :
    (byNumber.call (Keeper.alive objects) ⟨address, o⟩ c m).1 =
        (ideal.call (Keeper.alive objects) ⟨address, o⟩ c i).1 ∧
      (byNumber.call (Keeper.alive objects) ⟨address, o⟩ c m).2.Forgets objects
        (ideal.call (Keeper.alive objects) ⟨address, o⟩ c i).2 := by
  have hvalue := h.value_of_alive ho
  cases c with
  | get => exact ⟨congrArg MapAnswer.value hvalue.symm, h⟩
  | insert a => exact ⟨rfl, h.insert ho a⟩
  | remove => exact ⟨congrArg MapAnswer.value hvalue.symm, h.remove ho⟩
  | getOrInsert a =>
    simp only [byNumber, ideal, WeakMap.getOrInsert, hvalue]
    cases m.get? o with
    | none => exact ⟨rfl, h.insert ho a⟩
    | some b => exact ⟨rfl, h⟩
  | update a f =>
    simp only [byNumber, ideal, WeakMap.update, hvalue]
    exact ⟨trivial, h.insert ho _⟩

/-- **One event.** -/
theorem act (h : m.Forgets objects i) (e : MapEvent α ρ) :
    (byNumber.act objects m e).1 = (ideal.act objects i e).1 ∧
      (byNumber.act objects m e).2.Forgets (e.objects objects) (ideal.act objects i e).2 := by
  cases e with
  | create address => exact ⟨rfl, h.create address⟩
  | drop o => exact ⟨rfl, h.drop o⟩
  | call o c =>
    simp only [Keeper.act]
    cases ho : objects.get? o with
    | none => exact ⟨rfl, h⟩
    | some address => exact h.call ho c
  | purge => exact ⟨congrArg MapAnswer.count h.lapsed.symm, h.purge⟩
  | size => exact ⟨congrArg MapAnswer.count h.size_eq, h⟩

end Forgets

end WeakMap

/-! ## 6. Runs -/

namespace Keeper

variable {α ρ : Type}

/-- A map in memory, the map by number and the map that forgets, after the same events. -/
structure Agree (objects : Table Address) (m : AddressMap α) (i : IdealMap α) : Prop where
  pinned : m.Pinned objects
  forgets : m.numbered.Forgets objects i

/-- Event by event. -/
theorem Agree.run {es : List (MapEvent α ρ)} :
    ∀ {objects : Table Address} {m : AddressMap α} {i : IdealMap α}, Agree objects m i →
    Admissible objects m es → (byAddress.run objects m es).1 = (ideal.run objects i es).1 ∧
      (byNumber.run objects m.numbered es).1 = (ideal.run objects i es).1 ∧
      (byNumber.run objects m.numbered es).2 = ((byAddress.run objects m es).2.1,
        (byAddress.run objects m es).2.2.numbered) ∧
      (ideal.run objects i es).2.1 = (byAddress.run objects m es).2.1 ∧
      Agree (byAddress.run objects m es).2.1 (byAddress.run objects m es).2.2
        (ideal.run objects i es).2.2 := by
  induction es with
  | nil => exact fun h _ => ⟨rfl, rfl, rfl, rfl, h⟩
  | cons e es ih =>
    intro objects m i h hadmissible
    obtain ⟨hanswer, hnumbered, hpinned⟩ := h.pinned.act hadmissible.1
    obtain ⟨hanswer', hforgets⟩ := h.forgets.act e
    obtain ⟨haddress, hnumber, hend, hobjects, hagree⟩ :=
      ih ⟨hpinned, hnumbered ▸ hforgets⟩ hadmissible.2
    rw [hnumbered] at hnumber hend
    simp only [Keeper.run]
    refine ⟨?_, ?_, hend, hobjects, hagree⟩
    · rw [hanswer, hanswer', haddress]
    · rw [hanswer', hnumber]

/-- **A weak map is a map that forgets.**  Objects are made and die, and whoever has one asks the
map for its value or changes it, in any order, with purges anywhere.  Then the map in memory and the
map by number give the answers of the map that forgets an object the moment it dies; what that one
holds are the entries of living objects, so an object that is gone, or not there yet, has nothing;
and the dead entries are those of the objects that lapsed since the last purge. -/
theorem answers_agree (es : List (MapEvent α ρ)) (h : Admissible .empty AddressMap.empty es) :
    (byAddress.run .empty .empty es).1 = (ideal.run .empty .empty es).1 ∧
      (byNumber.run .empty .empty es).1 = (ideal.run .empty .empty es).1 ∧
      (∀ o a, (ideal.run .empty .empty es).2.2.value o = some a ↔
        alive (ideal.run .empty IdealMap.empty es).2.1 o ∧
          ∃ address, (address, ⟨o, a⟩) ∈ (byAddress.run .empty .empty es).2.2.entries) ∧
      (ideal.run .empty .empty es).2.2.lapsed =
        ((byAddress.run .empty .empty es).2.2.entries.filter fun e =>
          !alive (ideal.run .empty IdealMap.empty es).2.1 e.2.object).length := by
  have hstart : Agree (α := α) .empty .empty .empty := by
    refine ⟨.empty fun o _ _ ho => ?_, .empty _⟩
    rw [Table.get?_empty] at ho
    cases ho
  obtain ⟨haddress, hnumber, -, hobjects, hagree⟩ := hstart.run h
  refine ⟨haddress, hnumber, fun o a => ?_, ?_⟩
  · rw [hobjects, hagree.forgets.value]
    have hentry : (o, a) ∈ (byAddress.run .empty .empty es).2.2.numbered.entries ↔
        ∃ address, (address, ⟨o, a⟩) ∈ (byAddress.run .empty .empty es).2.2.entries := by
      constructor
      · intro hmem
        obtain ⟨⟨address, e⟩, he, heq⟩ := List.mem_map.mp hmem
        obtain ⟨rfl, rfl⟩ := Prod.mk.inj heq
        exact ⟨address, he⟩
      · rintro ⟨address, he⟩
        exact List.mem_map.mpr ⟨(address, ⟨o, a⟩), he, rfl⟩
    split
    · rename_i halive
      rw [WeakMap.get?_eq_some_iff hagree.forgets.nodup, hentry]
      exact ⟨fun hmem => ⟨halive, hmem⟩, And.right⟩
    · rename_i hdead
      exact ⟨nofun, fun hmem => absurd hmem.1 hdead⟩
  · rw [hobjects, hagree.forgets.lapsed]
    simp only [WeakMap.deadCount, AddressMap.numbered, List.filter_map, List.length_map,
      Function.comp_def]

/-- An address is used again once the entry that stood there is purged. -/
def reuse : List (MapEvent Nat Nat) :=
  [.create 16, .call 1 (.insert 5), .create 32, .call 2 (.getOrInsert 7), .drop 1, .size,
    .purge, .create 16, .call 3 .get, .call 3 (.update 1 fun n => (n + 8, n + 1)), .call 2 .remove,
    .drop 3, .size]

theorem reuse_answers_agree : Admissible .empty AddressMap.empty reuse ∧
    (byAddress.run .empty .empty reuse).1 = (ideal.run .empty .empty reuse).1 ∧
    (byNumber.run .empty .empty reuse).1 = (ideal.run .empty .empty reuse).1 ∧
    (∀ o a, (ideal.run .empty .empty reuse).2.2.value o = some a ↔
      alive (ideal.run .empty IdealMap.empty reuse).2.1 o ∧
        ∃ address, (address, ⟨o, a⟩) ∈ (byAddress.run .empty .empty reuse).2.2.entries) ∧
    (ideal.run .empty .empty reuse).2.2.lapsed =
      ((byAddress.run .empty .empty reuse).2.2.entries.filter fun e =>
        !alive (ideal.run .empty IdealMap.empty reuse).2.1 e.2.object).length :=
  ⟨by decide, answers_agree reuse (by decide)⟩

end Keeper

end Provenance
