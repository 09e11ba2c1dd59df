/-
# Numbered things

Trackers, objects, call records and conversations are numbered from one in the order in which
they come into being, and a number is never given out again.
-/
namespace Provenance

/-- Things by number; a place is empty once its thing is gone. -/
structure Table (α : Type) where
  slots : Array (Option α)
  deriving Repr

namespace Table

variable {α : Type}

def empty : Table α := ⟨#[]⟩

instance : Inhabited (Table α) := ⟨empty⟩

/-- The number that the next thing gets. -/
def nextId (t : Table α) : Nat := t.slots.size + 1

/-- Adds a thing under the next number. -/
def add (t : Table α) (a : α) : Table α := ⟨t.slots.push (some a)⟩

def get? (t : Table α) : Nat → Option α
  | 0 => none
  | n + 1 => (t.slots[n]?).join

/-- Changes the thing of a number, if there is one. -/
def modify (t : Table α) (id : Nat) (f : α → α) : Table α :=
  match id with
  | 0 => t
  | n + 1 => ⟨t.slots.modify n (Option.map f)⟩

/-- Keeps only the things whose number satisfies the test. -/
def retain (t : Table α) (keep : Nat → Bool) : Table α :=
  ⟨t.slots.mapIdx fun n a => if keep (n + 1) then a else none⟩

/-- All numbers given out so far. -/
def ids (t : Table α) : List Nat := (List.range t.slots.size).map (· + 1)

@[simp] theorem get?_empty (id : Nat) : (empty : Table α).get? id = none := by
  cases id <;> simp [empty, get?]

theorem get?_add (t : Table α) (a : α) (id : Nat) :
    (t.add a).get? id = if id = t.nextId then some a else t.get? id := by
  cases id with
  | zero => simp [get?, nextId]
  | succ n =>
    simp only [get?, add, nextId, Nat.add_right_cancel_iff, Array.getElem?_push]
    split <;> simp

theorem get?_modify (t : Table α) (f : α → α) (id id' : Nat) :
    (t.modify id f).get? id' = if id = id' then (t.get? id').map f else t.get? id' := by
  cases id with
  | zero => cases id' <;> simp [modify, get?]
  | succ n =>
    cases id' with
    | zero => simp [get?]
    | succ m =>
      simp only [modify, get?, Array.getElem?_modify, Nat.add_right_cancel_iff]
      by_cases h : n = m
      · subst h
        cases t.slots[n]? with
        | none => simp
        | some a => cases a <;> simp
      · simp [h]

theorem get?_retain (t : Table α) (keep : Nat → Bool) (id : Nat) :
    (t.retain keep).get? id = if keep id then t.get? id else none := by
  cases id with
  | zero => simp [get?]
  | succ n =>
    simp only [get?, retain, Array.getElem?_mapIdx]
    cases t.slots[n]? with
    | none => simp
    | some a => cases keep (n + 1) <;> simp

/-! Only adding gives out a number. -/

theorem nextId_add (t : Table α) (a : α) : (t.add a).nextId = t.nextId + 1 := by simp [nextId, add]

theorem nextId_modify (t : Table α) (id : Nat) (f : α → α) : (t.modify id f).nextId = t.nextId := by
  cases id <;> simp [nextId, modify]

theorem nextId_retain (t : Table α) (keep : Nat → Bool) : (t.retain keep).nextId = t.nextId := by
  simp [nextId, retain]

/-- A number that is not given out has no thing. -/
theorem lt_nextId {t : Table α} {id : Nat} (h : (t.get? id).isSome) : id < t.nextId := by
  cases id with
  | zero => exact Nat.succ_pos _
  | succ n =>
    unfold get? nextId at *
    refine Nat.succ_lt_succ (Nat.lt_of_not_le fun hle => ?_)
    simp [Array.getElem?_eq_none hle] at h

theorem mem_ids {t : Table α} {id : Nat} (h : (t.get? id).isSome) : id ∈ t.ids := by
  have hlt := lt_nextId h
  cases id with
  | zero => simp [get?] at h
  | succ n =>
    unfold nextId at hlt
    simpa [ids] using Nat.lt_of_succ_lt_succ hlt

end Table

end Provenance
