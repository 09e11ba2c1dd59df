/-
# What an action took, if it did not fail

An action that goes on has found what it asked for: an int where it took an int, an object where it
took one, and a place in the array where it stored an element.  These rules say so for each of the
small actions that instructions, hooks and natives begin with, and leave out how they fail.
-/
import Provenance.Proofs.StraightLine

namespace Provenance

open Provenance.Action (Wp)

/-! ## 1. Reading values and objects -/

namespace Heap

variable {h : Heap} {v : Value}

theorem int_eq_ok {n : Int32} (hn : h.int v = .ok n) : v = .int n := by
  cases v <;> simp [int, mismatch] at hn
  rw [hn]

theorem target_eq_ok {context : String} {o : ObjectId} (ho : h.target context v = .ok o) :
    v = .ref o := by
  cases v <;> simp [target, reference, mismatch] at ho
  rw [ho]

theorem point_eq_ok {p : Option Point} (hp : h.point v = .ok p) : v = .ofPoint p := by
  cases v <;> simp [point, mismatch] at hp <;> subst hp <;> rfl

theorem duplicate_eq_ok {o : ObjectId} {x : HeapObject} (hx : h.duplicate o = .ok x) :
    ∃ elem values, h.object o = .array elem values ∧ x = .array elem values := by
  unfold duplicate at hx
  split at hx
  · exact ⟨_, _, ‹_›, (Except.ok.inj hx).symm⟩
  · cases hx

theorem array_of_load {o : ObjectId} {n : Int32} (hload : h.load o n = .ok v) :
    ∃ elem values, h.object o = .array elem values := by
  unfold load at hload
  split at hload
  · exact ⟨_, _, ‹_›⟩
  · cases hload

theorem length_of_array {o : ObjectId} {elem : Ty} {values : Array Value}
    (ho : h.object o = .array elem values) : h.length o = .ok values.size := by
  simp only [length, ho]

end Heap

/-! ## 2. Instructions and natives -/

namespace Work

variable {α β : Type} {u : RunError} {inUse : Thunk (List Value)} {b : Bench} {R : β → Bench → Prop}

theorem wp_pop_bind {f : Value → Work β}
    (h : ∀ v S, b.stack = v :: S → Wp (f v) R (fun _ _ => True) { b with stack := S }) :
    Wp (pop u >>= f) R (fun _ _ => True) b := by
  rw [Action.wp_bind, wp_pop]
  split
  · trivial
  · exact h _ _ ‹_›

theorem wp_fromHeap_bind {g : Heap → Except RunError α} {f : α → Work β}
    (h : ∀ a, g b.world.heap = .ok a → Wp (f a) R (fun _ _ => True) b) :
    Wp (fromHeap g >>= f) R (fun _ _ => True) b := by
  rw [Action.wp_bind, wp_fromHeap]
  split
  · exact h _ ‹_›
  · trivial

theorem wp_popInt_bind {f : Int32 → Work β}
    (h : ∀ n S, b.stack = .int n :: S → Wp (f n) R (fun _ _ => True) { b with stack := S }) :
    Wp (popInt u >>= f) R (fun _ _ => True) b := by
  unfold popInt
  rw [bind_assoc]
  exact wp_pop_bind fun v S hS => wp_fromHeap_bind fun n hn => h n S (Heap.int_eq_ok hn ▸ hS)

theorem wp_popTarget_bind {context : String} {f : ObjectId → Work β}
    (h : ∀ o S, b.stack = .ref o :: S → Wp (f o) R (fun _ _ => True) { b with stack := S }) :
    Wp (popTarget u context >>= f) R (fun _ _ => True) b := by
  unfold popTarget
  rw [bind_assoc]
  exact wp_pop_bind fun v S hS => wp_fromHeap_bind fun o ho => h o S (Heap.target_eq_ok ho ▸ hS)

theorem wp_storeElement_bind {o : ObjectId} {n : Int32} {v : Value} {f : Unit → Work β}
    (h : ∀ i, b.world.heap.elementPlace o n = .ok i →
      Wp (f ()) R (fun _ _ => True) { b with world.heap := b.world.heap.putElement o i v }) :
    Wp (storeElement o n v >>= f) R (fun _ _ => True) b := by
  unfold storeElement
  rw [bind_assoc]
  exact wp_fromHeap_bind h

theorem wp_changeHeap_bind {g : Heap → Except RunError Heap} {f : Unit → Work β}
    (h : ∀ heap, g b.world.heap = .ok heap →
      Wp (f ()) R (fun _ _ => True) { b with world.heap := heap }) :
    Wp (changeHeap g >>= f) R (fun _ _ => True) b := by
  unfold changeHeap
  rw [bind_assoc]
  exact wp_fromHeap_bind h

theorem wp_tracking_bind {g : (ObjectId → Bool) → Store → α × Store} {f : α → Work β}
    (h : ∀ alive, Wp (f (g alive b.world.store).1) R (fun _ _ => True)
      { b with world.store := (g alive b.world.store).2 }) :
    Wp (tracking inUse g >>= f) R (fun _ _ => True) b := h _

end Work

namespace NativeCall

variable {β : Type} {c : NativeCall} {k : Nat} {w : World} {R : β → World → Prop}

theorem wp_arg_bind {f : Value → Action World β}
    (h : ∀ v, c.args[k]? = some v → Wp (f v) R (fun _ _ => True) w) :
    Wp (c.arg k >>= f) R (fun _ _ => True) w := by
  unfold arg
  rw [Action.wp_bind, Action.wp_inspect]
  cases hv : c.args[k]? with
  | none => trivial
  | some v => exact h v hv

theorem wp_target_bind {f : ObjectId → Action World β}
    (h : ∀ o, c.args[k]? = some (.ref o) → Wp (f o) R (fun _ _ => True) w) :
    Wp (c.target k >>= f) R (fun _ _ => True) w := by
  unfold target
  rw [bind_assoc]
  refine wp_arg_bind fun v hv => ?_
  rw [Action.wp_bind, Action.wp_inspect]
  split
  · rename_i o ho
    exact h o (Heap.target_eq_ok ho ▸ hv)
  · trivial

theorem wp_int_bind {f : Int32 → Action World β}
    (h : ∀ n, c.args[k]? = some (.int n) → Wp (f n) R (fun _ _ => True) w) :
    Wp (c.int k >>= f) R (fun _ _ => True) w := by
  unfold int
  rw [bind_assoc]
  refine wp_arg_bind fun v hv => ?_
  rw [Action.wp_bind, Action.wp_inspect]
  split
  · rename_i n hn
    exact h n (Heap.int_eq_ok hn ▸ hv)
  · trivial

end NativeCall

end Provenance
