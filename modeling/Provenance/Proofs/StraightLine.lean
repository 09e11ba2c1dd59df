/-
# Code without jumps

`Action.Wp` says that whatever an action comes to from a state has a property; `Work.Through` says
so of a piece of code that does nothing but go on to the next instruction, or fails.  The code that
weaving puts in is of that kind.
-/
import Provenance.Proofs.SameWorld

namespace Provenance

/-! ## 1. What an action comes to -/

namespace Action

variable {σ α β : Type} {Q : α → σ → Prop} {R : β → σ → Prop} {E : RunError → σ → Prop}

/-- The action gives a result as described by `Q`, or fails as described by `E`. -/
def Wp (x : Action σ α) (Q : α → σ → Prop) (E : RunError → σ → Prop) (s : σ) : Prop :=
  match x.outcome s with
  | (.ok a, s) => Q a s
  | (.error e, s) => E e s

@[simp] theorem wp_pure (a : α) (s : σ) : Wp (pure a) Q E s ↔ Q a s := Iff.rfl

@[simp] theorem wp_throw (e : RunError) (s : σ) : Wp (throw e : Action σ α) Q E s ↔ E e s := Iff.rfl

@[simp] theorem wp_bind (x : Action σ α) (f : α → Action σ β) (s : σ) :
    Wp (x >>= f) R E s ↔ Wp x (fun a => Wp (f a) R E) E s := by
  unfold Wp
  rw [outcome_bind]
  rcases x.outcome s with ⟨r, t⟩
  cases r <;> rfl

@[simp] theorem wp_inspect (f : σ → Except RunError α) (s : σ) :
    Wp (inspect f) Q E s ↔
      match f s with
      | .ok a => Q a s
      | .error e => E e s := by
  unfold Wp outcome inspect
  cases f s <;> rfl

@[simp] theorem wp_update (f : σ → α × σ) (s : σ) :
    Wp (update f) Q E s ↔ Q (f s).1 (f s).2 := Iff.rfl

theorem Wp.mono {x : Action σ α} {Q' : α → σ → Prop} {E' : RunError → σ → Prop} {s : σ}
    (h : Wp x Q E s) (hQ : ∀ a s, Q a s → Q' a s) (hE : ∀ e s, E e s → E' e s) : Wp x Q' E' s := by
  unfold Wp at h ⊢
  rcases hx : x.outcome s with ⟨r, t⟩
  rw [hx] at h
  cases r with
  | ok a => exact hQ a t h
  | error e => exact hE e t h

/-- What an action came to is as described. -/
theorem Wp.of_ok {x : Action σ α} {s t : σ} {a : α} (h : Wp x Q E s)
    (hx : x.outcome s = (.ok a, t)) : Q a t := by
  unfold Wp at h
  rwa [hx] at h

/-- What cannot fail gives a result. -/
theorem Wp.exists_ok {x : Action σ α} {s : σ} (h : Wp x Q (fun _ _ => False) s) :
    ∃ a t, x.outcome s = (.ok a, t) ∧ Q a t := by
  unfold Wp at h
  rcases hx : x.outcome s with ⟨r, t⟩
  rw [hx] at h
  cases r with
  | ok a => exact ⟨a, t, rfl, h⟩
  | error e => exact h.elim

end Action

namespace Work

open Provenance.Action (Wp)

variable {Q : Unit → Bench → Prop} {E : RunError → Bench → Prop}

@[simp] theorem wp_push (v : Value) (b : Bench) :
    Wp (push v) Q E b ↔ Q () { b with stack := v :: b.stack } := Iff.rfl

theorem wp_pop {R : Value → Bench → Prop} (u : RunError) (b : Bench) :
    Wp (pop u) R E b ↔
      match b.stack with
      | [] => E u b
      | v :: rest => R v { b with stack := rest } := by
  unfold Wp Action.outcome pop
  cases b.stack <;> rfl

@[simp] theorem wp_pop_cons {R : Value → Bench → Prop} (u : RunError) (w : World)
    (L : Array Value) (v : Value) (S : List Value) :
    Wp (pop u) R E ⟨w, L, v :: S⟩ ↔ R v ⟨w, L, S⟩ := Iff.rfl

@[simp] theorem wp_popMany {R : List Value → Bench → Prop} (u : RunError) (n : Nat) (b : Bench) :
    Wp (popMany u n) R E b ↔
      if b.stack.length < n then E u b
      else R (b.stack.take n).reverse { b with stack := b.stack.drop n } := by
  unfold Wp Action.outcome popMany
  by_cases h : b.stack.length < n
  · simp only [h, if_true]
  · simp only [h, if_false]

@[simp] theorem wp_fromHeap {α : Type} {R : α → Bench → Prop} (f : Heap → Except RunError α)
    (b : Bench) :
    Wp (fromHeap f) R E b ↔
      match f b.world.heap with
      | .ok a => R a b
      | .error e => E e b :=
  Action.wp_inspect _ b

@[simp] theorem wp_onStore {α : Type} {R : α → Bench → Prop} (f : Store → α × Store) (b : Bench) :
    Wp (onStore f) R E b ↔
      R (f b.world.store).1 { b with world.store := (f b.world.store).2 } := Iff.rfl

@[simp] theorem wp_onHeap {α : Type} {R : α → Bench → Prop} (f : Heap → α × Heap) (b : Bench) :
    Wp (onHeap f) R E b ↔ R (f b.world.heap).1 { b with world.heap := (f b.world.heap).2 } :=
  Iff.rfl

@[simp] theorem wp_loadLocal {R : Value → Bench → Prop} (method : String) (l : Nat) (b : Bench) :
    Wp (loadLocal method l) R E b ↔
      match b.locals[l]? with
      | some x => R x b
      | none => E (.invalidLocal method l) b := by
  unfold loadLocal
  rw [Action.wp_inspect]
  cases b.locals[l]? <;> rfl

@[simp] theorem wp_storeLocal (method : String) (l : Nat) (v : Value) (b : Bench) :
    Wp (storeLocal method l v) Q E b ↔
      if l < b.locals.size then Q () { b with locals := b.locals.setIfInBounds l v }
      else E (.invalidLocal method l) b := by
  unfold storeLocal
  rw [Action.wp_bind, Action.wp_inspect]
  by_cases h : l < b.locals.size
  · simp only [h, if_true]
    exact Action.wp_update _ _
  · simp only [h, if_false]

/-! ## 2. Pieces of code -/

/-- Code that goes on from each instruction to the next and ends as described by `Q`, or fails as
described by `E`, wherever it stands. -/
def Through (E : RunError → Bench → Prop) : List Insn → (Bench → Prop) → Bench → Prop
  | [], P, b => P b
  | i :: rest, P, b => ∀ method pc inUse,
    Wp (perform method (.stackUnderflow method pc) inUse i)
      (fun t b => t = .next ∧ Through E rest P b) E b

variable {P P' : Bench → Prop}

theorem through_append : ∀ {code rest : List Insn} {b : Bench},
    Through E (code ++ rest) P b ↔ Through E code (Through E rest P) b
  | [], _, _ => Iff.rfl
  | i :: code, rest, b => by
    simp only [List.cons_append, Through, through_append]

theorem Through.mono {E' : RunError → Bench → Prop} : ∀ {code : List Insn} {b : Bench},
    Through E code P b → (∀ b, P b → P' b) → (∀ e b, E e b → E' e b) → Through E' code P' b
  | [], b, h, hP, _ => hP b h
  | _ :: _, _, h, hP, hE => fun method pc inUse =>
    (h method pc inUse).mono (fun _ _ ht => ⟨ht.1, ht.2.mono hP hE⟩) hE

/-- Code in front of other code. -/
theorem Through.append {code rest : List Insn} {b : Bench} (h : Through E code P b)
    (hrest : ∀ b, P b → Through E rest P' b) : Through E (code ++ rest) P' b :=
  through_append.mpr (h.mono hrest fun _ _ he => he)

/-- Pieces of code, one after the other, that each keep a property. -/
theorem through_flatMap {α : Type} {f : α → List Insn} : ∀ {l : List α} {b : Bench},
    (∀ a ∈ l, ∀ b, P b → Through E (f a) P b) → P b → Through E (l.flatMap f) P b
  | [], _, _, hb => hb
  | a :: l, b, h, hb => by
    rw [List.flatMap_cons]
    exact (h a (by simp) b hb).append fun b hb =>
      through_flatMap (fun a ha => h a (by simp [ha])) hb

end Work

/-! ## 3. Runs -/

/-- A loaded method stands at an instruction. -/
theorem Routine.insns_getElem? (m : Method) (pc : Nat) :
    (Routine.ofMethod m).insns[pc]? = m.insns[pc]? := by
  show m.insns.toArray[pc]? = m.insns[pc]?
  simp

theorem getElem?_of_drop {α : Type} {l rest : List α} {n : Nat} {a : α} (h : l.drop n = a :: rest) :
    l[n]? = some a ∧ l.drop (n + 1) = rest := by
  constructor
  · have := congrArg (·[0]?) h
    simpa using this
  · rw [← List.drop_drop, h]
    rfl

namespace Program

/-- One step, by the outcome of its instruction. -/
theorem step_of_ok {p : Program} {limits : MachineSettings} {world : World} {a : Activation}
    {callers : List Waiting} {i : Insn} {t : Transfer} {b : Bench}
    (h : (Work.perform a.routine.key a.underflow (RunState.inUse a callers) i).outcome
      ⟨world, a.locals, a.stack⟩ = (.ok t, b)) :
    p.step limits ⟨world, a, callers⟩ i =
      p.transfer limits b.world { a with locals := b.locals, stack := b.stack } callers t := by
  simp only [step, h]

theorem step_of_error {p : Program} {limits : MachineSettings} {world : World} {a : Activation}
    {callers : List Waiting} {i : Insn} {e : RunError} {b : Bench}
    (h : (Work.perform a.routine.key a.underflow (RunState.inUse a callers) i).outcome
      ⟨world, a.locals, a.stack⟩ = (.error e, b)) :
    p.step limits ⟨world, a, callers⟩ i = .ended ⟨.error e, b.world⟩ := by
  simp only [step, h]

end Program

end Provenance
