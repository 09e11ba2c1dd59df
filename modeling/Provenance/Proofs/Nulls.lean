/-
# What is null for certain

A method tells of some of its locals and operands that they are null: null was pushed, and moved
through locals, and what a hook reads off a record that is null is null as well.  `Nulls` notes
beside a run which these are, and forgets all others, of which nothing is said.  Whatever is noted
is so, in every run of any program (`Nulls.traced`).
-/
import Provenance.Proofs.Slots
import Provenance.Proofs.Tracing
import Provenance.Proofs.Upright

namespace Provenance

/-! ## 1. Notes of null -/

/-- Which locals and operands of an activation are null for certain. -/
structure Nulls where
  locals : Nat → Bool
  /-- Whether the operand so many places below the top is. -/
  stack : Nat → Bool

namespace Nulls

/-- Nothing is known to be null. -/
def unknown : Nulls := ⟨fun _ => false, fun _ => false⟩

/-- Puts operands on a stack, the first on top. -/
def onto : List Bool → (Nat → Bool) → Nat → Bool
  | [], below => below
  | b :: bs, below => fun
    | 0 => b
    | n + 1 => onto bs below n

theorem onto_append (bs bs' : List Bool) (below : Nat → Bool) :
    onto (bs ++ bs') below = onto bs (onto bs' below) := by
  induction bs with
  | nil => rfl
  | cons b bs ih => exact congrArg (onto [b]) ih

theorem onto_add (bs : List Bool) (below : Nat → Bool) (n : Nat) :
    onto bs below (n + bs.length) = below n := by
  induction bs with
  | nil => rfl
  | cons b bs ih => exact ih

/-- With another operand. -/
def push (g : Nulls) (b : Bool) : Nulls := { g with stack := onto [b] g.stack }

/-- With another value in a local. -/
def setLocal (g : Nulls) (l : Nat) (b : Bool) : Nulls :=
  { g with locals := fun j => if j = l then b else g.locals j }

/-- What an instruction leaves on the stack, the top first. -/
def left (g : Nulls) : Insn → List Bool
  | .const .null => [true]
  | .load l => [g.locals l]
  | .hook .invocationReturnPoint | .hook (.invocationArgPoint _) => [g.stack 0]
  | i => List.replicate i.pushes false

/-- What is null after an instruction; a caller already has the result of the call. -/
def after (g : Nulls) (i : Insn) : Nulls where
  locals := match i with
    | .store l => (g.setLocal l (g.stack 0)).locals
    | _ => g.locals
  stack := onto (g.left i) fun n => g.stack (n + i.pops)

/-- Noting what is null. -/
def notes : Notes Nulls where
  start _ := unknown
  after _ i g := g.after i

/-! ## 2. What is noted is so -/

variable {g : Nulls} {L : Array Value} {S : List Value} {i : Insn} {b b' : Bench}

/-- What is noted is null. -/
structure Hold (g : Nulls) (locals : Array Value) (stack : List Value) : Prop where
  locals : ∀ l, g.locals l = true → locals[l]? = some .null
  stack : ∀ n, g.stack n = true → stack[n]? = some .null

theorem hold_unknown (L : Array Value) (S : List Value) : unknown.Hold L S :=
  ⟨fun _ h => (by cases h), fun _ h => (by cases h)⟩

/-- Operands on top of others. -/
theorem null_of_onto {below : Nat → Bool} : ∀ {bs : List Bool} {S : List Value},
    (∀ n : Nat, bs[n]? = some true → S[n]? = some .null) →
    (∀ n, below n = true → (S.drop bs.length)[n]? = some .null) →
    ∀ n, onto bs below n = true → S[n]? = some .null
  | [], _, _, hbelow, n, hn => hbelow n hn
  | b :: bs, S, htop, hbelow, n, hn => by
    cases n with
    | zero => exact htop 0 (congrArg some hn)
    | succ n =>
      have hrest : S.tail[n]? = some .null := by
        refine null_of_onto (fun n h => ?_) (fun n h => ?_) n hn
        · rw [List.getElem?_tail]
          exact htop (n + 1) h
        · rw [List.drop_tail]
          exact hbelow n h
      rwa [List.getElem?_tail] at hrest

theorem length_left (g : Nulls) (i : Insn) : (g.left i).length = i.pushes := by
  cases i with
  | const c => cases c <;> rfl
  | hook h => cases h <;> simp [left, Insn.pushes, Insn.effect, Hook.effect]
  | _ => simp [left, Insn.pushes, Insn.effect]

/-- An instruction that writes no local. -/
theorem Hold.exchanged {W : Nat → Prop} (h : g.Hold b.locals b.stack) (hstore : ∀ l, i ≠ .store l)
    (hexchanged : Work.Exchanged W i.pops i.pushes b b') (hwrite : ∀ l, ¬W l)
    (htop : ∀ n : Nat, (g.left i)[n]? = some true → b'.stack[n]? = some .null) :
    (g.after i).Hold b'.locals b'.stack where
  locals l hl := by
    have hsame : (g.after i).locals = g.locals := by
      cases i with
      | store l => exact absurd rfl (hstore l)
      | _ => rfl
    rw [hsame] at hl
    exact (hexchanged.locals l (hwrite l)).trans (h.locals l hl)
  stack := by
    refine null_of_onto htop fun n hn => ?_
    rw [length_left, hexchanged.below, List.getElem?_drop, Nat.add_comm]
    exact h.stack _ hn

/-- What a hook reads off a record that is null is null. -/
theorem null_of_record {inUse : Thunk (List Value)} {hook : Hook}
    (hhook : hook = .invocationReturnPoint ∨ ∃ n, hook = .invocationArgPoint n)
    (htop : b.stack[0]? = some .null) :
    Action.Wp (Work.hook inUse hook) (fun _ b' => b'.stack[0]? = some .null)
      (fun _ _ => True) b := by
  obtain ⟨w, L, S⟩ := b
  obtain ⟨S, rfl⟩ : ∃ S', S = .null :: S' := by
    cases S with
    | nil => cases htop
    | cons x S =>
      obtain rfl := Option.some.inj htop
      exact ⟨S, rfl⟩
  obtain rfl | ⟨n, rfl⟩ := hhook
  · simp [Work.hook, Work.takeRecord, Work.take, Heap.record]
  · simp [Work.hook, Work.takeRecord, Work.take, Heap.record]

open Provenance.Action (Wp)

section Performing

variable (method : String) (u : RunError) (inUse : Thunk (List Value))

theorem perform_exchanged (hinvoke : ∀ m, i ≠ .invoke m) (hlocal : i.local? = none) (b : Bench) :
    Wp (Work.perform method u inUse i)
      (fun _ b' => Work.Exchanged (fun _ => False) i.pops i.pushes b b') (fun _ _ => True) b := by
  have hleaves : Work.leaves i = i.pushes := by
    cases i with
    | invoke m => exact absurd rfl (hinvoke m)
    | _ => rfl
  rw [← hleaves]
  have hbalanced : Work.Balanced b.locals.size (fun _ => False) i.pops (Work.leaves i)
      (Work.perform method u inUse i) :=
    Work.perform_balanced method u (fun l hl => nomatch hlocal.symm.trans hl)
      fun l hl => by cases hl ▸ hlocal
  exact (hbalanced b rfl).mono (fun _ _ h => h) fun _ _ _ => trivial

/-- Most instructions leave nothing of which it is known. -/
theorem Hold.plain (h : g.Hold b.locals b.stack) (hinvoke : ∀ m, i ≠ .invoke m)
    (hlocal : i.local? = none) (hleft : g.left i = List.replicate i.pushes false) :
    Wp (Work.perform method u inUse i) (fun _ b' => (g.after i).Hold b'.locals b'.stack)
      (fun _ _ => True) b := by
  refine (perform_exchanged method u inUse hinvoke hlocal b).mono (fun _ b' hexchanged => ?_)
    fun _ _ _ => trivial
  refine h.exchanged (fun l hl => by cases hl ▸ hlocal) hexchanged (fun _ => id) fun n hn => ?_
  rw [hleft] at hn
  simp [List.getElem?_replicate] at hn

theorem Hold.record {hook : Hook} (h : g.Hold b.locals b.stack)
    (hhook : hook = .invocationReturnPoint ∨ ∃ n, hook = .invocationArgPoint n) :
    Wp (Work.perform method u inUse (.hook hook))
      (fun _ b' => (g.after (.hook hook)).Hold b'.locals b'.stack) (fun _ _ => True) b := by
  have hleft : g.left (.hook hook) = [g.stack 0] := by
    obtain rfl | ⟨n, rfl⟩ := hhook <;> rfl
  have hnull : Wp (Work.perform method u inUse (.hook hook))
      (fun _ b' => g.stack 0 = true → b'.stack[0]? = some .null) (fun _ _ => True) b := by
    by_cases htop : g.stack 0 = true
    · simp only [Work.perform, Action.wp_bind]
      exact (null_of_record hhook (h.stack 0 htop)).mono (fun _ _ hnull _ => hnull) fun _ _ h => h
    · exact (Work.perform_hook method u inUse hook b).mono (fun _ _ _ h => absurd h htop)
        fun _ _ h => h
  refine ((perform_exchanged method u inUse (by simp) rfl b).and hnull).mono
    (fun _ b' hboth => ?_) fun _ _ _ => trivial
  obtain ⟨hexchanged, hnull⟩ := hboth
  refine h.exchanged (by simp) hexchanged (fun _ => id) fun n hn => ?_
  rw [hleft] at hn
  cases n with
  | zero => exact hnull (Option.some.inj hn)
  | succ n => simp at hn

theorem Hold.load {l : Nat} (h : g.Hold b.locals b.stack) :
    Wp (Work.perform method u inUse (.load l))
      (fun _ b' => (g.after (.load l)).Hold b'.locals b'.stack) (fun _ _ => True) b := by
  simp only [Work.perform, Action.wp_bind, Work.wp_loadLocal, Work.wp_push, Action.wp_pure]
  split
  · rename_i x hx
    refine ⟨h.locals, null_of_onto (fun n hn => ?_) h.stack⟩
    cases n with
    | zero =>
      have hnull := h.locals l (Option.some.inj hn)
      rwa [hx] at hnull
    | succ n => simp [left] at hn
  · trivial

theorem Hold.store {l : Nat} (h : g.Hold b.locals b.stack) :
    Wp (Work.perform method u inUse (.store l))
      (fun _ b' => (g.after (.store l)).Hold b'.locals b'.stack) (fun _ _ => True) b := by
  simp only [Work.perform, Action.wp_bind, Work.wp_pop, Work.wp_storeLocal, Action.wp_pure]
  split
  · trivial
  · rename_i x rest hcons
    split
    · rename_i hlt
      refine ⟨fun j hj => ?_, fun n hn => ?_⟩
      · by_cases hjl : j = l
        · subst hjl
          have hnull := h.stack 0 ((if_pos rfl).symm.trans hj)
          rw [hcons] at hnull
          rw [Array.getElem?_setIfInBounds_self_of_lt hlt]
          exact hnull
        · rw [Array.getElem?_setIfInBounds_ne (Ne.symm hjl)]
          exact h.locals j ((if_neg hjl).symm.trans hj)
      · have hnull := h.stack (n + 1) hn
        rwa [hcons] at hnull
    · trivial

/-- **One instruction.**  What a call gives comes later. -/
theorem Hold.perform (h : g.Hold b.locals b.stack) (hinvoke : ∀ m, i ≠ .invoke m) :
    Wp (Work.perform method u inUse i) (fun _ b' => (g.after i).Hold b'.locals b'.stack)
      (fun _ _ => True) b := by
  cases i with
  | invoke m => exact absurd rfl (hinvoke m)
  | load l => exact h.load method u inUse
  | store l => exact h.store method u inUse
  | const c =>
    cases c with
    | null =>
      refine ⟨h.locals, null_of_onto (fun n hn => ?_) h.stack⟩
      cases n with
      | zero => rfl
      | succ n => simp [left] at hn
    | _ => exact h.plain method u inUse hinvoke rfl rfl
  | hook hk =>
    cases hk with
    | invocationReturnPoint => exact h.record method u inUse (.inl rfl)
    | invocationArgPoint n => exact h.record method u inUse (.inr ⟨n, rfl⟩)
    | _ => exact h.plain method u inUse hinvoke rfl rfl
  | _ => exact h.plain method u inUse hinvoke rfl rfl

end Performing

/-- A call takes its operands; whatever it gives is put on top later. -/
theorem Hold.called {m : MethodRef} (h : g.Hold L S) :
    if m.desc.ret = .void then (g.after (.invoke m)).Hold L (S.drop m.operandCount)
    else ∀ v, (g.after (.invoke m)).Hold L (v :: S.drop m.operandCount) := by
  have hbelow (n : Nat) (hn : g.stack (n + m.operandCount) = true) :
      (S.drop m.operandCount)[n]? = some .null := by
    rw [List.getElem?_drop, Nat.add_comm]
    exact h.stack _ hn
  split
  · rename_i hvoid
    refine ⟨h.locals, null_of_onto (fun n hn => ?_) fun n hn => ?_⟩
    · simp [left, Insn.pushes, Insn.effect, hvoid] at hn
    · rw [length_left]
      simp only [Insn.pushes, Insn.effect, hvoid, if_true, List.drop_zero]
      exact hbelow n hn
  · rename_i hvoid
    refine fun v => ⟨h.locals, null_of_onto (fun n hn => ?_) fun n hn => ?_⟩
    · cases n <;> simp [left, Insn.pushes, Insn.effect, hvoid] at hn
    · rw [length_left]
      simp only [Insn.pushes, Insn.effect, hvoid, if_false, List.drop_succ_cons, List.drop_zero]
      exact hbelow n hn

/-! ## 3. Runs -/

variable {p : Program} {limits : MachineSettings} {s : RunState} {gs : List Nulls}

/-- **Every step** keeps what is noted true. -/
theorem keeps (p : Program) : notes.Keeps p (fun a _ g => g.Hold a.locals a.stack)
    (fun x g => if x.ret = .void then g.Hold x.activation.locals x.activation.stack
      else ∀ v, g.Hold x.activation.locals (v :: x.activation.stack)) where
  starts _ _ _ := hold_unknown _ _
  resumes _ v h := by
    split
    · rename_i hvoid
      rwa [if_pos hvoid] at h
    · rename_i hvoid
      rw [if_neg hvoid] at h
      exact h v
  goes {s g i b t} h hi hout := by
    obtain ⟨w, ⟨r, pc, L, S⟩, callers⟩ := s
    by_cases hinvoke : ∃ m, i = .invoke m
    · obtain ⟨m, rfl⟩ := hinvoke
      obtain ⟨-, rfl, rfl⟩ := (Work.perform_invoke _ _ _ _).of_ok hout
      exact ⟨h.called, fun _ _ _ => hold_unknown _ _⟩
    · have hafter := (h.perform _ _ _ fun m hm => hinvoke ⟨m, hm⟩).of_ok hout
      cases t with
      | next => exact hafter
      | jump label => exact fun _ _ => hafter
      | call target args =>
        obtain rfl : i = .invoke target := (Work.perform_ways _ _ _ _ _).of_ok hout
        exact absurd ⟨target, rfl⟩ hinvoke
      | ret _ => trivial

/-- **Whatever is noted to be null is null**, in every run. -/
theorem traced (ht : notes.Traced p limits s (g :: gs)) : g.Hold s.current.locals s.current.stack :=
  ((keeps p).traced ht).current

end Nulls

end Provenance
