/-
# Copies of strings

Where string literals become instances of their own, woven code goes another way than the original
in two places.  Behind a literal it copies the string that lies on top of the stack
(`Bench.Copied`), and in place of a comparison of references it compares them in the sense of
strings (`Work.performAs`).  Here both are described as something that the original might do, too.
-/
import Provenance.Proofs.Pairs
import Provenance.Proofs.Proceeding

namespace Provenance

/-! ## 1. Copies -/

/-- The bench after the string on top of its stack was copied, any number of times. -/
inductive Bench.Copied (b : Bench) : Bench → Prop where
  | refl : Copied b b
  | copy {b₁ : Bench} {o : ObjectId} {S : List Value} {chars : Array Char} (h : Copied b b₁)
      (hs : b₁.stack = .ref o :: S) (ho : b₁.world.heap.object o = .string chars) :
      Copied b ⟨{ b₁.world with heap := (b₁.world.heap.allocate (.string chars)).2 }, b₁.locals,
        .ref (b₁.world.heap.allocate (.string chars)).1 :: S⟩

/-- A string lies on top of the stack. -/
def Bench.OnString (b : Bench) : Prop :=
  ∃ o S chars, b.stack = .ref o :: S ∧ b.world.heap.object o = .string chars

theorem Bench.Copied.onString {b b₁ : Bench} (h : b.Copied b₁) (hb : b.OnString) : b₁.OnString := by
  cases h with
  | refl => exact hb
  | @copy b₁ o S chars _ _ _ =>
    exact ⟨_, _, chars, rfl, (Heap.object_allocate _ _ _).trans (if_pos rfl)⟩

theorem Bench.Copied.length {b b₁ : Bench} (h : b.Copied b₁) :
    b₁.stack.length = b.stack.length := by
  induction h with
  | refl => rfl
  | copy _ hs _ ih =>
    rw [← ih, hs]
    rfl

/-- The state after the string on top of the current stack was copied, any number of times. -/
def RunState.Copied (s t : RunState) : Prop :=
  ∃ b, s.bench.Copied b ∧
    t = ⟨b.world, ⟨s.current.routine, s.current.pc, b.locals, b.stack⟩, s.callers⟩

theorem RunState.Copied.refl (s : RunState) : s.Copied s := ⟨s.bench, .refl, rfl⟩

namespace Woven

variable {v : Woven} {known : Nat → Prop} {b b' : Bench} {k : Nat}

/-- A copy that both make. -/
theorem Mirrors.copy (hm : v.Mirrors known [] b b') {o : ObjectId} {S : List Value}
    {chars : Array Char} (hs : b.stack = .ref o :: S) {b'' : Bench}
    (hb : Work.Left { b'.world with heap := (b'.world.heap.allocate (.string chars)).2 } b'.locals
      [.ref (b'.world.heap.allocate (.string chars)).1] S b'') :
    v.Mirrors known []
      ⟨{ b.world with heap := (b.world.heap.allocate (.string chars)).2 }, b.locals,
      .ref (b.world.heap.allocate (.string chars)).1 :: S⟩ b'' := by
  have hwithin : (b.world.heap.allocate (.string chars)).2.Within known :=
    hm.world.within.allocate (by simp [HeapObject.Within, HeapObject.contents])
  have hstack := hm.within
  rw [hs] at hstack
  rw [hm.world.heap] at hb
  exact ⟨(hm.world.withHeap hwithin).follows hb.world, hb.locals ▸ hm.locals, hb.stack,
    List.forall_mem_cons.mpr ⟨Value.within_ref _, (List.forall_mem_cons.mp hstack).2⟩⟩

/-- **The code behind a string literal** copies the string that lies on top of the stack. -/
theorem through_behind (hm : v.Mirrors known [] b b') (hb : b.OnString) :
    Work.Through (fun _ _ => False) (v.plan.behind k)
      (fun b'' => ∃ b₁, b.Copied b₁ ∧ v.Mirrors known [] b₁ b'') b' := by
  refine Work.through_flatMap (P := fun b'' => ∃ b₁, b.Copied b₁ ∧ v.Mirrors known [] b₁ b'')
    (fun e he b'' hb'' => ?_) ⟨b, .refl, hm⟩
  obtain ⟨j, code⟩ := e
  obtain ⟨b₁, hcopied, hm⟩ := hb''
  simp only
  split
  · rename_i hj
    have hpiece := v.planned.after _ he
    simp only at hpiece
    cases hpiece with
    | member hl _ _ _ hcode =>
      exact (quiet_stash (Plan.loading_of_loadPoint hcode) hl b₁ b'' hm).mono
        (fun b₂ hm => ⟨b₁, hcopied, hm⟩) fun _ _ he => he
    | literal _ _ =>
      obtain ⟨o, S, chars, hs, ho⟩ := hcopied.onString hb
      obtain ⟨w, L, T⟩ := b''
      obtain rfl : T = .ref o :: S := hm.stack.trans hs
      refine through_hook fun inUse => ?_
      have ho' : w.heap.object o = .string chars := by
        rw [show w.heap = b₁.world.heap from hm.world.heap]
        exact ho
      exact (Work.wp_constantString _ _ ho').mono
        (fun _ b₂ hleft => ⟨_, hcopied.copy hs ho, hm.copy hs hleft⟩) fun _ _ he => he
  · exact ⟨b₁, hcopied, hm⟩

end Woven

/-! ## 2. Comparisons -/

/-- A comparison of references: whether it jumps on equal ones, and where. -/
def Insn.comparison? : Insn → Option (Bool × Nat)
  | .ifRefEq l => some (true, l)
  | .ifRefNe l => some (false, l)
  | _ => none

theorem Insn.eq_of_comparison {i : Insn} {equal : Bool} {l : Nat}
    (h : i.comparison? = some (equal, l)) : i = if equal then .ifRefEq l else .ifRefNe l := by
  cases i <;> simp [comparison?] at h <;> obtain ⟨rfl, rfl⟩ := h <;> rfl

namespace Work

/-- Compares two references in the sense of strings, and jumps if the answer is the given one. -/
def jumpIfAlike (underflow : RunError) (equal : Bool) (label : Nat) : Work Transfer := do
  let b ← pop underflow
  let a ← pop underflow
  return jumpIf ((← fromHeap fun h => h.stringEquals a b) == equal) label

/-- Does one instruction, but a comparison, if so told, in the sense of strings. -/
def performAs (byText : Bool) (method : String) (underflow : RunError) (inUse : Thunk (List Value))
    (i : Insn) : Work Transfer :=
  match byText, i.comparison? with
  | true, some (equal, label) => jumpIfAlike underflow equal label
  | _, _ => perform method underflow inUse i

@[simp] theorem performAs_false (method : String) (u : RunError)
    (inUse : Thunk (List Value)) (i : Insn) :
    performAs false method u inUse i = perform method u inUse i := rfl

theorem performAs_true {i : Insn} {equal : Bool} {l : Nat} (h : i.comparison? = some (equal, l))
    (method : String) (u : RunError) (inUse : Thunk (List Value)) :
    performAs true method u inUse i = jumpIfAlike u equal l := by
  simp [performAs, h]

theorem jumpIfAlike_outcome (u : RunError) (equal : Bool) (l : Nat) (w : World) (L : Array Value)
    (x y : Value) (S : List Value) : (jumpIfAlike u equal l).outcome ⟨w, L, y :: x :: S⟩ =
      (match w.heap.stringEquals x y with
      | .ok same => (.ok (jumpIf (same == equal) l), ⟨w, L, S⟩)
      | .error e => (.error e, ⟨w, L, S⟩)) := by
  have hpop (y : Value) (S : List Value) :
      (pop u).outcome ⟨w, L, y :: S⟩ = (.ok y, ⟨w, L, S⟩) := rfl
  have hequals : (fromHeap fun h => h.stringEquals x y).outcome ⟨w, L, S⟩ =
      (w.heap.stringEquals x y, ⟨w, L, S⟩) := rfl
  unfold jumpIfAlike
  simp only [Action.outcome_bind, hpop, hequals]
  cases w.heap.stringEquals x y <;> rfl

end Work

/-- The outcome of an instruction in a state. -/
def RunState.outcome (byText : Bool) (s : RunState) (i : Insn) : Except RunError Transfer × Bench :=
  (Work.performAs byText s.current.routine.key s.current.underflow
    (RunState.inUse s.current s.callers) i).outcome s.bench

/-- Goes on as the outcome of an instruction says. -/
def Program.proceed (p : Program) (limits : MachineSettings) (s : RunState) :
    Except RunError Transfer × Bench → Progress
  | (.error e, b) => .ended ⟨.error e, b.world⟩
  | (.ok t, b) =>
    p.transfer limits b.world { s.current with locals := b.locals, stack := b.stack } s.callers t

/-- A step goes on as its instruction says. -/
theorem Program.step_eq (p : Program) (limits : MachineSettings) (s : RunState) (i : Insn) :
    p.step limits s i = p.proceed limits s (s.outcome false i) := by
  obtain ⟨w, a, callers⟩ := s
  unfold step RunState.outcome RunState.bench
  simp only [Work.performAs_false]
  rcases Action.outcome _ _ with ⟨r, b⟩
  cases r <;> rfl

/-- The branches that an outcome adds. -/
def Insn.branchesOf (i : Insn) (r : Except RunError Transfer × Bench) : List Branch :=
  match r.1 with
  | .ok t => i.branches t
  | .error _ => []

theorem Insn.branchesOf_eq_nil {i : Insn} (h : i.jumpTarget? = none)
    (r : Except RunError Transfer × Bench) : i.branchesOf r = [] := by
  unfold branchesOf
  split
  · exact branches_eq_nil h _
  · rfl

end Provenance
