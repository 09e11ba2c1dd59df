/-
# Runs that get somewhere

`Chronicle.Eventually` says that within finitely many steps a run comes to a state and a history of
some kind, or ends in some way; `Chronicle.Soon` says so of a run that does not stand there yet.
`Chronicle.Eventually.run` is what that means under a budget of instructions, and
`Chronicle.Eventually.through` how code that leads straight on gets a run somewhere.

One history says how a run goes through its methods: that of its branches (`branches`).
-/
import Provenance.Proofs.Chronicle

namespace Provenance

/-! ## 1. Branches -/

/-- An instruction that names a label was done: whether the run went there. -/
structure Branch where
  label : Nat
  taken : Bool
  deriving DecidableEq, Repr

/-- What an instruction adds to the branches of a run, by where it goes on. -/
def Insn.branches (i : Insn) (t : Transfer) : List Branch :=
  match i.jumpTarget?, t with
  | none, _ => []
  | some l, .jump _ => [⟨l, true⟩]
  | some l, _ => [⟨l, false⟩]

theorem Insn.branches_eq_nil {i : Insn} (h : i.jumpTarget? = none) (t : Transfer) :
    i.branches t = [] := by
  unfold branches
  rw [h]

theorem Insn.branches_congr {i i' : Insn} (h : i'.jumpTarget? = i.jumpTarget?) (t : Transfer) :
    i'.branches t = i.branches t := by
  unfold branches
  rw [h]

/-- The branches of a run, the latest first. -/
def branches : Chronicle (List Branch) where
  start := []
  after i b h :=
    match (Work.perform "" Work.hookUnderflow (.pure []) i).outcome b with
    | (.ok t, _) => i.branches t ++ h
    | (.error _, _) => h

open Provenance.Action (Wp)

/-- Where a jump goes on depends on nothing but its operands. -/
theorem Work.perform_branch {method method' : String} {u u' : RunError}
    {inUse inUse' : Thunk (List Value)} {i : Insn} {l : Nat}
    (hl : i.jumpTarget? = some l) (b : Bench) :
    Wp (perform method u inUse i)
      (fun t _ => Wp (perform method' u' inUse' i) (fun t' _ => t' = t) (fun _ _ => False) b)
      (fun _ _ => True) b := by
  obtain ⟨w, L, S⟩ := b
  cases i with
  | goto l => exact rfl
  | ifZero cond l | ifNull l | ifNonNull l =>
    simp only [perform, popInt, Action.wp_bind, wp_pop, wp_fromHeap, Action.wp_pure]
    cases S with
    | nil => trivial
    | cons x S =>
      simp only
      split <;> trivial
  | ifCmp cond l =>
    simp only [perform, popInt, Action.wp_bind, wp_pop, wp_fromHeap, Action.wp_pure]
    rcases S with _ | ⟨x, _ | ⟨y, S⟩⟩
    · trivial
    · simp only
      split <;> trivial
    · simp only
      cases w.heap.int x with
      | error e => trivial
      | ok n => simp only; split <;> trivial
  | ifRefEq l | ifRefNe l =>
    simp only [perform, Action.wp_bind, wp_pop, wp_fromHeap, Action.wp_pure]
    rcases S with _ | ⟨x, _ | ⟨y, S⟩⟩
    · trivial
    · trivial
    · simp only
      split <;> trivial
  | _ => simp [Insn.jumpTarget?] at hl

/-- An instruction adds a branch by where it goes on. -/
theorem branches_after {method : String} {u : RunError} {inUse : Thunk (List Value)} {i : Insn}
    {b b' : Bench} {t : Transfer} (h : List Branch)
    (ht : (Work.perform method u inUse i).outcome b = (.ok t, b')) :
    branches.after i b h = i.branches t ++ h := by
  unfold branches
  simp only
  cases hl : i.jumpTarget? with
  | none =>
    rw [Insn.branches_eq_nil hl]
    split
    · rw [Insn.branches_eq_nil hl]
    · rfl
  | some l =>
    have hsame := (@Work.perform_branch _ "" _ Work.hookUnderflow _ (.pure []) i l hl b).of_ok ht
    unfold Wp at hsame
    split at hsame
    · rename_i t' b'' hout
      rw [hout, hsame]
    · exact hsame.elim

/-- What does not jump adds no branch. -/
theorem branches_after_straight {i : Insn} (h : i.jumpTarget? = none) (b : Bench)
    (hist : List Branch) : branches.after i b hist = hist := by
  unfold branches
  simp only
  split
  · rw [Insn.branches_eq_nil h]
    rfl
  · rfl

/-! ## 2. Getting somewhere -/

namespace Chronicle

variable {H : Type} {C : Chronicle H} {p : Program} {limits : MachineSettings}
  {Goal Goal' : RunState → H → Prop} {Done Done' : RunResult → H → Prop} {s : RunState} {h : H}

/-- A run that, within finitely many steps, comes to a state and a history as described by `Goal` or
ends as described by `Done`. -/
inductive Eventually (C : Chronicle H) (p : Program) (limits : MachineSettings)
    (Goal : RunState → H → Prop) (Done : RunResult → H → Prop) : RunState → H → Prop where
  | here {s : RunState} {h : H} (hgoal : Goal s h) : Eventually C p limits Goal Done s h
  | step {s t : RunState} {h : H} {i : Insn} (hi : s.insn? = some i)
      (ht : p.step limits s i = .running t)
      (hnext : Eventually C p limits Goal Done t (C.after i s.bench h)) :
      Eventually C p limits Goal Done s h
  | ended {s : RunState} {h : H} {i : Insn} {r : RunResult} (hi : s.insn? = some i)
      (hr : p.step limits s i = .ended r) (hdone : Done r h) : Eventually C p limits Goal Done s h
  | fell {s : RunState} {h : H} (hi : s.insn? = none)
      (hdone : Done ⟨.error (.fellOffEnd s.current.routine.key), s.world⟩ h) :
      Eventually C p limits Goal Done s h

/-- The same of a run that does at least one more step for that. -/
inductive Soon (C : Chronicle H) (p : Program) (limits : MachineSettings)
    (Goal : RunState → H → Prop) (Done : RunResult → H → Prop) (s : RunState) (h : H) : Prop where
  | step {t : RunState} {i : Insn} (hi : s.insn? = some i) (ht : p.step limits s i = .running t)
      (hnext : C.Eventually p limits Goal Done t (C.after i s.bench h)) :
        Soon C p limits Goal Done s h
  | ended {i : Insn} {r : RunResult} (hi : s.insn? = some i) (hr : p.step limits s i = .ended r)
      (hdone : Done r h) : Soon C p limits Goal Done s h
  | fell (hi : s.insn? = none)
      (hdone : Done ⟨.error (.fellOffEnd s.current.routine.key), s.world⟩ h) :
      Soon C p limits Goal Done s h

theorem Soon.eventually (h' : C.Soon p limits Goal Done s h) :
    C.Eventually p limits Goal Done s h := by
  cases h' with
  | step hi ht hnext => exact .step hi ht hnext
  | ended hi hr hdone => exact .ended hi hr hdone
  | fell hi hdone => exact .fell hi hdone

/-- Steps that lead to steps. -/
theorem Eventually.trans (h' : C.Eventually p limits Goal Done s h)
    (hgoal : ∀ s h, Goal s h → C.Eventually p limits Goal' Done' s h)
    (hdone : ∀ r h, Done r h → Done' r h) : C.Eventually p limits Goal' Done' s h := by
  induction h' with
  | here h => exact hgoal _ _ h
  | step hi ht _ ih => exact .step hi ht ih
  | ended hi hr h => exact .ended hi hr (hdone _ _ h)
  | fell hi h => exact .fell hi (hdone _ _ h)

/-- Steps that lead to at least one step. -/
theorem Eventually.soon (h' : C.Eventually p limits Goal Done s h)
    (hgoal : ∀ s h, Goal s h → C.Soon p limits Goal' Done' s h)
    (hdone : ∀ r h, Done r h → Done' r h) : C.Soon p limits Goal' Done' s h := by
  cases h' with
  | here h => exact hgoal _ _ h
  | step hi ht hnext =>
    exact .step hi ht (hnext.trans (fun s h hg => (hgoal s h hg).eventually) hdone)
  | ended hi hr h => exact .ended hi hr (hdone _ _ h)
  | fell hi h => exact .fell hi (hdone _ _ h)

theorem Soon.mono (h' : C.Soon p limits Goal Done s h) (hgoal : ∀ s h, Goal s h → Goal' s h)
    (hdone : ∀ r h, Done r h → Done' r h) : C.Soon p limits Goal' Done' s h := by
  cases h' with
  | step hi ht hnext => exact .step hi ht (hnext.trans (fun s h hg => .here (hgoal s h hg)) hdone)
  | ended hi hr h => exact .ended hi hr (hdone _ _ h)
  | fell hi h => exact .fell hi (hdone _ _ h)

end Chronicle

/-! ## 3. Runs under a budget -/

namespace Program

variable {p : Program} {limits : MachineSettings} {s : RunState}

theorem run_out {i : Insn} (hi : s.insn? = some i) :
    (p.run limits 0 s).outcome = .error (.instructionLimit limits.maxInstructions) := by
  unfold RunState.insn? at hi
  unfold run
  simp only [hi]

theorem run_of_running {t : RunState} {i : Insn} (hi : s.insn? = some i)
    (ht : p.step limits s i = .running t) (budget : Nat) :
    p.run limits (budget + 1) s = p.run limits budget t := by
  unfold RunState.insn? at hi
  rw [run]
  simp only [hi, ht]

theorem run_of_ended {r : RunResult} {i : Insn} (hi : s.insn? = some i)
    (hr : p.step limits s i = .ended r) (budget : Nat) : p.run limits (budget + 1) s = r := by
  unfold RunState.insn? at hi
  rw [run]
  simp only [hi, hr]

theorem run_of_end (hi : s.insn? = none) (budget : Nat) :
    p.run limits budget s = ⟨.error (.fellOffEnd s.current.routine.key), s.world⟩ := by
  unfold RunState.insn? at hi
  unfold run
  simp only [hi]

end Program

namespace Chronicle

variable {H : Type} {C : Chronicle H} {p : Program} {limits : MachineSettings}
  {Goal : RunState → H → Prop} {Done : RunResult → H → Prop} {s : RunState} {h : H}

/-- **Under a budget**, a run that eventually gets somewhere gets there, unless the budget is used
up before. -/
theorem Eventually.run (h' : C.Eventually p limits Goal Done s h) : ∀ budget,
    (p.run limits budget s).outcome = .error (.instructionLimit limits.maxInstructions) ∨
      (∃ t h left, Goal t h ∧ p.run limits budget s = p.run limits left t) ∨
      ∃ h, Done (p.run limits budget s) h := by
  induction h' with
  | @here s h hgoal => exact fun budget => Or.inr (Or.inl ⟨s, h, budget, hgoal, rfl⟩)
  | @step s t h i hi ht _ ih =>
    intro budget
    cases budget with
    | zero => exact Or.inl (Program.run_out hi)
    | succ budget =>
      rw [Program.run_of_running hi ht]
      exact ih budget
  | @ended s h i r hi hr hdone =>
    intro budget
    cases budget with
    | zero => exact Or.inl (Program.run_out hi)
    | succ budget =>
      rw [Program.run_of_ended hi hr]
      exact Or.inr (Or.inr ⟨h, hdone⟩)
  | @fell s h hi hdone =>
    intro budget
    rw [Program.run_of_end hi]
    exact Or.inr (Or.inr ⟨h, hdone⟩)

/-- **Code in a loaded method** that leads straight on is gone through, and adds nothing to the
history. -/
theorem Eventually.through {m : Method} {E : RunError → Bench → Prop} {Q : Bench → Prop}
    {rest : List Insn} {callers : List Waiting} : ∀ {code : List Insn} {pc : Nat} {b : Bench},
    m.insns.drop pc = code ++ rest → (∀ i ∈ code, ∀ b, C.after i b h = h) →
    Work.Through E code Q b →
    (∀ b, Q b → m.insns.drop (pc + code.length) = rest → C.Eventually p limits Goal Done
      ⟨b.world, ⟨.ofMethod m, pc + code.length, b.locals, b.stack⟩, callers⟩ h) →
    (∀ e b, E e b → Done ⟨.error e, b.world⟩ h) →
    C.Eventually p limits Goal Done ⟨b.world, ⟨.ofMethod m, pc, b.locals, b.stack⟩, callers⟩ h
  | [], pc, b, hdrop, _, h, hgoal, _ => hgoal b h hdrop
  | i :: code, pc, b, hdrop, hsilent, hthrough, hgoal, hfail => by
    obtain ⟨hi, hnext⟩ := getElem?_of_drop hdrop
    obtain ⟨hsilent, hsilents⟩ := List.forall_mem_cons.mp hsilent
    have hi' : (Routine.ofMethod m).insns[pc]? = some i := (Routine.insns_getElem? m pc).trans hi
    have hwp := hthrough (Routine.ofMethod m).key pc
      (RunState.inUse ⟨.ofMethod m, pc, b.locals, b.stack⟩ callers)
    unfold Action.Wp at hwp
    split at hwp
    · rename_i t b₁ hout
      obtain ⟨rfl, hthrough⟩ := hwp
      have hlen : pc + (i :: code).length = pc + 1 + code.length := by
        simp only [List.length_cons]
        omega
      rw [hlen] at hgoal
      refine .step hi' (Program.step_of_ok (a := ⟨.ofMethod m, pc, b.locals, b.stack⟩) hout) ?_
      rw [hsilent]
      exact Eventually.through hnext hsilents hthrough hgoal hfail
    · rename_i e b₁ hout
      exact .ended hi' (Program.step_of_error (a := ⟨.ofMethod m, pc, b.locals, b.stack⟩) hout)
        (hfail e b₁ hwp)

end Chronicle

end Provenance
