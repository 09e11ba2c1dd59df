/-
# What the limits do to a run

One budget counts the instructions of a run, whatever activation they belong to, and a call looks at
how many activations wait.  `Program.Executes` says which instructions a run executes under a
budget, one after the other, and what it comes to; it stays within its limits (`Executes.length_le`,
`Executes.nesting`).

A limit does nothing but end a run.  So a step comes to the same under a higher limit, unless it is
the one that is too deep (`step_deeper`), and so does a run that is neither too deep nor too long
(`run_longer`).
-/
import Provenance.Proofs.Simulation

namespace Provenance

/-- The instruction that is done next is a call, and has its operands. -/
def RunState.Calls (s : RunState) : Prop :=
  ∃ m, s.insn? = some (.invoke m) ∧ m.operandCount ≤ s.current.stack.length

namespace Program

variable {p : Program} {limits limits' : MachineSettings} {w : World} {callers : List Waiting}
  {owner name descriptor : String} {args : List Value} {s t : RunState} {i : Insn} {budget : Nat}
  {executed : List RunState} {r : RunResult}

/-! ## 1. Executed instructions -/

/-- What a run comes to under a budget, and the states in which it executes its instructions. -/
inductive Executes (p : Program) (limits : MachineSettings) :
    Nat → RunState → List RunState → RunResult → Prop where
  | fell {budget : Nat} {s : RunState} (hi : s.insn? = none) :
      Executes p limits budget s [] ⟨.error (.fellOffEnd s.current.routine.key), s.world⟩
  | cut {s : RunState} {i : Insn} (hi : s.insn? = some i) :
      Executes p limits 0 s [] ⟨.error (.instructionLimit limits.maxInstructions), s.world⟩
  | ended {budget : Nat} {s : RunState} {i : Insn} {r : RunResult} (hi : s.insn? = some i)
      (hr : p.step limits s i = .ended r) : Executes p limits (budget + 1) s [s] r
  | step {budget : Nat} {s t : RunState} {i : Insn} {executed : List RunState} {r : RunResult}
      (hi : s.insn? = some i) (ht : p.step limits s i = .running t)
      (hnext : Executes p limits budget t executed r) :
      Executes p limits (budget + 1) s (s :: executed) r

/-- The same of an invocation, which may end before any instruction. -/
inductive Invokes (p : Program) (limits : MachineSettings) (w : World)
    (owner name descriptor : String) (args : List Value) : List RunState → RunResult → Prop where
  | ended {r : RunResult} (hr : p.enter limits w [] owner name descriptor args = .ended r) :
      Invokes p limits w owner name descriptor args [] r
  | running {s : RunState} {executed : List RunState} {r : RunResult}
      (hs : p.enter limits w [] owner name descriptor args = .running s)
      (hrun : p.Executes limits limits.maxInstructions s executed r) :
      Invokes p limits w owner name descriptor args executed r

theorem run_of_cut (hi : s.insn? = some i) : p.run limits 0 s =
    ⟨.error (.instructionLimit limits.maxInstructions), s.world⟩ := by
  unfold RunState.insn? at hi
  unfold run
  simp only [hi]

theorem exists_executes (p : Program) (limits : MachineSettings) : ∀ (budget : Nat) (s : RunState),
    ∃ executed, p.Executes limits budget s executed (p.run limits budget s) := by
  intro budget
  induction budget with
  | zero =>
    intro s
    cases hi : s.insn? with
    | none =>
      rw [run_of_end hi]
      exact ⟨[], .fell hi⟩
    | some i =>
      rw [run_of_cut hi]
      exact ⟨[], .cut hi⟩
  | succ budget ih =>
    intro s
    cases hi : s.insn? with
    | none =>
      rw [run_of_end hi]
      exact ⟨[], .fell hi⟩
    | some i =>
      cases ht : p.step limits s i with
      | running t =>
        obtain ⟨executed, hnext⟩ := ih t
        rw [run_of_running hi ht]
        exact ⟨s :: executed, .step hi ht hnext⟩
      | ended r =>
        rw [run_of_ended hi ht]
        exact ⟨[s], .ended hi ht⟩

/-- An invocation comes to something after finitely many instructions. -/
theorem exists_invokes (p : Program) (limits : MachineSettings) (w : World)
    (owner name descriptor : String) (args : List Value) :
    ∃ executed, p.Invokes limits w owner name descriptor args executed
      (p.invoke limits w owner name descriptor args) := by
  unfold invoke
  split
  · rename_i s hs
    obtain ⟨executed, hrun⟩ := p.exists_executes limits limits.maxInstructions s
    exact ⟨executed, .running hs hrun⟩
  · rename_i r hr
    exact ⟨[], .ended hr⟩

/-! ## 2. Within the limits -/

theorem Executes.length_le (h : p.Executes limits budget s executed r) :
    executed.length ≤ budget := by
  induction h with
  | fell _ => exact Nat.zero_le _
  | cut _ => exact Nat.zero_le _
  | ended _ _ => exact Nat.succ_le_succ (Nat.zero_le _)
  | step _ _ _ ih => exact Nat.succ_le_succ ih

theorem deliver_nesting {n : Nat} {v : Option Value} (hc : callers.length ≤ n)
    (hs : deliver w v callers = .running s) : s.callers.length < n := by
  obtain ⟨x, rest, rfl, rfl⟩ := deliver_running hs
  exact hc

/-- **A call** leaves fewer activations waiting than may be nested. -/
theorem enter_nesting (hs : p.enter limits w callers owner name descriptor args = .running s) :
    s.callers.length < limits.maxCallDepth := by
  have hc : callers.length < limits.maxCallDepth := by
    unfold enter at hs
    split at hs
    · cases hs
    · omega
  rcases enter_running hs with ⟨r, -, -, rfl⟩ | ⟨n, record, v, w', -, -, hs⟩
  · exact hc
  · exact Nat.lt_trans (deliver_nesting (Nat.le_refl _) hs) hc

/-- **A step** leaves fewer activations waiting than may be nested. -/
theorem step_nesting (h : s.callers.length < limits.maxCallDepth)
    (ht : p.step limits s i = .running t) : t.callers.length < limits.maxCallDepth := by
  obtain ⟨w, a, callers⟩ := s
  unfold step at ht
  simp only at h ht
  split at ht
  · cases ht
  · unfold transfer at ht
    split at ht
    · obtain rfl := Progress.running.inj ht
      exact h
    · split at ht
      · obtain rfl := Progress.running.inj ht
        exact h
      · cases ht
    · exact enter_nesting ht
    · exact deliver_nesting (Nat.le_of_lt h) ht

/-- A call that would be nested too deep ends the run, and the world stays as it is. -/
theorem step_too_deep (hs : s.Calls) (hi : s.insn? = some i)
    (hdeep : limits.maxCallDepth ≤ s.callers.length + 1) :
    p.step limits s i = .ended ⟨.error (.callDepthExceeded limits.maxCallDepth), s.world⟩ := by
  obtain ⟨m, hm, hcount⟩ := hs
  obtain rfl : i = .invoke m := Option.some.inj (hi.symm.trans hm)
  obtain ⟨w, a, callers⟩ := s
  have hpop : (Work.popMany a.underflow m.operandCount).outcome ⟨w, a.locals, a.stack⟩ =
      (.ok (a.stack.take m.operandCount).reverse, ⟨w, a.locals, a.stack.drop m.operandCount⟩) :=
    if_neg (Nat.not_lt.mpr hcount)
  have hout :
      (Work.perform a.routine.key a.underflow (RunState.inUse a callers) (.invoke m)).outcome
      ⟨w, a.locals, a.stack⟩ = (.ok (.call m (a.stack.take m.operandCount).reverse),
        ⟨w, a.locals, a.stack.drop m.operandCount⟩) := by
    unfold Work.perform
    rw [Action.outcome_bind, hpop]
    rfl
  rw [step_of_ok hout]
  unfold transfer enter
  exact if_pos hdeep

/-- **Nesting**: fewer activations wait at an instruction than may be nested, and a call from as
deep as that is the end. -/
theorem Executes.nesting (h : p.Executes limits budget s executed r)
    (hs : s.callers.length < limits.maxCallDepth) : ∀ t ∈ executed,
    t.callers.length < limits.maxCallDepth ∧
      (t.Calls → limits.maxCallDepth ≤ t.callers.length + 1 →
        r = ⟨.error (.callDepthExceeded limits.maxCallDepth), t.world⟩) := by
  induction h with
  | fell _ => simp
  | cut _ => simp
  | @ended budget s i r hi hr =>
    refine List.forall_mem_singleton.mpr ⟨hs, fun hcalls hdeep => ?_⟩
    rw [step_too_deep hcalls hi hdeep] at hr
    exact (Progress.ended.inj hr).symm
  | @step budget s t i executed r hi ht _ ih =>
    refine List.forall_mem_cons.mpr ⟨⟨hs, fun hcalls hdeep => ?_⟩, ih (step_nesting hs ht)⟩
    rw [step_too_deep hcalls hi hdeep] at ht
    cases ht

/-! ## 3. Under higher limits -/

theorem enter_deeper (p : Program) (hdepth : limits.maxCallDepth ≤ limits'.maxCallDepth) (w : World)
    (callers : List Waiting) (owner name descriptor : String) (args : List Value) :
    p.enter limits w callers owner name descriptor args =
        .ended ⟨.error (.callDepthExceeded limits.maxCallDepth), w⟩ ∨
      p.enter limits' w callers owner name descriptor args =
        p.enter limits w callers owner name descriptor args := by
  unfold enter
  by_cases hdeep : limits.maxCallDepth ≤ callers.length
  · exact .inl (if_pos hdeep)
  · have hdeep' : ¬limits'.maxCallDepth ≤ callers.length := by omega
    exact .inr (by rw [if_neg hdeep, if_neg hdeep'])

/-- **A step** looks at the limits only in a call, to end a run that is too deep. -/
theorem step_deeper (hdepth : limits.maxCallDepth ≤ limits'.maxCallDepth)
    (s : RunState) (i : Insn) :
    (∃ w, p.step limits s i = .ended ⟨.error (.callDepthExceeded limits.maxCallDepth), w⟩) ∨
      p.step limits' s i = p.step limits s i := by
  obtain ⟨w, a, callers⟩ := s
  unfold step
  simp only
  split
  · exact .inr rfl
  · rename_i t b _
    cases t with
    | call m args =>
      unfold transfer
      rcases p.enter_deeper hdepth b.world (_ :: callers) m.owner m.name m.desc.descriptor args with
        hdeep | hsame
      · exact .inl ⟨_, hdeep⟩
      · exact .inr hsame
    | next | jump | ret => exact .inr rfl

/-- **A run** that is neither too deep nor too long comes to the same under higher limits. -/
theorem run_longer (hdepth : limits.maxCallDepth ≤ limits'.maxCallDepth) : ∀ {budget budget' : Nat}
    {s : RunState}, budget ≤ budget' → ¬(p.run limits budget s).Exceeded →
    p.run limits' budget' s = p.run limits budget s := by
  intro budget
  induction budget with
  | zero =>
    intro budget' s _ h
    cases hi : s.insn? with
    | none => rw [run_of_end hi, run_of_end hi]
    | some i => exact absurd ⟨_, run_out hi, rfl⟩ h
  | succ budget ih =>
    intro budget' s hle h
    obtain ⟨budget', rfl⟩ : ∃ n, budget' = n + 1 := ⟨budget' - 1, by omega⟩
    cases hi : s.insn? with
    | none => rw [run_of_end hi, run_of_end hi]
    | some i =>
      rcases step_deeper (p := p) hdepth s i with ⟨w, hdeep⟩ | hsame
      · rw [run_of_ended hi hdeep] at h
        exact absurd ⟨_, rfl, rfl⟩ h
      · cases ht : p.step limits s i with
        | running t =>
          rw [run_of_running hi ht] at h ⊢
          rw [run_of_running hi (hsame.trans ht)]
          exact ih (Nat.le_of_succ_le_succ hle) h
        | ended r => rw [run_of_ended hi ht, run_of_ended hi (hsame.trans ht)]

end Program

/-! ## 4. Invocations -/

/-- **Limits only cut runs short.**  An invocation comes to something after at most as many
instructions as are allowed, none of which is nested deeper than is allowed, nor calls from as deep
as that; and if it is cut short by neither limit, it comes to the same in the same world under all
limits that are as high. -/
theorem invoke_limited (p : Program) (limits : MachineSettings) (w : World)
    (owner name descriptor : String) (args : List Value) :
    (∃ executed, p.Invokes limits w owner name descriptor args executed
        (p.invoke limits w owner name descriptor args) ∧
      executed.length ≤ limits.maxInstructions ∧
      ∀ s ∈ executed, s.callers.length < limits.maxCallDepth ∧
        (s.Calls → limits.maxCallDepth ≤ s.callers.length + 1 →
          p.invoke limits w owner name descriptor args =
            ⟨.error (.callDepthExceeded limits.maxCallDepth), s.world⟩)) ∧
    ∀ limits' : MachineSettings, limits.maxCallDepth ≤ limits'.maxCallDepth →
      limits.maxInstructions ≤ limits'.maxInstructions →
      ¬(p.invoke limits w owner name descriptor args).Exceeded →
      p.invoke limits' w owner name descriptor args =
        p.invoke limits w owner name descriptor args := by
  constructor
  · obtain ⟨executed, h⟩ := p.exists_invokes limits w owner name descriptor args
    refine ⟨executed, h, ?_⟩
    cases h with
    | ended _ => exact ⟨Nat.zero_le _, by simp⟩
    | running hs hrun => exact ⟨hrun.length_le, hrun.nesting (Program.enter_nesting hs)⟩
  · intro limits' hdepth hinstructions h
    unfold Program.invoke at h ⊢
    rcases p.enter_deeper hdepth w [] owner name descriptor args with hdeep | hsame
    · rw [hdeep] at h
      exact absurd ⟨_, rfl, rfl⟩ h
    · rw [hsame]
      cases hs : p.enter limits w [] owner name descriptor args with
      | ended r => rfl
      | running s =>
        rw [hs] at h
        exact Program.run_longer hdepth hinstructions h

/-- A method that calls itself until its argument is zero. -/
def countdown : Method :=
  ⟨"demo/Count", "down", ⟨[.int], .int⟩, true, 2, 1,
    [.load 0, .ifZero .eq 0, .load 0, .const (.int 1), .binary .sub .int,
      .invoke ⟨.static, "demo/Count", "down", ⟨[.int], .int⟩⟩, .ret .int, .label 0, .const (.int 7),
      .ret .int]⟩

/-- Three calls of seven instructions or five fit into the limits, and in higher ones. -/
theorem countdown_limited :
    let p := Program.empty.load ⟨"demo/Count", [countdown]⟩
    let w := World.empty .default
    (p.invoke ⟨2, 19⟩ w "demo/Count" "down" "(I)I" [.int 2]).Exceeded ∧
    (p.invoke ⟨3, 18⟩ w "demo/Count" "down" "(I)I" [.int 2]).Exceeded ∧
    (p.invoke ⟨3, 19⟩ w "demo/Count" "down" "(I)I" [.int 2]).outcome = .ok (some (.int 7)) ∧
    p.invoke ⟨5, 40⟩ w "demo/Count" "down" "(I)I" [.int 2] =
      p.invoke ⟨3, 19⟩ w "demo/Count" "down" "(I)I" [.int 2] := by
  intro p w
  have houtcome : (p.invoke ⟨3, 19⟩ w "demo/Count" "down" "(I)I" [.int 2]).outcome =
      .ok (some (.int 7)) := by decide +kernel
  refine ⟨⟨.callDepthExceeded 2, by decide +kernel, rfl⟩,
    ⟨.instructionLimit 18, by decide +kernel, rfl⟩, houtcome, ?_⟩
  refine (invoke_limited p ⟨3, 19⟩ w "demo/Count" "down" "(I)I" [.int 2]).2 ⟨5, 40⟩ (by decide)
    (by decide) ?_
  rintro ⟨e, he, -⟩
  rw [houtcome] at he
  cases he

end Provenance
