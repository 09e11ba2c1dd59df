/-
# Two runs of the same program

Two runs of classes that were woven, from worlds that differ in what the store knows only, go the
same way instruction by instruction: they call the same methods with the same arguments, come to the
same result or fail in the same words, and leave the same heap (`run_in_step`).  That is so under
any budget, since no step is made in one that is not made in the other.
-/
import Provenance.Proofs.Preservation
import Provenance.Proofs.Turning

namespace Provenance

variable {known : Nat → Prop} {p : Program} {limits : MachineSettings} {w w' : World}
  {callers callers' : List Waiting}

/-! ## 1. Programs, states and results -/

/-- A method without hooks, or one that was woven. -/
def Routine.Fair (r : Routine) : Prop :=
  (∃ m, (∀ hk, .hook hk ∉ m.insns) ∧ r = .ofMethod m) ∨ ∃ v : Woven, r = .ofMethod v.result

/-- A program of such methods with the built-in natives. -/
structure Program.Fair (p : Program) : Prop where
  routines : ∀ owner name descriptor r, p.routine? owner name descriptor = some r → r.Fair
  natives : p.natives = Native.builtIn

/-- Two activations of one method that stand at the same place.  In a woven one the kinds of what it
keeps on the stack are settled by the place. -/
inductive Activation.InStep (known : Nat → Prop) : Activation → Activation → Prop where
  | unwoven {m : Method} {pc : Nat} {L : Array Value} {S : List Value}
      (hm : ∀ hk, .hook hk ∉ m.insns) (hL : ∀ x ∈ L.toList, x.Within known)
      (hS : ∀ x ∈ S, x.Within known) :
      InStep known ⟨.ofMethod m, pc, L, S⟩ ⟨.ofMethod m, pc, L, S⟩
  | woven {v : Woven} {kinds : List OperandKind} {pc : Nat} {L L' : Array Value} {S S' : List Value}
      (hcode : v.Kept kinds (v.result.insns.drop pc))
      (hL : ∃ L₀, v.Beside known L₀ L ∧ v.Beside known L₀ L')
        (hS : Stack.Abreast known kinds S S') :
      InStep known ⟨.ofMethod v.result, pc, L, S⟩ ⟨.ofMethod v.result, pc, L', S'⟩

/-- Two activations that wait for the same. -/
structure Waiting.InStep (known : Nat → Prop) (c c' : Waiting) : Prop where
  ret : c'.ret = c.ret
  resumes : ∀ xs : List Value, (∀ x ∈ xs, x.Within known) → Activation.InStep known
    { c.activation with stack := xs ++ c.activation.stack }
    { c'.activation with stack := xs ++ c'.activation.stack }

/-- Two runs in progress that are at the same place. -/
structure RunState.InStep (known : Nat → Prop) (s s' : RunState) : Prop where
  world : World.Same known s.world s'.world
  current : Activation.InStep known s.current s'.current
  callers : List.Forall₂ (Waiting.InStep known) s.callers s'.callers

/-- Two results that are the same but for what the stores know. -/
structure RunResult.Same (known : Nat → Prop) (r r' : RunResult) : Prop where
  outcome : r'.outcome = r.outcome
  world : World.Same known r.world r'.world

/-- Two runs that both go on or both end. -/
inductive Progress.InStep (known : Nat → Prop) : Progress → Progress → Prop where
  | running {s s' : RunState} (h : s.InStep known s') : InStep known (.running s) (.running s')
  | ended {r r' : RunResult} (h : r.Same known r') : InStep known (.ended r) (.ended r')

theorem Progress.InStep.failed (e : RunError) (hw : World.Same known w w') :
    Progress.InStep known (.ended ⟨.error e, w⟩) (.ended ⟨.error e, w'⟩) := .ended ⟨rfl, hw⟩

/-! ## 2. Calls and returns -/

theorem deliver_in_step (hw : World.Same known w w') {v : Option Value}
    (hv : ∀ x ∈ v, x.Within known) (hc : List.Forall₂ (Waiting.InStep known) callers callers') :
    Progress.InStep known (deliver w v callers) (deliver w' v callers') := by
  cases hc with
  | nil => exact .ended ⟨rfl, hw⟩
  | @cons c c' callers callers' hcaller hrest =>
    obtain ⟨a, ret⟩ := c
    obtain ⟨a', ret'⟩ := c'
    obtain ⟨rfl, hresumes⟩ := hcaller
    unfold deliver
    by_cases hvoid : ret' = .void
    · simp only [hvoid, if_true]
      exact .running ⟨hw, hresumes [] (by simp), hrest⟩
    · simp only [hvoid, if_false]
      refine .running ⟨hw, hresumes [v.getD (Value.defaultFor ret')] ?_, hrest⟩
      rw [List.forall_mem_singleton]
      cases v with
      | none => exact Value.within_defaultFor ret'
      | some x => exact hv x rfl

/-- **A built-in native** does the same in both. -/
theorem callNative_in_step (hw : World.Same known w w')
    (hc : List.Forall₂ (Waiting.InStep known) callers callers') {n : Native} {e : String}
    (hn : (e, n) ∈ Native.builtIn) (key signature : String) {args : List Value}
    (hargs : ∀ x ∈ args, x.Within known) :
    Progress.InStep known (Program.callNative w callers n key signature args)
      (Program.callNative w' callers' n key signature args) := by
  have hclaimed := (hw.claimed signature).follows (w'.follows_claimed signature)
  unfold Program.callNative
  rcases hclaim : w.store.claim signature with ⟨record, store⟩
  rcases hclaim' : w'.store.claim signature with ⟨record', store'⟩
  rw [hclaim, hclaim'] at hclaimed
  have hsame := Native.builtIn_blind _ hn known key args record record' hargs _ _ hclaimed
  have hwords := (Native.builtIn_likewise _ hn key args record record' _ _ hclaimed.heap).1
  simp only
  generalize (n.body ⟨key, args, record⟩).outcome { w with store } = r at hsame hwords ⊢
  generalize (n.body ⟨key, args, record'⟩).outcome { w' with store := store' } =
    r' at hsame hwords ⊢
  cases hsame with
  | ok hv hw => exact deliver_in_step hw hv hc
  | failed _ hw =>
    obtain rfl := Except.error.inj hwords
    exact .failed _ hw

theorem locals_within {r : Routine} {args : List Value} (hargs : ∀ x ∈ args, x.Within known) :
    ∀ x ∈ (r.locals args).toList, x.Within known := by
  intro x hx
  rcases List.mem_append.mp (show x ∈ args ++ List.replicate _ Value.null from hx) with hx | hx
  · exact hargs x hx
  · rw [List.eq_of_mem_replicate hx]
    trivial

/-- **Starting a method.** -/
theorem activate_in_step {r : Routine} (hr : r.Fair) (hw : World.Same known w w')
    (hc : List.Forall₂ (Waiting.InStep known) callers callers') {args : List Value}
    (hargs : ∀ x ∈ args, x.Within known) :
    Progress.InStep known (Program.activate w callers r args)
      (Program.activate w' callers' r args) := by
  unfold Program.activate
  cases r.labelFault with
  | some e => exact .failed _ hw
  | none =>
    simp only
    by_cases hlen : args.length = r.method.paramSlots
    · rw [if_pos hlen, if_pos hlen]
      refine .running ⟨hw, ?_, hc⟩
      rcases hr with ⟨m, hm, rfl⟩ | ⟨v, rfl⟩
      · exact .unwoven hm (locals_within hargs) (by simp)
      · have hL := v.beside_start hlen hargs
        exact .woven v.kept_start ⟨_, hL, hL⟩ (.operands (by simp))
    · rw [if_neg hlen, if_neg hlen]
      exact .failed _ hw

/-- **Calling a method**, loaded or native. -/
theorem enter_in_step (hp : p.Fair) (limits : MachineSettings) (hw : World.Same known w w')
    (hc : List.Forall₂ (Waiting.InStep known) callers callers') (owner name descriptor : String)
    {args : List Value} (hargs : ∀ x ∈ args, x.Within known) :
    Progress.InStep known (p.enter limits w callers owner name descriptor args)
      (p.enter limits w' callers' owner name descriptor args) := by
  unfold Program.enter
  rw [← hc.length_eq]
  split
  · exact .failed _ hw
  · cases hr : p.routine? owner name descriptor with
    | some r => exact activate_in_step (hp.routines owner name descriptor r hr) hw hc hargs
    | none =>
      simp only
      cases hn : p.native? (methodKey owner name descriptor) with
      | none => exact .failed _ hw
      | some n =>
        unfold Program.native? at hn
        rw [hp.natives] at hn
        exact callNative_in_step hw hc (mem_of_lookup hn) _ _ hargs

/-! ## 3. Steps -/

/-- Where woven code calls or jumps, nothing of its own lies on the stack. -/
theorem Woven.Turns.bare {v : Woven} {i : Insn} {kinds kinds' : List OperandKind}
    (h : v.Turns i kinds kinds') (hi : (∃ m, i = .invoke m) ∨ i.jumpTarget?.isSome) :
    kinds' = [] := by
  cases h with
  | program => rfl
  | _ => simp [Insn.jumpTarget?] at hi

/-- Operands of the program on top of others. -/
theorem Stack.Abreast.push {S S' xs : List Value} (h : Stack.Abreast known [] S S')
    (hxs : ∀ x ∈ xs, x.Within known) : Stack.Abreast known [] (xs ++ S) (xs ++ S') := by
  cases h with
  | operands hS => exact .operands (List.forall_mem_append.mpr ⟨hxs, hS⟩)

variable {s s' : RunState} {i : Insn}

/-- **Going on in a method that was not woven.** -/
theorem unwoven_step (hp : p.Fair) {m : Method} {pc : Nat} {L : Array Value} {S : List Value}
    (hm : ∀ hk, .hook hk ∉ m.insns) (hL : ∀ x ∈ L.toList, x.Within known)
    (hS : ∀ x ∈ S, x.Within known) (hw : World.Same known w w')
    (hc : List.Forall₂ (Waiting.InStep known) callers callers') (hi : m.insns[pc]? = some i) :
    Progress.InStep known (p.step limits ⟨w, ⟨.ofMethod m, pc, L, S⟩, callers⟩ i)
      (p.step limits ⟨w', ⟨.ofMethod m, pc, L, S⟩, callers'⟩ i) := by
  have hhook : ∀ hk, i ≠ .hook hk := by
    rintro hk rfl
    exact hm hk (List.mem_of_getElem? hi)
  have halike : Bench.Alike known L.size [] ⟨w, L, S⟩ ⟨w', L, S⟩ :=
    ⟨hw, (List.append_nil _).symm, rfl, rfl, hL, hS⟩
  let key := (Routine.ofMethod m).key
  let inUse := RunState.inUse ⟨.ofMethod m, pc, L, S⟩ callers
  let inUse' := RunState.inUse ⟨.ofMethod m, pc, L, S⟩ callers'
  have h := Work.perform_matched key key (u := .stackUnderflow key pc) rfl inUse inUse' hhook
    (fun _ _ => Or.inr rfl) _ _ halike
  have hview : Bench.SameView ⟨w, L, S⟩ ⟨w', L, S⟩ := ⟨hw.heap, hw.literals, rfl⟩
  have hwords {e e' : RunError} {c c' : Bench}
      (h : (Work.perform key (.stackUnderflow key pc) inUse i).outcome ⟨w, L, S⟩ = (.error e, c))
      (h' : (Work.perform key (.stackUnderflow key pc) inUse' i).outcome ⟨w', L, S⟩ =
        (.error e', c')) :
      e' = e := Work.perform_fails_alike hhook hview h h'
  generalize hr : (Work.perform _ _ _ i).outcome ⟨w, L, S⟩ = r at h hwords
  generalize hr' : (Work.perform _ _ _ i).outcome ⟨w', L, S⟩ = r' at h hwords
  cases h with
  | @failed e e' b b' _ h =>
    obtain rfl := hwords rfl rfl
    rw [Program.step_of_error (a := ⟨.ofMethod m, pc, L, S⟩) hr,
      Program.step_of_error (a := ⟨.ofMethod m, pc, L, S⟩) hr']
    exact .failed _ h.world
  | @ok t b b' ht h =>
    rw [Program.step_of_ok (a := ⟨.ofMethod m, pc, L, S⟩) hr,
      Program.step_of_ok (a := ⟨.ofMethod m, pc, L, S⟩) hr']
    have hlocals : b'.locals = b.locals := Array.toList_inj.mp (h.locals.trans (List.append_nil _))
    rw [hlocals, h.stack]
    have hthere (pc : Nat) : Activation.InStep known ⟨.ofMethod m, pc, b.locals, b.stack⟩
        ⟨.ofMethod m, pc, b.locals, b.stack⟩ := .unwoven hm h.localsWithin h.stackWithin
    cases t with
    | next => exact .running ⟨h.world, hthere _, hc⟩
    | jump l =>
      unfold Program.transfer
      simp only
      cases (Routine.ofMethod m).method.labelAt? l with
      | none => exact .failed _ h.world
      | some pc' => exact .running ⟨h.world, hthere pc', hc⟩
    | call target args =>
      have hwaiting : Waiting.InStep known
            ⟨⟨.ofMethod m, pc + 1, b.locals, b.stack⟩, target.desc.ret⟩
          ⟨⟨.ofMethod m, pc + 1, b.locals, b.stack⟩, target.desc.ret⟩ :=
        ⟨rfl, fun xs hxs => .unwoven hm h.localsWithin
          (List.forall_mem_append.mpr ⟨hxs, h.stackWithin⟩)⟩
      exact enter_in_step hp limits h.world (.cons hwaiting hc) _ _ _ ht
    | ret r => exact deliver_in_step h.world ht hc

/-- **Going on in a woven method.** -/
theorem woven_step (hp : p.Fair) {v : Woven} {kinds : List OperandKind} {pc : Nat}
    {L L' : Array Value} {S S' : List Value} (hcode : v.Kept kinds (v.result.insns.drop pc))
    (hb : v.Abreast known kinds ⟨w, L, S⟩ ⟨w', L', S'⟩)
    (hc : List.Forall₂ (Waiting.InStep known) callers callers')
    (hi : v.result.insns[pc]? = some i) :
    Progress.InStep known (p.step limits ⟨w, ⟨.ofMethod v.result, pc, L, S⟩, callers⟩ i)
      (p.step limits ⟨w', ⟨.ofMethod v.result, pc, L', S'⟩, callers'⟩ i) := by
  obtain ⟨hlt, hget⟩ := List.getElem?_eq_some_iff.mp hi
  rw [List.drop_eq_getElem_cons hlt, hget] at hcode
  obtain ⟨kinds', hturns, hjump, hrest⟩ := hcode
  let key := (Routine.ofMethod v.result).key
  have h := Woven.perform_together hturns key (.stackUnderflow key pc)
    (RunState.inUse ⟨.ofMethod v.result, pc, L, S⟩ callers)
    (RunState.inUse ⟨.ofMethod v.result, pc, L', S'⟩ callers') _ _ hb
  generalize hr : (Work.perform _ _ _ i).outcome ⟨w, L, S⟩ = r at h
  generalize hr' : (Work.perform _ _ _ i).outcome ⟨w', L', S'⟩ = r' at h
  cases h with
  | failed e hw =>
    rw [Program.step_of_error (a := ⟨.ofMethod v.result, pc, L, S⟩) hr,
      Program.step_of_error (a := ⟨.ofMethod v.result, pc, L', S'⟩) hr']
    exact .failed e hw
  | @ok t t' b b' h =>
    obtain ⟨⟨rfl, ht⟩, hb⟩ := h
    rw [Program.step_of_ok (a := ⟨.ofMethod v.result, pc, L, S⟩) hr,
      Program.step_of_ok (a := ⟨.ofMethod v.result, pc, L', S'⟩) hr']
    obtain ⟨hgoes, hfalls⟩ := Work.perform_goes hr
    cases t' with
    | next => exact .running ⟨hb.world, .woven (hrest (hfalls (.inl rfl))) hb.locals hb.stack, hc⟩
    | jump l =>
      have hl := hgoes l rfl
      obtain rfl := hturns.bare (.inr (by rw [hl]; rfl))
      unfold Program.transfer
      simp only
      cases hpc : (Routine.ofMethod v.result).method.labelAt? l with
      | none => exact .failed _ hb.world
      | some pc' =>
        exact .running
          ⟨hb.world, .woven (Woven.kept_label (fun k hk => hjump l k hl hk) hpc) hb.locals hb.stack,
          hc⟩
    | call m args =>
      obtain ⟨rfl, -⟩ := Work.perform_call hr
      obtain rfl := hturns.bare (.inl ⟨m, rfl⟩)
      have hwaiting : Waiting.InStep known
            ⟨⟨.ofMethod v.result, pc + 1, b.locals, b.stack⟩, m.desc.ret⟩
          ⟨⟨.ofMethod v.result, pc + 1, b'.locals, b'.stack⟩, m.desc.ret⟩ :=
        ⟨rfl, fun xs hxs => .woven (hrest rfl) hb.locals (hb.stack.push hxs)⟩
      exact enter_in_step hp limits hb.world (.cons hwaiting hc) _ _ _ ht
    | ret r => exact deliver_in_step hb.world ht hc

/-- **A step of one is a step of the other.** -/
theorem step_in_step (hp : p.Fair) (limits : MachineSettings) (h : s.InStep known s')
    (hi : s.insn? = some i) :
    s'.insn? = some i ∧ Progress.InStep known (p.step limits s i) (p.step limits s' i) := by
  obtain ⟨w, a, callers⟩ := s
  obtain ⟨w', a', callers'⟩ := s'
  obtain ⟨hw, ha, hc⟩ := h
  simp only at hw ha hc
  cases ha with
  | @unwoven m pc L S hm hL hS =>
    exact ⟨hi, unwoven_step hp hm hL hS hw hc ((Routine.insns_getElem? m pc).symm.trans hi)⟩
  | @woven v kinds pc L L' S S' hcode hL hS =>
    exact ⟨hi, woven_step hp hcode ⟨hw, hL, hS⟩ hc
      ((Routine.insns_getElem? v.result pc).symm.trans hi)⟩

/-- At the end of its code, a method has the same name in both. -/
theorem end_in_step (h : s.InStep known s') (hi : s.insn? = none) :
    s'.insn? = none ∧ s'.current.routine.key = s.current.routine.key := by
  obtain ⟨w, a, callers⟩ := s
  obtain ⟨w', a', callers'⟩ := s'
  obtain ⟨-, ha, -⟩ := h
  cases ha with
  | unwoven => exact ⟨hi, rfl⟩
  | woven => exact ⟨hi, rfl⟩

/-! ## 4. Runs -/

/-- **Two runs in step come to the same**, whatever the budget is. -/
theorem run_in_step (hp : p.Fair) : ∀ (budget : Nat) {s s' : RunState}, s.InStep known s' →
    (p.run limits budget s).Same known (p.run limits budget s') := by
  have hend (budget : Nat) {s s' : RunState} (h : s.InStep known s') (hi : s.insn? = none) :
      (p.run limits budget s).Same known (p.run limits budget s') := by
    obtain ⟨hi', hkey⟩ := end_in_step h hi
    rw [Program.run_of_end hi, Program.run_of_end hi', hkey]
    exact ⟨rfl, h.world⟩
  intro budget
  induction budget with
  | zero =>
    intro s s' h
    cases hi : s.insn? with
    | none => exact hend 0 h hi
    | some i =>
      have hi' := (step_in_step hp limits h hi).1
      unfold RunState.insn? at hi hi'
      unfold Program.run
      simp only [hi, hi']
      exact ⟨rfl, h.world⟩
  | succ budget ih =>
    intro s s' h
    cases hi : s.insn? with
    | none => exact hend _ h hi
    | some i =>
      obtain ⟨hi', hstep⟩ := step_in_step hp limits h hi
      generalize ht : p.step limits s i = t at hstep
      generalize ht' : p.step limits s' i = t' at hstep
      cases hstep with
      | running h =>
        rw [Program.run_of_running hi ht, Program.run_of_running hi' ht']
        exact ih h
      | ended h =>
        rw [Program.run_of_ended hi ht, Program.run_of_ended hi' ht']
        exact h

/-- **Two invocations come to the same.** -/
theorem invoke_same (hp : p.Fair) (limits : MachineSettings) (hw : World.Same known w w')
    (owner name descriptor : String) {args : List Value} (hargs : ∀ x ∈ args, x.Within known) :
    (p.invoke limits w owner name descriptor args).Same known
      (p.invoke limits w' owner name descriptor args) := by
  unfold Program.invoke
  have h := enter_in_step hp limits hw .nil owner name descriptor hargs
  generalize p.enter limits w [] owner name descriptor args = t at h ⊢
  generalize p.enter limits w' [] owner name descriptor args = t' at h ⊢
  cases h with
  | running h => exact run_in_step hp _ h
  | ended h => exact h

end Provenance
