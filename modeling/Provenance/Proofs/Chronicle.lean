/-
# The history of a run

Beside a run a history can be kept, to which every instruction adds what it does (`Chronicle`).  It
is one for the whole run, unlike the notes that are kept with each activation: what a method did is
still there when its caller goes on.  The machine does not see it.

`Chronicle.Run` are the runs all of whose states are as described, with their histories, and
`Chronicle.Keeps.run` carries over to them what every step keeps.
-/
import Provenance.Proofs.Reaching

namespace Provenance

/-- What the current activation works on. -/
def RunState.bench (s : RunState) : Bench := ⟨s.world, s.current.locals, s.current.stack⟩

/-- The instruction that is done next. -/
def RunState.insn? (s : RunState) : Option Insn := s.current.routine.insns[s.current.pc]?

/-- A way to keep a history. -/
structure Chronicle (H : Type) where
  start : H
  /-- The history after an instruction, done on a bench. -/
  after : Insn → Bench → H → H

namespace Chronicle

variable {H : Type} {C : Chronicle H} {p : Program} {limits : MachineSettings}
    {Ok : RunState → Prop}
  {w : World} {s s' : RunState} {h h' : H} {i : Insn} {b : Bench}

/-! ## 1. Runs -/

/-- A run from an invocation in a world on, with its history; all its states are as described. -/
inductive Run (C : Chronicle H) (p : Program) (limits : MachineSettings) (Ok : RunState → Prop)
    (w : World) : RunState → H → Prop where
  | start {owner name descriptor : String} {args : List Value} {s : RunState}
      (hs : p.enter limits w [] owner name descriptor args = .running s) (hok : Ok s) :
      Run C p limits Ok w s C.start
  | step {s s' : RunState} {h : H} {i : Insn} (hrun : Run C p limits Ok w s h)
      (hi : s.insn? = some i) (hs : p.step limits s i = .running s') (hok : Ok s') :
      Run C p limits Ok w s' (C.after i s.bench h)

theorem Run.ok (hrun : C.Run p limits Ok w s h) : Ok s := by
  cases hrun with
  | start _ hok => exact hok
  | step _ _ _ hok => exact hok

/-- The state after that many steps, with the history, if all states on the way pass a check. -/
def trace (C : Chronicle H) (p : Program) (limits : MachineSettings) (ok : RunState → Bool) :
    Nat → RunState → H → Option (RunState × H)
  | 0, s, h => some (s, h)
  | n + 1, s, h =>
    match s.insn? with
    | none => none
    | some i =>
      match p.step limits s i with
      | .running s' => if ok s' then C.trace p limits ok n s' (C.after i s.bench h) else none
      | .ended _ => none

/-- The state that an invocation comes to after that many steps, with the history, if all states on
the way pass a check. -/
def follow (C : Chronicle H) (p : Program) (limits : MachineSettings)
    (ok : RunState → Bool) (w : World) (owner name descriptor : String) (args : List Value)
    (n : Nat) : Option (RunState × H) :=
  match p.enter limits w [] owner name descriptor args with
  | .running s => if ok s then C.trace p limits ok n s C.start else none
  | .ended _ => none

variable {ok : RunState → Bool}

theorem run_of_trace : ∀ {n : Nat} {s : RunState} {h : H}, C.Run p limits (ok · = true) w s h →
    C.trace p limits ok n s h = some (s', h') → C.Run p limits (ok · = true) w s' h' := by
  intro n
  induction n with
  | zero =>
    intro s h hrun ht
    obtain ⟨rfl, rfl⟩ := Prod.mk.inj (Option.some.inj ht)
    exact hrun
  | succ n ih =>
    intro s h hrun ht
    unfold trace at ht
    split at ht
    · cases ht
    · rename_i i hi
      split at ht
      · rename_i t hs
        split at ht
        · rename_i hok
          exact ih (hrun.step hi hs hok) ht
        · cases ht
      · cases ht

/-- What is computed is a run. -/
theorem run_of_follow {owner name descriptor : String} {args : List Value} {n : Nat}
    (hf : C.follow p limits ok w owner name descriptor args n = some (s, h)) :
    C.Run p limits (ok · = true) w s h := by
  unfold follow at hf
  split at hf
  · rename_i t ht
    split at hf
    · rename_i hok
      exact run_of_trace (.start ht hok) hf
    · cases hf
  · cases hf

/-- **Only methods of the program run.** -/
theorem Run.routines {R : Routine → Prop}
    (hp : ∀ owner name descriptor r, p.routine? owner name descriptor = some r → R r)
    (hrun : C.Run p limits Ok w s h) :
    R s.current.routine ∧ ∀ x ∈ s.callers, R x.activation.routine := by
  have hdeliver {w : World} {v : Option Value} {callers : List Waiting} {s' : RunState}
      (hc : ∀ x ∈ callers, R x.activation.routine) (hs : deliver w v callers = .running s') :
      R s'.current.routine ∧ ∀ x ∈ s'.callers, R x.activation.routine := by
    obtain ⟨x, rest, rfl, rfl⟩ := Program.deliver_running hs
    obtain ⟨hx, hrest⟩ := List.forall_mem_cons.mp hc
    exact ⟨by split <;> exact hx, hrest⟩
  have henter {w : World} {callers : List Waiting} {owner name descriptor : String}
        {args : List Value}
      {s' : RunState} (hc : ∀ x ∈ callers, R x.activation.routine)
      (hs : p.enter limits w callers owner name descriptor args = .running s') :
      R s'.current.routine ∧ ∀ x ∈ s'.callers, R x.activation.routine := by
    rcases Program.enter_running hs with ⟨r, hr, -, rfl⟩ | ⟨_, _, _, _, _, _, hs⟩
    · exact ⟨hp _ _ _ r hr, hc⟩
    · exact hdeliver hc hs
  induction hrun with
  | start hs _ => exact henter (by simp) hs
  | @step s s' h i _ _ hs _ ih =>
    obtain ⟨hcurrent, hc⟩ := ih
    unfold Program.step at hs
    simp only at hs
    split at hs
    · cases hs
    · rename_i t b _
      unfold Program.transfer at hs
      split at hs
      · obtain rfl := Progress.running.inj hs
        exact ⟨hcurrent, hc⟩
      · split at hs
        · obtain rfl := Progress.running.inj hs
          exact ⟨hcurrent, hc⟩
        · cases hs
      · exact henter (List.forall_mem_cons.mpr ⟨hcurrent, hc⟩) hs
      · exact hdeliver hc hs

/-- In a program of methods of one kind, only such methods run. -/
theorem Run.of_routines {R : Routine → Prop}
    (hp : ∀ owner name descriptor r, p.routine? owner name descriptor = some r → R r)
    (hrun : C.Run p limits Ok w s h) :
    C.Run p limits (fun s => R s.current.routine ∧ Ok s) w s h := by
  induction hrun with
  | start hs hok => exact .start hs ⟨((Run.start (C := C) hs hok).routines hp).1, hok⟩
  | step hrun hi hs hok ih => exact ih.step hi hs ⟨((hrun.step hi hs hok).routines hp).1, hok⟩

/-! ## 2. What every step keeps -/

/-- A property of activations and their worlds that every step keeps: `A` of the one at work, `W` of
one that waits, which will go on in any world and history in which `I` holds.  `R` are the methods
that run, and `Given` is assumed of the instructions that are done. -/
structure Keeps (C : Chronicle H) (p : Program) (R : Routine → Prop) (Given : Insn → Bench → Prop)
    (I : World → H → Prop) (A : Activation → World → H → Prop) (W : Waiting → Prop) : Prop where
  /-- A method starts. -/
  starts : ∀ {r : Routine} {args : List Value} {w : World} {h : H}, R r → I w h →
    A ⟨r, 0, r.locals args, []⟩ w h
  /-- A waiting activation gets a result. -/
  resumes : ∀ {x : Waiting} {w : World} {h : H} (v : Value), W x → I w h →
    A (if x.ret = .void then x.activation
      else { x.activation with stack := v :: x.activation.stack }) w h
  /-- An instruction that is done; a call of a native is part of it. -/
  goes : ∀ {s : RunState} {h : H} {i : Insn} {b : Bench} {t : Transfer},
    A s.current s.world h → s.insn? = some i → Given i s.bench →
    (Work.perform s.current.routine.key s.current.underflow
      (RunState.inUse s.current s.callers) i).outcome s.bench = (.ok t, b) →
    match t with
    | .next => A { s.current with pc := s.current.pc + 1, locals := b.locals, stack := b.stack }
        b.world (C.after i s.bench h)
    | .jump label => ∀ pc, s.current.routine.method.labelAt? label = some pc →
        A { s.current with pc, locals := b.locals, stack := b.stack } b.world (C.after i s.bench h)
    | .call target args =>
        W ⟨{ s.current with pc := s.current.pc + 1, locals := b.locals, stack := b.stack },
          target.desc.ret⟩ ∧
        I b.world (C.after i s.bench h) ∧
        ∀ n, p.native? (methodKey target.owner target.name target.desc.descriptor) = some n →
          ∀ record signature, Action.Wp
            (n.body ⟨methodKey target.owner target.name target.desc.descriptor, args, record⟩)
            (fun _ w => I w (C.after i s.bench h)) (fun _ _ => True)
            { b.world with store := (b.world.store.claim signature).2 }
    | .ret _ => I b.world (C.after i s.bench h)

/-- A state with its history in which the property holds of every activation. -/
structure Holding (A : Activation → World → H → Prop) (W : Waiting → Prop) (s : RunState) (h : H) :
    Prop where
  current : A s.current s.world h
  callers : ∀ x ∈ s.callers, W x

variable {R : Routine → Prop} {Given : Insn → Bench → Prop} {I : World → H → Prop}
  {A : Activation → World → H → Prop} {W : Waiting → Prop} {callers : List Waiting}

/-- **Handing over a result.** -/
theorem Keeps.deliver (hk : C.Keeps p R Given I A W) (hc : ∀ x ∈ callers, W x) (hI : I w h)
    {v : Option Value} (hs : deliver w v callers = .running s') : Holding A W s' h := by
  obtain ⟨x, rest, rfl, rfl⟩ := Program.deliver_running hs
  obtain ⟨hx, hrest⟩ := List.forall_mem_cons.mp hc
  exact ⟨hk.resumes _ hx hI, hrest⟩

/-- **Calling.**  Either a method starts, or a native hands over its result. -/
theorem Keeps.enter (hk : C.Keeps p R Given I A W) (hc : ∀ x ∈ callers, W x) (hI : I w h)
    {owner name descriptor : String} {args : List Value}
    (hnative : ∀ n, p.native? (methodKey owner name descriptor) = some n →
      ∀ record signature, Action.Wp (n.body ⟨methodKey owner name descriptor, args, record⟩)
      (fun _ w => I w h) (fun _ _ => True) { w with store := (w.store.claim signature).2 })
    (hs : p.enter limits w callers owner name descriptor args = .running s')
    (hr : R s'.current.routine) : Holding A W s' h := by
  rcases Program.enter_running hs with ⟨r, -, -, rfl⟩ | ⟨n, record, v, w', hn, hbody, hs⟩
  · exact ⟨hk.starts hr hI, hc⟩
  · exact hk.deliver hc ((hnative n hn _ _).of_ok hbody) hs

/-- **One step.** -/
theorem Keeps.step (hk : C.Keeps p R Given I A W) (hh : Holding A W s h) (hi : s.insn? = some i)
    (hgiven : Given i s.bench) (hs : p.step limits s i = .running s') (hr : R s'.current.routine) :
    Holding A W s' (C.after i s.bench h) := by
  obtain ⟨w, ⟨r, pc, L, S⟩, callers⟩ := s
  obtain ⟨hcurrent, hc⟩ := hh
  rcases hout : (Work.perform r.key (.stackUnderflow r.key pc)
    (RunState.inUse ⟨r, pc, L, S⟩ callers) i).outcome ⟨w, L, S⟩ with ⟨outcome, b⟩
  cases outcome with
  | error e =>
    rw [Program.step_of_error (a := ⟨r, pc, L, S⟩) hout] at hs
    cases hs
  | ok t =>
    rw [Program.step_of_ok (a := ⟨r, pc, L, S⟩) hout] at hs
    have hgoes := hk.goes (s := ⟨w, ⟨r, pc, L, S⟩, callers⟩) hcurrent hi hgiven hout
    cases t with
    | next =>
      obtain rfl := Progress.running.inj hs
      exact ⟨hgoes, hc⟩
    | jump label =>
      unfold Program.transfer at hs
      simp only at hs
      split at hs
      · rename_i pc' hpc
        obtain rfl := Progress.running.inj hs
        exact ⟨hgoes pc' hpc, hc⟩
      · cases hs
    | call target args =>
      obtain ⟨hwaiting, hI, hnative⟩ := hgoes
      exact hk.enter (List.forall_mem_cons.mpr ⟨hwaiting, hc⟩) hI hnative hs hr
    | ret v => exact hk.deliver hc hgoes hs

/-- **What every step keeps holds in every run.** -/
theorem Keeps.run (hk : C.Keeps p R Given I A W) (hI : I w C.start)
    (hok : ∀ s, Ok s → R s.current.routine ∧ ∀ i, s.insn? = some i → Given i s.bench)
    (hrun : C.Run p limits Ok w s h) : Holding A W s h := by
  induction hrun with
  | @start owner name descriptor args s hs hs' =>
    rcases Program.enter_running hs with ⟨r, -, -, rfl⟩ | ⟨_, _, _, _, _, _, hs⟩
    · exact ⟨hk.starts (hok _ hs').1 hI, fun x hx => nomatch hx⟩
    · -- a native that is called from outside comes to an end at once
      cases hs
  | @step s s' h i hrun hi hs hs' ih =>
    exact hk.step ih hi ((hok s hrun.ok).2 i hi) hs (hok s' hs').1

end Chronicle

end Provenance
