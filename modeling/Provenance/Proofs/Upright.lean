/-
# A verified method runs as the verifier said

Where heights fit together (`Fits`), they are what happens: as long as an activation of the method
is alive, at work or waiting for a callee, its stack has the height of the instruction it stands at,
and its next instruction has its operands, its local and somewhere to go on
(`Program.Within.stands`).  Nothing is asked of the program around it, of the world or of the other
activations; hooks are instructions like all others.

So a method for which `requiredStack` gives a depth never holds more operands than that and never
fails as code does that is not in order (`Method.Upright`), and weaving returns no method for which
that is not so (`requiredStack_upright`).
-/
import Provenance.Proofs.Heights
import Provenance.Proofs.Operands
import Provenance.Proofs.Reaching
import Provenance.Proofs.Weaving

namespace Provenance

/-! ## 1. One instruction -/

namespace Action

variable {σ α : Type} {Q Q' : α → σ → Prop} {E E' : RunError → σ → Prop}

/-- Two descriptions of one action hold together. -/
theorem Wp.and {x : Action σ α} {s : σ} (h : Wp x Q E s) (h' : Wp x Q' E' s) :
    Wp x (fun a s => Q a s ∧ Q' a s) (fun e s => E e s ∧ E' e s) s := by
  unfold Wp at *
  split at h
  · rename_i hx
    rw [hx] at h'
    exact ⟨h, h'⟩
  · rename_i hx
    rw [hx] at h'
    exact ⟨h, h'⟩

end Action

namespace Work

open Provenance.Action (Wp)

/-- **An instruction with its operands and its local** goes on in its ways, with the height that its
effect says and the same number of locals, and fails only as a program may that is in order. -/
theorem perform_upright (method : String) (u : RunError) (inUse : Thunk (List Value)) {i : Insn}
    {b : Bench} (hpops : i.pops ≤ b.stack.length)
    (hlocal : ∀ l, i.local? = some l → l < b.locals.size) :
    Wp (perform method u inUse i)
      (fun t b' => b'.locals.size = b.locals.size ∧ Shape i b.stack.length t b')
      (fun e _ => e.isStructural = false) b := by
  have hbalanced := (show Balanced _ (fun l => i = .store l) _ _ (perform method u inUse i) from
    perform_balanced method u hlocal fun _ h => h) b rfl
  by_cases hhook : ∃ h, i = .hook h
  · obtain ⟨h, rfl⟩ := hhook
    refine (hbalanced.and (perform_hook method u inUse h b)).mono (fun t b' ht => ?_)
      fun e b' he => he.1 hpops
    obtain ⟨hexchanged, rfl⟩ := ht
    refine ⟨hexchanged.size, rfl, ?_⟩
    have hheight := hexchanged.height
    have hleaves : leaves (.hook h) = (Insn.hook h).pushes := rfl
    omega
  · have hshape := perform_shape method u inUse (fun h hi => hhook ⟨h, hi⟩) b
    exact (hbalanced.and hshape).mono (fun t b' ht => ⟨ht.1.size, ht.2.2⟩) fun e b' he => he.1 hpops

end Work

/-! ## 2. What an activation raises itself -/

/-- The error that the activation at work raises itself, if its next instruction fails or there is
nowhere to go on.  What a callee raises, or the machine when a call is made, is not among these. -/
def RunState.raises? (s : RunState) : Option RunError :=
  let a := s.current
  match a.routine.insns[a.pc]? with
  | none => some (.fellOffEnd a.routine.key)
  | some i =>
    match ((Work.perform a.routine.key a.underflow (RunState.inUse a s.callers) i).outcome
        ⟨s.world, a.locals, a.stack⟩).1 with
    | .error e => some e
    | .ok (.jump label) =>
      match a.routine.method.labelAt? label with
      | some _ => none
      | none => some (.invalidMethod a.routine.key (.unknownLabel label))
    | .ok _ => none

namespace Program

variable {p : Program} {limits : MachineSettings}

/-! ## 3. The life of an activation -/

/-- The states of a run from a state on, as long as no more activations wait than did then. -/
inductive Within (p : Program) (limits : MachineSettings) (waiting : Nat) (start : RunState) :
    RunState → Prop where
  | start : Within p limits waiting start start
  | step {s t : RunState} {i : Insn} (h : Within p limits waiting start s)
      (hi : s.current.routine.insns[s.current.pc]? = some i) (ht : p.step limits s i = .running t)
      (halive : waiting ≤ t.callers.length) : Within p limits waiting start t

end Program

/-- An activation in a run, by the activations that wait below it: at work, or waiting itself with
the result of a call still to come. -/
inductive RunState.Has (below : List Waiting) : RunState → Activation → Nat → Prop where
  | working (world : World) (a : Activation) : Has below ⟨world, a, below⟩ a 0
  | waiting (world : World) (current : Activation) (above : List Waiting)
      (a : Activation) (ret : Ty) :
      Has below ⟨world, current, above ++ ⟨a, ret⟩ :: below⟩ a (if ret = .void then 0 else 1)

/-- An activation of a method that stands where the heights say, up to results still to come. -/
structure Activation.Stands (m : Method) (heights : Nat → Option Nat) (a : Activation)
    (pending : Nat) :
    Prop where
  routine : a.routine = .ofMethod m
  locals : m.maxLocals ≤ a.locals.size
  height : heights a.pc = some (a.stack.length + pending)

namespace Program

variable {p : Program} {limits : MachineSettings} {m : Method} {heights : Nat → Option Nat}
  {depth : Nat} {below : List Waiting}

/-- **Every step** leaves those that wait, puts the current activation among them, or takes the
latest one out. -/
theorem step_callers {s t : RunState} {i : Insn} (h : p.step limits s i = .running t) :
    t.callers = s.callers ∨ (∃ c, t.callers = c :: s.callers) ∨
      ∃ world v, deliver world v s.callers = .running t := by
  obtain ⟨world, a, callers⟩ := s
  rcases hout : (Work.perform a.routine.key a.underflow (RunState.inUse a callers) i).outcome
    ⟨world, a.locals, a.stack⟩ with ⟨r, b⟩
  cases r with
  | error e =>
    rw [step_of_error hout] at h
    exact absurd h (by simp)
  | ok transfer =>
    rw [step_of_ok hout] at h
    cases transfer with
    | next =>
      cases h
      exact .inl rfl
    | jump label =>
      simp only [Program.transfer] at h
      split at h
      · cases h
        exact .inl rfl
      · exact absurd h (by simp)
    | call m args =>
      rcases enter_running h with ⟨_, _, _, rfl⟩ | ⟨_, _, _, _, _, _, hdelivered⟩
      · exact .inr (.inl ⟨_, rfl⟩)
      · obtain ⟨c, rest, hcons, rfl⟩ := deliver_running hdelivered
        obtain ⟨-, rfl⟩ := List.cons.inj hcons
        exact .inl rfl
    | ret v => exact .inr (.inr ⟨_, _, h⟩)

/-- **A step of another activation** leaves one that waits as it is, or hands it the result. -/
theorem step_apart {world : World} {current : Activation} {above : List Waiting} {c : Waiting}
    {i : Insn} {t : RunState}
    (ht : p.step limits ⟨world, current, above ++ c :: below⟩ i = .running t) :
    t.Has below c.activation (if c.ret = .void then 0 else 1) ∨
      ∃ v, c.ret ≠ .void ∧ t.Has below { c.activation with stack :=
        v :: c.activation.stack } 0 := by
  obtain ⟨world', current', callers⟩ := t
  rcases step_callers ht with hcallers | ⟨new, hcallers⟩ | ⟨w, v, hdelivered⟩
  · obtain rfl : callers = _ := hcallers
    exact .inl (.waiting world' current' above _ _)
  · obtain rfl : callers = _ := hcallers
    exact .inl (.waiting world' current' (new :: above) _ _)
  · obtain ⟨first, rest, hcons, hsame⟩ := deliver_running hdelivered
    cases above with
    | nil =>
      obtain ⟨rfl, rfl⟩ := List.cons.inj hcons
      rw [hsame]
      split
      · exact .inl (.working _ _)
      · rename_i hret
        exact .inr ⟨_, hret, .working _ _⟩
    | cons other above =>
      obtain ⟨rfl, rfl⟩ := List.cons.inj hcons
      rw [hsame]
      exact .inl (.waiting w _ above _ _)

theorem step_waiting {world : World} {current : Activation} {above : List Waiting} {c : Waiting}
    (hc : c.activation.Stands m heights (if c.ret = .void then 0 else 1)) {i : Insn} {t : RunState}
    (ht : p.step limits ⟨world, current, above ++ c :: below⟩ i = .running t) :
    ∃ a pending, t.Has below a pending ∧ a.Stands m heights pending := by
  rcases step_apart ht with hhas | ⟨v, hret, hhas⟩
  · exact ⟨_, _, hhas, hc⟩
  · rw [if_neg hret] at hc
    exact ⟨_, _, hhas, hc.routine, hc.locals, hc.height⟩

variable {world : World} {a : Activation} (ha : a.Stands m heights 0)
include ha

/-- **Where an activation stands**, there is an instruction that stands at the height of its stack.
-/
theorem insn_of_stands (hfits : Fits m heights depth) : ∃ i, a.routine.insns[a.pc]? = some i ∧
    Stands m heights depth a.pc i a.stack.length := by
  obtain ⟨i, hi, hstands⟩ := hfits.stands a.pc _ ha.height
  refine ⟨i, ?_, hstands⟩
  rw [ha.routine, Routine.insns_getElem?, hi]

/-- Its next instruction does what it says. -/
theorem perform_stands (below : List Waiting) (world : World) {i : Insn}
    (hi : Stands m heights depth a.pc i a.stack.length) :
    Action.Wp (Work.perform a.routine.key a.underflow (RunState.inUse a below) i)
      (fun t b => b.locals.size = a.locals.size ∧ Work.Shape i a.stack.length t b)
      (fun e _ => e.isStructural = false) ⟨world, a.locals, a.stack⟩ :=
  Work.perform_upright _ _ _ (b := ⟨world, a.locals, a.stack⟩) hi.operands
    fun l hl => Nat.lt_of_lt_of_le (hi.slot l hl) ha.locals

/-- **An activation that stands raises no failure of code that is not in order.** -/
theorem raises?_stands (hfits : Fits m heights depth) {e : RunError}
    (he : (⟨world, a, below⟩ : RunState).raises? = some e) :
    e.isStructural = false := by
  obtain ⟨i, hi, hstands⟩ := insn_of_stands ha hfits
  have hwp := perform_stands ha below world hstands
  unfold RunState.raises? at he
  simp only [hi] at he
  unfold Action.Wp at hwp
  split at hwp
  · rename_i t b hout
    rw [hout] at he
    cases t with
    | jump label =>
      -- the label that an instruction jumps to is there
      obtain ⟨target, htarget, -⟩ := hstands.jumps label hwp.2.1
      simp [ha.routine, Routine.ofMethod, htarget] at he
    | _ => exact absurd he (by simp)
  · rename_i e' b hout
    rw [hout] at he
    exact Option.some.inj he ▸ hwp

/-- **One step of the activation itself.** -/
theorem step_stands (hfits : Fits m heights depth) {i : Insn} {t : RunState}
    (hi : a.routine.insns[a.pc]? = some i) (ht : p.step limits ⟨world, a, below⟩ i = .running t)
    (halive : below.length ≤ t.callers.length) :
    ∃ a' pending, t.Has below a' pending ∧ a'.Stands m heights pending := by
  obtain ⟨j, hj, hstands⟩ := insn_of_stands ha hfits
  obtain rfl := Option.some.inj (hi.symm.trans hj)
  have hwp := perform_stands ha below world hstands
  unfold Action.Wp at hwp
  split at hwp
  · rename_i transfer b hout
    obtain ⟨hsize, hshape⟩ := hwp
    have hlocals : m.maxLocals ≤ b.locals.size := hsize ▸ ha.locals
    rw [step_of_ok hout] at ht
    cases transfer with
    | next =>
      cases ht
      refine ⟨_, 0, .working _ _, ha.routine, hlocals, ?_⟩
      simp only [hshape.2, Nat.add_zero]
      exact hstands.falls hshape.1
    | jump label =>
      obtain ⟨target, htarget, hheight⟩ := hstands.jumps label hshape.1
      simp only [Program.transfer, ha.routine, Routine.ofMethod, htarget] at ht
      cases ht
      refine ⟨_, 0, .working _ _, ?_, hlocals, ?_⟩
      · rfl
      · simp only [hshape.2, Nat.add_zero]
        exact hheight
    | call target args =>
      obtain ⟨rfl, -, hstack⟩ := hshape
      have hpending : heights (a.pc + 1) =
          some (b.stack.length + if target.desc.ret = .void then 0 else 1) := by
        rw [hstack]
        exact hstands.falls rfl
      rcases enter_running ht with ⟨_, _, _, rfl⟩ | ⟨_, _, _, _, _, _, hdelivered⟩
      · exact ⟨_, _, .waiting _ _ [] _ _, ha.routine, hlocals, hpending⟩
      · -- a native has delivered its result at once
        obtain ⟨c, rest, hcons, rfl⟩ := deliver_running hdelivered
        obtain ⟨rfl, rfl⟩ := List.cons.inj hcons
        refine ⟨_, 0, .working _ _, ?_⟩
        simp only at hpending ⊢
        split
        · rename_i hvoid
          rw [if_pos hvoid] at hpending
          exact ⟨ha.routine, hlocals, hpending⟩
        · rename_i hvoid
          rw [if_neg hvoid] at hpending
          exact ⟨ha.routine, hlocals, hpending⟩
    | ret v =>
      obtain ⟨c, rest, rfl, rfl⟩ := deliver_running ht
      simp only [List.length_cons] at halive
      omega
  · rename_i e b hout
    rw [step_of_error hout] at ht
    exact absurd ht (by simp)

omit ha

/-- **As long as it is alive**, an activation of a method stands where the heights say. -/
theorem Within.stands (hfits : Fits m heights depth) {start s : RunState}
    (h : p.Within limits below.length start s)
    (hstart : ∃ a pending, start.Has below a pending ∧ a.Stands m heights pending) :
    ∃ a pending, s.Has below a pending ∧ a.Stands m heights pending := by
  induction h with
  | start => exact hstart
  | step _ hi ht halive ih =>
    obtain ⟨a, pending, hhas, hstands⟩ := ih
    cases hhas with
    | working world a => exact step_stands hstands hfits hi ht halive
    | waiting world current above a ret => exact step_waiting (c := ⟨a, ret⟩) hstands ht

end Program

/-! ## 4. Verified methods -/

/-- What a depth of stack promises of a method: called with as many arguments as it has parameters,
on any world, in any program and above any other activations, it starts; and as long as its
activation is alive, the stack has the one height found for the instruction it stands at, no more
than the depth, and the activation itself raises no failure of code that is not in order. -/
def Method.Upright (m : Method) (depth : Nat) : Prop :=
  ∃ heights : List (Option Nat), stackHeights m = .ok (heights, depth) ∧
    ∀ (p : Program) (limits : MachineSettings) (world : World) (below : List Waiting)
      (args : List Value), args.length = m.paramSlots →
      ∃ start, Program.activate world below (.ofMethod m) args = .running start ∧
        ∀ s, p.Within limits below.length start s → ∃ a pending, s.Has below a pending ∧
          a.routine = .ofMethod m ∧ (heights[a.pc]?).join = some (a.stack.length + pending) ∧
          a.stack.length + pending ≤ depth ∧
          ∀ e, s.callers = below → s.raises? = some e → e.isStructural = false

theorem Method.upright_of_requiredStack {m : Method} {depth : Nat}
    (h : requiredStack m = .ok depth) :
    m.Upright depth := by
  unfold requiredStack at h
  split at h
  · exact absurd h (by simp)
  · rename_i heights deepest hheights
    obtain rfl := Except.ok.inj h
    obtain ⟨hlabels, hfits⟩ := stackHeights_fits hheights
    refine ⟨heights, hheights, fun p limits world below args hargs => ?_⟩
    refine ⟨⟨world, ⟨.ofMethod m, 0, (Routine.ofMethod m).locals args, []⟩, below⟩, ?_,
      fun s hs => ?_⟩
    · simp [Program.activate, Routine.ofMethod, hlabels, hargs]
    · have hlocals : m.maxLocals ≤ ((Routine.ofMethod m).locals args).size := by
        simp [Routine.locals, Routine.ofMethod]
        omega
      obtain ⟨a, pending, hhas, hstands⟩ := hs.stands hfits
        ⟨_, 0, .working _ _, rfl, hlocals, hfits.first⟩
      obtain ⟨i, -, hi⟩ := hfits.stands _ _ hstands.height
      refine ⟨a, pending, hhas, hstands.routine, hstands.height, hi.before, fun e hcallers he => ?_⟩
      cases hhas with
      | working world a => exact Program.raises?_stands hstands hfits he
      | waiting world current above a ret =>
        -- as many wait as at the start, so it is at work itself
        have := congrArg List.length hcallers
        simp only [List.length_append, List.length_cons] at this
        omega

/-- What weaving returns has passed the last check. -/
theorem Weaver.weaveMethod_required {w : Weaver} {breakInterning : Bool} {pool pool' : LiteralPool}
    {m m' : Method} {kinds : List SiteKind}
    (h : w.weaveMethod breakInterning pool m = (.ok (some (m', kinds)), pool')) :
    ∃ depth, requiredStack m' = .ok depth ∧ depth ≤ m'.maxStack := by
  unfold weaveMethod at h
  split at h
  · exact absurd h (by simp)
  · simp only at h
    split at h
    · exact absurd h (by simp)
    · split at h
      · exact absurd h (by simp)
      · split at h
        · split at h
          · exact absurd h (by simp)
          · rename_i woven hwoven
            simp only [Prod.mk.injEq, Except.ok.injEq, Option.some.injEq] at h
            obtain ⟨⟨rfl, -⟩, -⟩ := h
            obtain ⟨rfl, -, hdepth⟩ := of_checkDepth hwoven
            exact hdepth
        · exact absurd h (by simp)

/-- **A method with a depth of stack never needs more and is in order**, hooks and all; and every
method that weaving returns has one, within the stack that it declares. -/
theorem requiredStack_upright :
    (∀ (m : Method) (depth : Nat), requiredStack m = .ok depth → m.Upright depth) ∧
    ∀ (w : Weaver) (breakInterning : Bool) (pool pool' : LiteralPool) (m m' : Method)
      (kinds : List SiteKind),
      w.weaveMethod breakInterning pool m = (.ok (some (m', kinds)), pool') →
      ∃ depth, requiredStack m' = .ok depth ∧ depth ≤ m'.maxStack ∧ m'.Upright depth := by
  refine ⟨fun m depth h => m.upright_of_requiredStack h,
    fun w breakInterning pool pool' m m' kinds h => ?_⟩
  obtain ⟨depth, hdepth, hle⟩ := Weaver.weaveMethod_required h
  exact ⟨depth, hdepth, hle, m'.upright_of_requiredStack hdepth⟩

/-- A loop that hands over a call record in every round and shows two operands as a text. -/
def handingOver : Method :=
  ⟨"demo/Loop", "run", ⟨[.int], .void⟩, true, 3, 1,
    [.label 0, .load 0, .ifZero .eq 1, .hook (.invocationCreate "g ()V"), .const .null,
      .hook (.invocationSetArg 0), .hook .invocationCalling, .load 0, .const .null,
      .hook (.concatWithPoints [.int] "T"), .pop, .pop, .goto 0, .label 1, .ret .void]⟩

/-- A method that hands an element on; weaving hands its origin on as well. -/
def handingOn : Method :=
  ⟨"demo/Hand", "run", ⟨[.array .char], .void⟩, true, 2, 1,
    [.load 0, .const (.int 0), .arrayLoad .char,
      .invoke ⟨.static, "demo/Sink", "put", ⟨[.char], .void⟩⟩, .ret .void]⟩

/-- The loop never holds more than three operands, and what weaving makes of the other method fits
the stack that it declares. -/
theorem handingOver_upright :
    requiredStack handingOver = .ok 3 ∧ handingOver.Upright 3 ∧
      ∃ woven kinds pool', Weaver.everywhere.weaveMethod false
        (.ofClass (.empty .default) "demo/Hand")
          handingOn = (.ok (some (woven, kinds)), pool') ∧
        ∃ depth, depth ≤ woven.maxStack ∧ woven.Upright depth := by
  have hloop : requiredStack handingOver = .ok 3 := by decide +kernel
  have hwoven : (Weaver.everywhere.weaveMethod false (.ofClass (.empty .default) "demo/Hand")
      handingOn).1.toOption.join.isSome := by decide +kernel
  refine ⟨hloop, requiredStack_upright.1 _ _ hloop, ?_⟩
  rcases hr : Weaver.everywhere.weaveMethod false (.ofClass (.empty .default) "demo/Hand")
    handingOn with
    ⟨r, pool'⟩
  rw [hr] at hwoven
  match r, hwoven with
  | .ok (some (woven, kinds)), _ =>
    obtain ⟨depth, -, hle, hupright⟩ := requiredStack_upright.2 _ _ _ _ _ _ _ hr
    exact ⟨woven, kinds, pool', rfl, depth, hle, hupright⟩

end Provenance
