/-
# Notes beside a run

A run can be watched: beside each activation a note is kept that changes with what the activation
does (`Notes`).  The machine does not see the notes; they say in so many words what statements about
a whole run speak of, such as where a value came from.

What a note says is shown for one step at a time: `Notes.Keeps` is what has to hold of the steps,
and `Notes.Keeps.traced` carries it over to every run.
-/
import Provenance.Proofs.Reaching

namespace Provenance

/-- A way to take notes. -/
structure Notes (G : Type) where
  /-- The note of an activation that starts, given that of its caller if it has one. -/
  start : Option G → G
  /-- The note of the current activation after an instruction. -/
  after : RunState → Insn → G → G

namespace Notes

variable {G : Type}

/-! ## 1. Traces -/

/-- The notes after a step, the current activation first: a method has started, or returned, or
neither. -/
def afterStep (N : Notes G) (i : Insn) (s s' : RunState) : List G → List G
  | [] => []
  | g :: gs =>
    let here := N.after s i g
    if s.callers.length < s'.callers.length then N.start (some g) :: here :: gs
    else if s'.callers.length < s.callers.length then gs
    else here :: gs

/-- The state after that many steps, with the notes. -/
def trace (N : Notes G) (p : Program) (limits : MachineSettings) :
    Nat → RunState → List G → Option (RunState × List G)
  | 0, s, gs => some (s, gs)
  | n + 1, s, gs =>
    match s.current.routine.insns[s.current.pc]? with
    | none => none
    | some i =>
      match p.step limits s i with
      | .running s' => N.trace p limits n s' (N.afterStep i s s' gs)
      | .ended _ => none

/-- The state that an invocation from outside comes to after that many steps, with the notes. -/
def follow (N : Notes G) (p : Program) (limits : MachineSettings) (w : World)
    (owner name descriptor : String) (args : List Value) (n : Nat) : Option (RunState × List G) :=
  match p.enter limits w [] owner name descriptor args with
  | .running s => N.trace p limits n s [N.start none]
  | .ended _ => none

/-- A state that an invocation comes to, with the notes.  Of the world in which it was invoked
nothing is assumed, so other invocations may have gone before. -/
def Traced (N : Notes G) (p : Program) (limits : MachineSettings) (s : RunState) (gs : List G) :
    Prop :=
  ∃ w owner name descriptor args n, N.follow p limits w owner name descriptor args n = some (s, gs)

/-! ## 2. Invariants -/

/-- A property of activations with their notes that every step keeps: `A` of the one at work, `W` of
one that waits, of which it is known only that it will go on with some result in some world. -/
structure Keeps (N : Notes G) (p : Program) (A : Activation → World → G → Prop)
    (W : Waiting → G → Prop) : Prop where
  /-- A method starts, for a caller or for none. -/
  starts : ∀ {owner name descriptor : String} {r : Routine} {args : List Value} (w : World),
    p.routine? owner name descriptor = some r → args.length = r.method.paramSlots →
    A ⟨r, 0, r.locals args, []⟩ w (N.start none)
  /-- A waiting activation gets a result. -/
  resumes : ∀ {x : Waiting} {g : G} (w : World) (v : Value), W x g →
    A (if x.ret = .void then x.activation
      else { x.activation with stack := v :: x.activation.stack }) w g
  /-- An instruction that goes on in the method. -/
  goes : ∀ {s : RunState} {g : G} {i : Insn} {b : Bench} {t : Transfer},
    A s.current s.world g → s.current.routine.insns[s.current.pc]? = some i →
    (Work.perform s.current.routine.key s.current.underflow
      (RunState.inUse s.current s.callers) i).outcome ⟨s.world, s.current.locals, s.current.stack⟩ =
        (.ok t, b) →
    match t with
    | .next => A { s.current with pc := s.current.pc + 1, locals := b.locals, stack := b.stack }
        b.world (N.after s i g)
    | .jump label => ∀ pc, s.current.routine.method.labelAt? label = some pc →
        A { s.current with pc, locals := b.locals, stack := b.stack } b.world (N.after s i g)
    | .call target args =>
        W ⟨{ s.current with pc := s.current.pc + 1, locals := b.locals, stack := b.stack },
          target.desc.ret⟩ (N.after s i g) ∧
        ∀ r, p.routine? target.owner target.name target.desc.descriptor = some r →
          args.length = r.method.paramSlots →
          A ⟨r, 0, r.locals args, []⟩ b.world (N.start (some g))
    | .ret _ => True

/-- A run with its notes in which the property holds of every activation. -/
structure Holding (A : Activation → World → G → Prop) (W : Waiting → G → Prop) (s : RunState)
    (g : G) (gs : List G) : Prop where
  current : A s.current s.world g
  callers : List.Forall₂ W s.callers gs

variable {N : Notes G} {p : Program} {limits : MachineSettings} {s s' : RunState} {w : World}
  {callers : List Waiting} {A : Activation → World → G → Prop} {W : Waiting → G → Prop} {g : G}
  {gs : List G}

/-- **Handing over a result.** -/
theorem Keeps.deliver (h : N.Keeps p A W) (hc : List.Forall₂ W callers gs) {v : Option Value}
    (hs : deliver w v callers = .running s') :
    ∃ g' gs', gs = g' :: gs' ∧ s'.callers.length + 1 = callers.length ∧ Holding A W s' g' gs' := by
  obtain ⟨x, rest, rfl, rfl⟩ := Program.deliver_running hs
  cases hc with
  | cons hx hrest => exact ⟨_, _, rfl, rfl, h.resumes w _ hx, hrest⟩

/-- **Calling.**  Either a method starts, or a native hands over its result. -/
theorem Keeps.enter (h : N.Keeps p A W) (hc : List.Forall₂ W callers gs)
    {owner name descriptor : String} {args : List Value}
    (hstart : ∀ r, p.routine? owner name descriptor = some r →
      args.length = r.method.paramSlots → A ⟨r, 0, r.locals args, []⟩ w g)
    (hs : p.enter limits w callers owner name descriptor args = .running s') :
    (s'.callers = callers ∧ Holding A W s' g gs) ∨
      ∃ g' gs', gs = g' :: gs' ∧ s'.callers.length + 1 = callers.length ∧
        Holding A W s' g' gs' := by
  rcases Program.enter_running hs with ⟨r, hr, hlen, rfl⟩ | ⟨_, _, _, _, _, _, hs⟩
  · exact .inl ⟨rfl, hstart r hr hlen, hc⟩
  · exact .inr (h.deliver hc hs)

/-- **One step.** -/
theorem Keeps.step (h : N.Keeps p A W) (hh : Holding A W s g gs) {i : Insn}
    (hi : s.current.routine.insns[s.current.pc]? = some i)
    (hs : p.step limits s i = .running s') :
    ∃ g' gs', N.afterStep i s s' (g :: gs) = g' :: gs' ∧ Holding A W s' g' gs' := by
  obtain ⟨w, ⟨r, pc, L, S⟩, callers⟩ := s
  obtain ⟨hcurrent, hc⟩ := hh
  rcases hout : (Work.perform r.key (.stackUnderflow r.key pc)
    (RunState.inUse ⟨r, pc, L, S⟩ callers) i).outcome ⟨w, L, S⟩ with ⟨outcome, b⟩
  cases outcome with
  | error e =>
    rw [Program.step_of_error (a := ⟨r, pc, L, S⟩) hout] at hs
    exact absurd hs (by simp)
  | ok t =>
    rw [Program.step_of_ok (a := ⟨r, pc, L, S⟩) hout] at hs
    have hgoes := h.goes (s := ⟨w, ⟨r, pc, L, S⟩, callers⟩) hcurrent hi hout
    unfold afterStep
    cases t with
    | next =>
      obtain rfl := Progress.running.inj hs
      simp only [Nat.lt_irrefl, if_false]
      exact ⟨_, _, rfl, hgoes, hc⟩
    | jump label =>
      unfold Program.transfer at hs
      simp only at hs
      split at hs
      · rename_i pc' hpc
        obtain rfl := Progress.running.inj hs
        simp only [Nat.lt_irrefl, if_false]
        exact ⟨_, _, rfl, hgoes pc' hpc, hc⟩
      · exact absurd hs (by simp)
    | call target args =>
      obtain ⟨hwaiting, hstart⟩ := hgoes
      rcases h.enter (.cons hwaiting hc) hstart hs with ⟨hcallers, hh⟩ |
        ⟨g', gs', hgs, hcallers, hh⟩
      · rw [hcallers]
        simp only [List.length_cons, Nat.lt_succ_self, if_true]
        exact ⟨_, _, rfl, hh⟩
      · obtain ⟨rfl, rfl⟩ := List.cons.inj hgs
        rw [List.length_cons] at hcallers
        simp only [Nat.succ.inj hcallers, Nat.lt_irrefl, if_false]
        exact ⟨_, _, rfl, hh⟩
    | ret v =>
      obtain ⟨g', gs', rfl, hcallers, hh⟩ := h.deliver hc hs
      have hlt : s'.callers.length < callers.length := Nat.lt_of_succ_le (Nat.le_of_eq hcallers)
      exact ⟨_, _, (if_neg (Nat.lt_asymm hlt)).trans (if_pos hlt), hh⟩

/-- **A whole run.** -/
theorem Keeps.trace (h : N.Keeps p A W) : ∀ {n : Nat} {s : RunState} {g : G} {gs gs' : List G},
    Holding A W s g gs → N.trace p limits n s (g :: gs) = some (s', gs') →
    ∃ g' gs'', gs' = g' :: gs'' ∧ Holding A W s' g' gs''
  | 0, _, _, _, _, hh, ht => by
    obtain ⟨rfl, rfl⟩ := Prod.mk.inj (Option.some.inj ht)
    exact ⟨_, _, rfl, hh⟩
  | n + 1, s, g, gs, _, hh, ht => by
    unfold Notes.trace at ht
    split at ht
    · exact absurd ht (by simp)
    · rename_i i hi
      split at ht
      · rename_i t hstep
        obtain ⟨g₁, gs₁, hafter, h₁⟩ := h.step hh hi hstep
        rw [hafter] at ht
        exact Keeps.trace h h₁ ht
      · exact absurd ht (by simp)

/-- **What every step keeps holds in every run.** -/
theorem Keeps.traced (h : N.Keeps p A W) (ht : N.Traced p limits s (g :: gs)) :
    Holding A W s g gs := by
  obtain ⟨w, owner, name, descriptor, args, n, hfollow⟩ := ht
  unfold follow at hfollow
  split at hfollow
  · rename_i s₀ henter
    rcases h.enter .nil (fun r hr hlen => h.starts w hr hlen) henter with ⟨-, hh⟩ | ⟨_, _, hgs, -⟩
    · obtain ⟨g', gs', hgs, hh'⟩ := h.trace hh hfollow
      obtain ⟨rfl, rfl⟩ := List.cons.inj hgs
      exact hh'
    · exact absurd hgs (by simp)
  · exact absurd hfollow (by simp)

/-! ## 3. Notes that say less -/

/-- Notes to which other notes come down. -/
structure Refines {H : Type} (N : Notes G) (M : Notes H) (f : G → H) : Prop where
  start : ∀ g, f (N.start g) = M.start (g.map f)
  after : ∀ s i g, f (N.after s i g) = M.after s i (f g)

section Refining

variable {H : Type} {M : Notes H} {f : G → H}

theorem Refines.afterStep (h : N.Refines M f) (i : Insn) (s s' : RunState) (gs : List G) :
    M.afterStep i s s' (gs.map f) = (N.afterStep i s s' gs).map f := by
  cases gs with
  | nil => rfl
  | cons g gs =>
    simp only [Notes.afterStep, List.map_cons]
    split
    · rw [List.map_cons, List.map_cons, h.start, h.after, Option.map_some]
    · split
      · rfl
      · rw [List.map_cons, h.after]

theorem Refines.trace (h : N.Refines M f) : ∀ (n : Nat) (s : RunState) (gs : List G),
    M.trace p limits n s (gs.map f) = (N.trace p limits n s gs).map fun x => (x.1, x.2.map f)
  | 0, _, _ => rfl
  | n + 1, s, gs => by
    unfold Notes.trace
    split
    · rfl
    · split
      · rw [h.afterStep]
        exact h.trace n _ _
      · rfl

theorem Refines.follow (h : N.Refines M f) (w : World) (owner name descriptor : String)
    (args : List Value) (n : Nat) : M.follow p limits w owner name descriptor args n =
      (N.follow p limits w owner name descriptor args n).map fun x => (x.1, x.2.map f) := by
  unfold Notes.follow
  split
  · rename_i t _
    have hstart : [M.start none] = [N.start none].map f :=
      congrArg (fun o => [o]) (h.start none).symm
    rw [hstart]
    exact h.trace n t _
  · rfl

/-- **A run can be watched more closely.** -/
theorem Refines.traced (h : N.Refines M f) {hs : List H} (ht : M.Traced p limits s hs) :
    ∃ gs, gs.map f = hs ∧ N.Traced p limits s gs := by
  obtain ⟨w, owner, name, descriptor, args, n, hfollow⟩ := ht
  rw [h.follow] at hfollow
  obtain ⟨⟨t, gs⟩, hgs, heq⟩ := Option.map_eq_some_iff.mp hfollow
  obtain ⟨rfl, rfl⟩ := Prod.mk.inj heq
  exact ⟨gs, rfl, w, owner, name, descriptor, args, n, hgs⟩

/-- Or less closely. -/
theorem Refines.blurred (h : N.Refines M f) (ht : N.Traced p limits s gs) :
    M.Traced p limits s (gs.map f) := by
  obtain ⟨w, owner, name, descriptor, args, n, hfollow⟩ := ht
  exact ⟨w, owner, name, descriptor, args, n, by rw [h.follow, hfollow]; rfl⟩

end Refining

end Notes

end Provenance
