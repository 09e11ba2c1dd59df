/-
# Runs under other names

Two states of a run are namesakes if they stand at the same places and hold the same under a
renaming (`RunState.Renamed`).  A step keeps them so, as long as all strings are instances of
literals and no copies of one string are compared (`proceed_renamed`), and so does copying a string
on top of the stack (`RunState.Renamed.copied`).
-/
import Provenance.Proofs.Counterparts

namespace Provenance

variable {R R' : Renaming}

/-! ## 1. States -/

/-- Activations that stand at the same place and hold the same under a renaming. -/
structure Activation.Renamed (R : Renaming) (a a' : Activation) : Prop where
  routine : a'.routine = a.routine
  pc : a'.pc = a.pc
  locals : List.Forall₂ (Value.Renamed R) a.locals.toList a'.locals.toList
  stack : List.Forall₂ (Value.Renamed R) a.stack a'.stack

/-- Activations that wait for the same. -/
structure Waiting.Renamed (R : Renaming) (c c' : Waiting) : Prop where
  ret : c'.ret = c.ret
  activation : c.activation.Renamed R c'.activation

/-- Runs in progress that stand at the same places and hold the same under a renaming. -/
structure RunState.Renamed (R : Renaming) (s s' : RunState) : Prop where
  world : s.world.Renamed R s'.world
  current : s.current.Renamed R s'.current
  callers : List.Forall₂ (Waiting.Renamed R) s.callers s'.callers

/-- Two runs that both go on, as namesakes, or both end, in the same kind of way. -/
inductive Progress.Renamed (R : Renaming) : Progress → Progress → Prop where
  | running {s s' : RunState} {R' : Renaming} (hR : R.Grows R') (h : s.Renamed R' s') :
      Renamed R (.running s) (.running s')
  | ended {r r' : RunResult} (h : Both (fun _ _ => True) r.outcome r'.outcome) :
      Renamed R (.ended r) (.ended r')

/-- A program whose natives do not tell copies of a string apart, and hold on to values that keep
their names. -/
structure Program.Impartial (p : Program) (R : Renaming) : Prop where
  natives : ∀ e ∈ p.natives, e.2.Impartial
  held : ∀ e ∈ p.natives, ∀ v ∈ e.2.held, Value.Renamed R v v

variable {a a' : Activation} {c c' : Waiting} {s s' : RunState} {p : Program} {w w' : World}
  {callers callers' : List Waiting}

theorem Activation.Renamed.grow (h : a.Renamed R a') (hR : R.Grows R') : a.Renamed R' a' :=
  ⟨h.routine, h.pc, Value.Renamed.growAll h.locals hR, Value.Renamed.growAll h.stack hR⟩

theorem Waiting.Renamed.growAll (h : List.Forall₂ (Waiting.Renamed R) callers callers')
    (hR : R.Grows R') : List.Forall₂ (Waiting.Renamed R') callers callers' :=
  h.imp fun _ _ hc => ⟨hc.ret, hc.activation.grow hR⟩

theorem RunState.Renamed.bench (h : s.Renamed R s') : s.bench.Renamed R s'.bench :=
  ⟨h.world, h.current.locals, h.current.stack⟩

/-- Namesakes do the same instruction next. -/
theorem RunState.Renamed.insn (h : s.Renamed R s') : s'.insn? = s.insn? := by
  unfold RunState.insn?
  rw [h.current.routine, h.current.pc]

theorem Program.Impartial.grow (h : p.Impartial R) (hR : R.Grows R') : p.Impartial R' :=
  ⟨h.natives, fun e he v hv => (h.held e he v hv).grow hR⟩

theorem Progress.Renamed.of_grows {t t' : Progress} (h : Progress.Renamed R' t t')
    (hR : R.Grows R') :
    Progress.Renamed R t t' := by
  cases h with
  | running hR' h => exact .running (hR.trans hR') h
  | ended h => exact .ended h

/-! ## 2. Copies -/

/-- **A copy** is another name for the same string. -/
theorem Bench.Renamed.copied {b b' t : Bench} (h : b.Renamed R b') (ht : b'.Copied t) :
    ∃ R', R.Grows R' ∧ b.Renamed R' t := by
  induction ht with
  | refl => exact ⟨R, .refl R, h⟩
  | @copy b₁ o' S' chars _ hs ho ih =>
    obtain ⟨R₁, hR₁, h⟩ := ih
    have hstack := h.stack
    rw [hs] at hstack
    obtain ⟨w, L, S⟩ := b
    simp only at hstack
    cases hstack with
    | cons hv hstack =>
      cases hv with
      | same hv => cases hv
      | ref hrel =>
        obtain ⟨R₂, hR₂, hcopy, hheap⟩ := h.world.heap.copy hrel ho
        exact ⟨R₂, hR₁.trans hR₂, h.world.withHeap hR₂ hheap, Value.Renamed.growAll h.locals hR₂,
          .cons (.ref hcopy) (Value.Renamed.growAll hstack hR₂)⟩

theorem RunState.Renamed.copied {t : RunState} (h : s.Renamed R s') (ht : s'.Copied t) :
    ∃ R', R.Grows R' ∧ s.Renamed R' t := by
  obtain ⟨b, hb, rfl⟩ := ht
  obtain ⟨R', hR, hb⟩ := h.bench.copied hb
  exact ⟨R', hR, hb.world, ⟨h.current.routine, h.current.pc, hb.locals, hb.stack⟩,
    Waiting.Renamed.growAll h.callers hR⟩

/-! ## 3. Calls and results -/

/-- **Handing over a result.** -/
theorem deliver_renamed (hw : w.Renamed R w') {v v' : Option Value}
    (hv : Option.Rel (Value.Renamed R) v v')
    (hc : List.Forall₂ (Waiting.Renamed R) callers callers') :
    Progress.Renamed R (deliver w v callers) (deliver w' v' callers') := by
  cases hc with
  | nil => exact .ended (.ok trivial)
  | @cons c c' callers callers' hcaller hrest =>
    obtain ⟨a, ret⟩ := c
    obtain ⟨a', ret'⟩ := c'
    obtain ⟨rfl, ha⟩ := hcaller
    simp only at ha
    unfold deliver
    simp only
    split
    · exact .running (.refl R) ⟨hw, ha, hrest⟩
    · refine .running (.refl R) ⟨hw, ⟨ha.routine, ha.pc, ha.locals, .cons ?_ ha.stack⟩, hrest⟩
      cases hv with
      | none => exact Value.renamed_defaultFor R ret'
      | some hv => exact hv

/-- **Starting a method.** -/
theorem activate_renamed (hw : w.Renamed R w')
    (hc : List.Forall₂ (Waiting.Renamed R) callers callers') (r : Routine) {args args' : List Value}
    (hargs : List.Forall₂ (Value.Renamed R) args args') :
    Progress.Renamed R (Program.activate w callers r args)
      (Program.activate w' callers' r args') := by
  unfold Program.activate
  cases r.labelFault with
  | some e => exact .ended (.failed rfl)
  | none =>
    simp only [hargs.length_eq]
    split
    · refine .running (.refl R) ⟨hw, ⟨rfl, rfl, ?_, .nil⟩, hc⟩
      show List.Forall₂ _ (args ++ _) (args' ++ _)
      rw [hargs.length_eq]
      refine List.rel_append hargs (List.forall₂_same.mpr fun v hv => ?_)
      rw [List.eq_of_mem_replicate hv]
      exact .same rfl
    · exact .ended (.failed rfl)

/-- **Calling a native.** -/
theorem callNative_renamed (hw : w.Renamed R w')
    (hc : List.Forall₂ (Waiting.Renamed R) callers callers') {n : Native} (hn : n.Impartial)
    (hheld : ∀ v ∈ n.held, Value.Renamed R v v) (key signature : String) {args args' : List Value}
    (hargs : List.Forall₂ (Value.Renamed R) args args') :
    Progress.Renamed R (Program.callNative w callers n key signature args)
      (Program.callNative w' callers' n key signature args') := by
  unfold Program.callNative
  rw [hw.store]
  obtain ⟨R', hR, hw', hboth⟩ := hn R hheld key (w.store.claim signature).1 args args'
    hargs R (.refl R) { w with store := (w.store.claim signature).2 } { w' with store :=
    (w.store.claim signature).2 } ⟨hw.heap, hw.literals, rfl⟩
  simp only
  generalize (n.body ⟨key, args, (w.store.claim signature).1⟩).outcome
    { w with store := (w.store.claim signature).2 } = r at hw' hboth ⊢
  generalize (n.body ⟨key, args', (w.store.claim signature).1⟩).outcome
    { w' with store := (w.store.claim signature).2 } = r' at hw' hboth ⊢
  obtain ⟨r, t⟩ := r
  obtain ⟨r', t'⟩ := r'
  cases hboth with
  | ok hv => exact (deliver_renamed hw' hv (Waiting.Renamed.growAll hc hR)).of_grows hR
  | failed he => exact .ended (.failed he)

/-- **Calling a method**, loaded or native. -/
theorem enter_renamed (hp : p.Impartial R) (limits : MachineSettings) (hw : w.Renamed R w')
    (hc : List.Forall₂ (Waiting.Renamed R) callers callers') (owner name descriptor : String)
    {args args' : List Value} (hargs : List.Forall₂ (Value.Renamed R) args args') :
    Progress.Renamed R (p.enter limits w callers owner name descriptor args)
      (p.enter limits w' callers' owner name descriptor args') := by
  unfold Program.enter
  rw [hc.length_eq]
  split
  · exact .ended (.failed rfl)
  · cases p.routine? owner name descriptor with
    | some r => exact activate_renamed hw hc r hargs
    | none =>
      simp only
      cases hn : p.native? (methodKey owner name descriptor) with
      | none => exact .ended (.failed rfl)
      | some n =>
        have hmem : (methodKey owner name descriptor, n) ∈ p.natives := mem_of_lookup hn
        exact callNative_renamed hw hc (hp.natives _ hmem) (hp.held _ hmem) _ _ hargs

/-! ## 4. Steps -/

/-- **Going on** as an instruction says. -/
theorem transfer_renamed (hp : p.Impartial R) (limits : MachineSettings) (hw : w.Renamed R w')
    (ha : a.Renamed R a') (hc : List.Forall₂ (Waiting.Renamed R) callers callers') {t t' : Transfer}
    (ht : Transfer.Renamed R t t') :
    Progress.Renamed R (p.transfer limits w a callers t) (p.transfer limits w' a' callers' t') := by
  obtain ⟨r, pc, L, S⟩ := a
  obtain ⟨r', pc', L', S'⟩ := a'
  obtain ⟨rfl, rfl, hL, hS⟩ := ha
  simp only at hL hS
  cases ht with
  | next => exact .running (.refl R) ⟨hw, ⟨rfl, rfl, hL, hS⟩, hc⟩
  | jump l =>
    unfold Program.transfer
    simp only
    cases r'.method.labelAt? l with
    | none => exact .ended (.failed rfl)
    | some pc => exact .running (.refl R) ⟨hw, ⟨rfl, rfl, hL, hS⟩, hc⟩
  | call m hargs =>
    have hwaiting : Waiting.Renamed R ⟨⟨r', pc' + 1, L, S⟩, m.desc.ret⟩
        ⟨⟨r', pc' + 1, L', S'⟩, m.desc.ret⟩ :=
      ⟨rfl, rfl, rfl, hL, hS⟩
    exact enter_renamed hp limits hw (.cons hwaiting hc) _ _ _ hargs
  | ret hv => exact deliver_renamed hw hv hc

/-- Transfers of one kind make the same branch. -/
theorem Transfer.Renamed.branches {t t' : Transfer} (h : Transfer.Renamed R t t') (i : Insn) :
    i.branches t' = i.branches t := by
  unfold Insn.branches
  cases i.jumpTarget? <;> cases h <;> rfl

/-- **Every step** of namesakes goes on as namesakes and takes the same branch, as long as all
strings are instances of literals and it compares no copies of one string; the one that has no
copies concatenates nothing. -/
theorem proceed_renamed (hp : p.Impartial R) (limits : MachineSettings)
    (h : s.Renamed R s') {i : Insn} (hhook : ∀ hk, i ≠ .hook hk) {byText : Bool}
    (htext : byText = true → s.world.onlyLiterals = true)
    (hcopies : byText = false → i.comparison?.isSome → s'.bench.onCopies = false)
    (hnext : ∀ t, p.step limits s i = .running t → t.world.onlyLiterals = true) :
    Progress.Renamed R (p.step limits s i) (p.proceed limits s' (s'.outcome byText i)) ∧
      i.branchesOf (s'.outcome byText i) = i.branchesOf (s.outcome false i) := by
  obtain ⟨w, ⟨r, pc, L, S⟩, callers⟩ := s
  obtain ⟨w', ⟨r', pc', L', S'⟩, callers'⟩ := s'
  have hb := h.bench
  obtain ⟨-, ⟨rfl, rfl, -, -⟩, hc⟩ := h
  simp only at hc
  rw [Program.step_eq] at hnext ⊢
  unfold RunState.outcome at hnext ⊢
  simp only [Work.performAs_false] at hnext ⊢
  have hparallel := Work.performAs_parallel r'.key (.stackUnderflow r'.key pc')
    (RunState.inUse ⟨r', pc', L, S⟩ callers) (RunState.inUse ⟨r', pc', L', S'⟩ callers')
    hhook hb htext hcopies
  simp only [RunState.bench, Activation.underflow] at hparallel hnext ⊢
  rcases hparallel with ⟨b, hout, hliteral⟩ | ⟨R', hR, hb', hboth⟩
  · -- a new string that is no literal
    rw [hout] at hnext
    rw [hnext _ rfl] at hliteral
    cases hliteral
  · generalize (Work.perform _ _ _ i).outcome _ = r at hb' hboth ⊢
    generalize (Work.performAs byText _ _ _ i).outcome _ = q at hb' hboth ⊢
    obtain ⟨t, b⟩ := r
    obtain ⟨t', b'⟩ := q
    simp only at hb' hboth
    cases hboth with
    | failed he => exact ⟨.ended (.failed he), rfl⟩
    | ok ht =>
      have ha : Activation.Renamed R' ⟨r', pc', b.locals, b.stack⟩ ⟨r', pc', b'.locals, b'.stack⟩ :=
        ⟨rfl, rfl, hb'.locals, hb'.stack⟩
      have hcallers := Waiting.Renamed.growAll hc hR
      have hnext := transfer_renamed (hp.grow hR) limits hb'.world ha hcallers ht
      exact ⟨hnext.of_grows hR, ht.branches i⟩

end Provenance
