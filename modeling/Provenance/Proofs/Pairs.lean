/-
# A program and its woven form

Two programs are a pair if they have the same natives and, under each name, the same method or a
method and its woven form (`Program.Pair`).  Two activations are a pair if they run such methods
and stand at the same place: the woven one in front of the block of the instruction at which the
other one stands, or in front of code that keeps to itself (`Activation.Pair`).

This file shows that starting methods and handing over results keep pairs of runs pairs; the next
one shows it of single instructions.
-/
import Provenance.Proofs.Adding
import Provenance.Proofs.Mirroring
import Provenance.Proofs.Reaching

namespace Provenance

/-! ## 1. Pairs of programs -/

/-- A call that no loaded method answers, but a native. -/
def Program.Answers (p : Program) (m : MethodRef) (body : NativeBody) : Prop :=
  p.routine? m.owner m.name m.desc.descriptor = none ∧
    ∃ held, p.native? (methodKey m.owner m.name m.desc.descriptor) = some ⟨body, held⟩

/-- A call that, if weaving takes it for one of a built-in native, is one. -/
structure Program.Standard (p : Program) (m : MethodRef) : Prop where
  arrayCopy : Carrier.isArrayCopy m = true →
    m.operandCount = 5 ∧ m.desc.ret = .void ∧ p.Answers m Native.arrayCopy
  charAt : Carrier.isCharAt m = true → m.operandCount = 2 ∧ p.Answers m Native.charAt
  clone : (Carrier.clonedArray? m).isSome →
    m.operandCount = 1 ∧ m.desc.ret ≠ .void ∧ p.Answers m Native.clone

/-- A woven method that makes only standard calls, and in which, if strings are said to be
`interned`, they keep their identity. -/
structure Woven.Faithful (v : Woven) (interned : Prop) (p : Program) : Prop where
  literals : interned → ∀ k text, ⟨k, .stringLiteral text⟩ ∉ v.sites
  comparisons : interned → ∀ k equal target, ⟨k, .stringComparison equal target⟩ ∉ v.sites
  calls : ∀ m, .invoke m ∈ v.method.insns → p.Standard m

/-- A method and what it is in the woven program. -/
inductive Routine.Pair (interned : Prop) (p : Program) : Routine → Routine → Prop where
  | same (m : Method) (h : ∀ hk, .hook hk ∉ m.insns) : Pair interned p (.ofMethod m) (.ofMethod m)
  | woven (v : Woven) (h : v.Faithful interned p) :
      Pair interned p (.ofMethod v.method) (.ofMethod v.result)

/-- A program and its woven form. -/
structure Program.Pair (interned : Prop) (p p' : Program) : Prop where
  natives : p'.natives = p.natives
  blind : ∀ e ∈ p.natives, e.2.Blind
  routines : ∀ owner name descriptor,
    Option.Rel (Routine.Pair interned p) (p.routine? owner name descriptor)
      (p'.routine? owner name descriptor)

/-! ## 2. Pairs of runs -/

/-- Two activations that stand at the same place; `results` is how many values a call in progress
will push. -/
inductive Activation.Pair (known : Nat → Prop) (interned : Prop) (p : Program) (results : Nat) :
    Activation → Activation → Prop where
  | same {m : Method} {pc : Nat} {L : Array Value} {S : List Value}
      (hm : ∀ hk, .hook hk ∉ m.insns) (hL : ∀ x ∈ L.toList, x.Within known)
      (hS : ∀ x ∈ S, x.Within known) :
      Pair known interned p results ⟨.ofMethod m, pc, L, S⟩ ⟨.ofMethod m, pc, L, S⟩
  | woven {v : Woven} {k pc : Nat} {pending : List Insn} {L L' : Array Value} {S : List Value}
      (hv : v.Faithful interned p)
      (hcode : v.result.insns.drop pc = pending ++ v.result.insns.drop (v.startOf k))
      (hquiet : v.Quiet known pending) (hstraight : ∀ i ∈ pending, i.jumpTarget? = none)
      (hL : v.Beside known L L')
      (hS : ∀ x ∈ S, x.Within known)
      (hreach : v.context.analysis.Reached v.method k (S.length + results)) :
      Pair known interned p results ⟨.ofMethod v.method, k, L, S⟩ ⟨.ofMethod v.result, pc, L', S⟩

/-- Two activations that wait for the same. -/
structure Waiting.Pair (known : Nat → Prop) (interned : Prop) (p : Program)
    (c c' : Waiting) : Prop where
  ret : c'.ret = c.ret
  activation : Activation.Pair known interned p (if c.ret = .void then 0 else 1)
    c.activation c'.activation

/-- Two runs in progress that have come to the same. -/
structure RunState.Pair (known : Nat → Prop) (interned : Prop) (p : Program)
    (s s' : RunState) : Prop where
  world : World.Same known s.world s'.world
  current : Activation.Pair known interned p 0 s.current s'.current
  callers : List.Forall₂ (Waiting.Pair known interned p) s.callers s'.callers

/-- Two results that are the same, or two failures of the same kind. -/
def RunResult.Agrees (known : Nat → Prop) (r r' : RunResult) : Prop :=
  Agreed (World.Same known) (fun v => ∀ x ∈ v, x.Within known) (r.outcome, r.world)
    (r'.outcome, r'.world)

/-- Two runs that both go on, as a pair, or both end, in the same way. -/
inductive Progress.Pair (known : Nat → Prop) (interned : Prop) (p : Program) :
    Progress → Progress → Prop where
  | running {s s' : RunState} (h : RunState.Pair known interned p s s') :
      Pair known interned p (.running s) (.running s')
  | ended {r r' : RunResult} (h : r.Agrees known r') : Pair known interned p (.ended r) (.ended r')

variable {known : Nat → Prop} {interned : Prop} {p p' : Program} {w w' : World}
    {callers callers' : List Waiting}

/-- Failing in the same kind of way. -/
theorem Progress.Pair.failed {e e' : RunError} (he : e'.kind = e.kind)
    (hw : World.Same known w w') : Progress.Pair known interned p (.ended ⟨.error e, w⟩)
      (.ended ⟨.error e', w'⟩) :=
  .ended (.failed he hw)

/-! ## 3. Results -/

/-- **Handing over a result** keeps a pair of runs one. -/
theorem deliver_pair (hw : World.Same known w w') {v : Option Value}
    (hv : ∀ x ∈ v, x.Within known)
    (hc : List.Forall₂ (Waiting.Pair known interned p) callers callers') :
    Progress.Pair known interned p (deliver w v callers) (deliver w' v callers') := by
  cases hc with
  | nil => exact .ended (.ok hv hw)
  | @cons c c' callers callers' hcaller hrest =>
    obtain ⟨a, ret⟩ := c
    obtain ⟨a', ret'⟩ := c'
    obtain ⟨rfl, hpair⟩ := hcaller
    simp only at hpair
    unfold deliver
    by_cases hvoid : ret' = .void
    · simp only [hvoid, if_true] at hpair ⊢
      exact .running ⟨hw, hpair, hrest⟩
    · simp only [hvoid, if_false] at hpair ⊢
      have hx : (v.getD (Value.defaultFor ret')).Within known := by
        cases v with
        | none => exact Value.within_defaultFor ret'
        | some x => exact hv x rfl
      refine .running ⟨hw, ?_, hrest⟩
      cases hpair with
      | same hm hL hS => exact .same hm hL (List.forall_mem_cons.mpr ⟨hx, hS⟩)
      | woven hv' hcode hquiet hstraight hL hS hreach =>
        exact .woven hv' hcode hquiet hstraight hL (List.forall_mem_cons.mpr ⟨hx, hS⟩) hreach

/-! ## 4. Calls -/

/-- Claiming a record makes no difference to what a program sees. -/
theorem World.Same.claimed (hw : World.Same known w w') (signature : String) :
    World.Same known { w with store := (w.store.claim signature).2 } w' := by
  refine ⟨hw.heap, hw.literals, hw.within, fun id hid => ?_⟩
  obtain ⟨r, r', hr, hr', hsig⟩ := hw.records id hid
  refine ⟨r, r', ?_, hr', hsig⟩
  unfold Store.record? at hr ⊢
  simpa only [Store.claim_records] using hr

theorem World.follows_claimed (w : World) (signature : String) :
    w.Follows { w with store := (w.store.claim signature).2 } :=
  World.follows_withStore (Store.remembers_of_records (w.store.claim_records signature))

theorem callNative_pair (hw : World.Same known w w')
    (hc : List.Forall₂ (Waiting.Pair known interned p) callers callers') {n : Native} (hn : n.Blind)
    (key signature : String) {args : List Value} (hargs : ∀ x ∈ args, x.Within known) :
    Progress.Pair known interned p (Program.callNative w callers n key signature args)
      (Program.callNative w' callers' n key signature args) := by
  have hclaimed := (hw.claimed signature).follows (w'.follows_claimed signature)
  unfold Program.callNative
  rcases hclaim : w.store.claim signature with ⟨record, store⟩
  rcases hclaim' : w'.store.claim signature with ⟨record', store'⟩
  rw [hclaim, hclaim'] at hclaimed
  have h := hn known key args record record' hargs _ _ hclaimed
  simp only
  generalize (n.body ⟨key, args, record⟩).outcome { w with store } = r at h ⊢
  generalize (n.body ⟨key, args, record'⟩).outcome { w' with store := store' } = r' at h ⊢
  cases h with
  | ok hv hw => exact deliver_pair hw hv hc
  | failed he hw => exact .failed he hw

/-- The locals a woven method starts with. -/
theorem Woven.beside_start (v : Woven) {args : List Value}
    (hlen : args.length = v.method.paramSlots) (hargs : ∀ x ∈ args, x.Within known) :
    v.Beside known ((Routine.ofMethod v.method).locals args)
      ((Routine.ofMethod v.result).locals args) := by
  obtain ⟨entry, f, hentry, -, -⟩ := v.analysed.first
  have hfit : args.length ≤ v.method.maxLocals := hlen ▸ Frame.entry_fits hentry
  have hroom := v.room
  refine ⟨⟨List.replicate (v.plan.nextLocal - v.method.maxLocals) .null, ?_, ?_, ?_⟩, ?_, ?_⟩
  · show (args ++ List.replicate (v.plan.nextLocal - args.length) Value.null) = _
    unfold Routine.locals
    rw [List.append_assoc, List.replicate_append_replicate]
    congr 2
    show _ = (v.method.maxLocals - args.length) + _
    omega
  · exact List.length_replicate
  · intro u l _ x hx
    rw [List.eq_of_mem_replicate (List.mem_of_getElem? hx)]
    exact u.holds_null
  · show (args ++ List.replicate (v.method.maxLocals - args.length) Value.null).toArray.size = _
    rw [List.size_toArray, List.length_append, List.length_replicate]
    omega
  · intro x hx
    rcases List.mem_append.mp (show x ∈ args ++ List.replicate _ Value.null from hx) with hx | hx
    · exact hargs x hx
    · rw [List.eq_of_mem_replicate hx]
      trivial

/-- **Starting a method** keeps a pair of runs one. -/
theorem activate_pair {r r' : Routine} (hr : Routine.Pair interned p r r')
    (hw : World.Same known w w')
    (hc : List.Forall₂ (Waiting.Pair known interned p) callers callers') {args : List Value}
    (hargs : ∀ x ∈ args, x.Within known) :
    Progress.Pair known interned p (Program.activate w callers r args)
      (Program.activate w' callers' r' args) := by
  cases hr with
  | same m hm =>
    unfold Program.activate
    cases (Routine.ofMethod m).labelFault with
    | some e => exact .failed rfl hw
    | none =>
      simp only
      split
      · refine .running ⟨hw, .same hm (fun x hx => ?_) (by simp), hc⟩
        rcases List.mem_append.mp
          (show x ∈ args ++ List.replicate _ Value.null from hx) with hx | hx
        · exact hargs x hx
        · rw [List.eq_of_mem_replicate hx]
          trivial
      · exact .failed rfl hw
  | woven v hv =>
    have hlabels : (Routine.ofMethod v.method).labelFault = none := by
      unfold Routine.ofMethod
      simp [v.analysed.graph.labels]
    have hlabels' : (Routine.ofMethod v.result).labelFault = none := by
      unfold Routine.ofMethod
      simp [Plan.repeatedLabel?_woven v.planned v.analysed.graph.labels]
    unfold Program.activate
    rw [hlabels, hlabels']
    simp only
    by_cases hlen : args.length = v.method.paramSlots
    · rw [if_pos (show args.length = (Routine.ofMethod v.method).method.paramSlots from hlen),
        if_pos (show args.length = (Routine.ofMethod v.result).method.paramSlots from hlen)]
      refine .running ⟨hw, ?_, hc⟩
      refine .woven hv ?_ v.quiet_prologue
        (fun i hi => (Plan.prologue_inserted (i := .nop) v.method i hi).jumpTarget?)
        (v.beside_start hlen hargs) (by simp) v.analysed.reached_start
      exact v.plan.woven_prologue v.method
    · rw [if_neg (show ¬args.length = (Routine.ofMethod v.method).method.paramSlots from hlen),
        if_neg (show ¬args.length = (Routine.ofMethod v.result).method.paramSlots from hlen)]
      exact .failed rfl hw

theorem Program.native_blind (hp : p.Pair interned p') {key : String} {n : Native}
    (h : p.native? key = some n) : n.Blind := by
  unfold native? at h
  exact hp.blind _ (mem_of_lookup h)

/-- **Calling a method**, loaded or native, keeps a pair of runs one. -/
theorem enter_pair (hp : p.Pair interned p') (limits : MachineSettings) (hw : World.Same known w w')
    (hc : List.Forall₂ (Waiting.Pair known interned p) callers callers')
    (owner name descriptor : String) {args : List Value} (hargs : ∀ x ∈ args, x.Within known) :
    Progress.Pair known interned p (p.enter limits w callers owner name descriptor args)
      (p'.enter limits w' callers' owner name descriptor args) := by
  have hnative : p'.native? = p.native? := by
    unfold Program.native?
    rw [hp.natives]
  unfold Program.enter
  rw [← hc.length_eq]
  split
  · exact .failed rfl hw
  · have hroutines := hp.routines owner name descriptor
    generalize p.routine? owner name descriptor = r at hroutines ⊢
    generalize p'.routine? owner name descriptor = r' at hroutines ⊢
    cases hroutines with
    | some hr => exact activate_pair hr hw hc hargs
    | none =>
      simp only [hnative]
      cases hn : p.native? (methodKey owner name descriptor) with
      | none => exact .failed rfl hw
      | some n => exact callNative_pair hw hc (Program.native_blind hp hn) _ _ hargs

/-! ## 5. Going on -/

variable {b b' : Bench} {i : Insn}

/-- **Going on** in a method that was not woven. -/
theorem transfer_pair_same (hp : p.Pair interned p') (limits : MachineSettings)
    {m : Method} {pc : Nat} (hm : ∀ hk, .hook hk ∉ m.insns)
    (h : Bench.Alike known b.locals.size [] b b')
    (hc : List.Forall₂ (Waiting.Pair known interned p) callers callers') {t : Transfer}
    (ht : t.Within known) :
    Progress.Pair known interned p
      (p.transfer limits b.world ⟨.ofMethod m, pc, b.locals, b.stack⟩ callers t)
      (p'.transfer limits b'.world ⟨.ofMethod m, pc, b'.locals, b'.stack⟩ callers' t) := by
  have hlocals : b'.locals = b.locals := by
    have := h.locals
    rw [List.append_nil] at this
    exact Array.toList_inj.mp this
  rw [hlocals, h.stack]
  have hpair : ∀ pc results, Activation.Pair known interned p results
      ⟨.ofMethod m, pc, b.locals, b.stack⟩ ⟨.ofMethod m, pc, b.locals, b.stack⟩ :=
    fun _ _ => .same hm h.localsWithin h.stackWithin
  cases t with
  | next => exact .running ⟨h.world, hpair _ _, hc⟩
  | jump label =>
    unfold Program.transfer
    simp only
    cases (Routine.ofMethod m).method.labelAt? label with
    | none => exact .failed rfl h.world
    | some pc => exact .running ⟨h.world, hpair _ _, hc⟩
  | call target args =>
    exact enter_pair hp limits h.world (.cons ⟨rfl, hpair _ _⟩ hc) _ _ _ ht
  | ret v => exact deliver_pair h.world ht hc

/-- **Going on** in a woven method, with code behind the instruction that keeps to itself. -/
theorem transfer_pair_woven (hp : p.Pair interned p') (limits : MachineSettings) {v : Woven}
    (hv : v.Faithful interned p) {k pc : Nat} {tail : List Insn} {f : Frame}
    (hi : v.method.insns[k]? = some i) (hf : v.frame? k = some f)
    (hcode : v.result.insns.drop (pc + 1) = tail ++ v.result.insns.drop (v.startOf (k + 1)))
    (htail : v.Quiet known tail) (hstraight : ∀ j ∈ tail, j.jumpTarget? = none)
    (hm : v.Mirrors known [] b b')
    (hc : List.Forall₂ (Waiting.Pair known interned p) callers callers') {t : Transfer}
    (ht : t.Within known) (hshape : Work.Shape i f.stack.length t b) :
    Progress.Pair known interned p
      (p.transfer limits b.world ⟨.ofMethod v.method, k, b.locals, b.stack⟩ callers t)
      (p'.transfer limits b'.world ⟨.ofMethod v.result, pc, b'.locals, b'.stack⟩ callers' t) := by
  have hclone : ∀ target, i = .invoke target → (Carrier.clonedArray? target).isSome →
      target.desc.ret ≠ .void := by
    rintro target rfl h
    exact ((hv.calls target (List.mem_of_getElem? hi)).clone h).2.1
  rw [show b'.stack = b.stack from hm.stack]
  cases t with
  | next =>
    refine .running ⟨hm.world, .woven hv hcode htail hstraight hm.locals hm.within ?_, hc⟩
    have hreach := v.analysed.reached_next hi hf hclone hshape.1
    rwa [← hshape.2] at hreach
  | jump label =>
    obtain ⟨target, htarget, hreach⟩ := v.analysed.reached_jump hi hf hclone hshape.1
    rw [← hshape.2] at hreach
    unfold Program.transfer
    simp only
    rw [show (Routine.ofMethod v.method).method.labelAt? label = some target from htarget,
      show (Routine.ofMethod v.result).method.labelAt? label = some (v.startOf target) by
        rw [show (Routine.ofMethod v.result).method.labelAt? label = _ from
          Plan.labelAt?_woven v.planned v.method label, htarget]
        rfl]
    exact .running ⟨hm.world, .woven hv rfl Woven.quiet_nil (by simp) hm.locals hm.within
      hreach, hc⟩
  | call target args =>
    obtain ⟨rfl, -, hstack⟩ := hshape
    have hreach := v.analysed.reached_next hi hf hclone rfl
    have hpushes : (Insn.invoke target).pushes = if target.desc.ret = .void then 0 else 1 := rfl
    rw [← hstack, hpushes] at hreach
    have hwaiting : Waiting.Pair known interned p
        ⟨⟨.ofMethod v.method, k + 1, b.locals, b.stack⟩, target.desc.ret⟩
        ⟨⟨.ofMethod v.result, pc + 1, b'.locals, b.stack⟩, target.desc.ret⟩ :=
      ⟨rfl, .woven hv hcode htail hstraight hm.locals hm.within hreach⟩
    exact enter_pair hp limits hm.world (.cons hwaiting hc) _ _ _ ht
  | ret v => exact deliver_pair hm.world ht hc

end Provenance
