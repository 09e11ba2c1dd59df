/-
# Who claims a call record

A trace of a run keeps with each activation which record its caller made for it, and which record
it has made for its own next call (`CallTrace`).  With that, one can say whose record a method or a
native claims (`Claims`).

A call for which a record was made hands over that record and no other, and its callee gets it
(`claims_own`).  So the claim of somebody else's record needs a call for which none was made: the
record that waits then is one that an earlier callee left unclaimed.
-/
import Provenance.Proofs.Guarding
import Provenance.Proofs.Preservation
import Provenance.Proofs.Tracing

namespace Provenance

/-! ## 1. Traces -/

/-- What a trace keeps with an activation. -/
structure CallTrace where
  /-- The record that was made for the call that started the activation. -/
  opener : Option Nat
  /-- The record that was made for the next call, since the last one. -/
  made : Option Nat
  deriving DecidableEq, Repr

/-- Keeping track of call records. -/
def callNotes : Notes CallTrace where
  start caller := ⟨caller.bind CallTrace.made, none⟩
  after s i c := { c with made := i.madeAfter s.world.store c.made }

namespace Program

/-- A record is claimed from a store for a signature, on behalf of a call for which the given record
was made. -/
inductive Claims (p : Program) (limits : MachineSettings) : Option Nat → Store → String → Prop where
  /-- A method claims its record. -/
  | method {s : RunState} {c : CallTrace} {cs : List CallTrace} {signature : String}
      (hs : callNotes.Traced p limits s (c :: cs))
      (hi : s.current.routine.insns[s.current.pc]? = some (.hook (.invocationStart signature))) :
      Claims p limits c.opener s.world.store signature
  /-- A record is claimed for a native. -/
  | native {s : RunState} {c : CallTrace} {cs : List CallTrace} {m : MethodRef}
      (hs : callNotes.Traced p limits s (c :: cs))
      (hi : s.current.routine.insns[s.current.pc]? = some (.invoke m))
      (hm : p.routine? m.owner m.name m.desc.descriptor = none)
      (hn : (p.native? (methodKey m.owner m.name m.desc.descriptor)).isSome) :
      Claims p limits c.made s.world.store m.signature
  /-- A record is claimed for a native that is called from outside. -/
  | outside (w : World) (signature : String) : Claims p limits none w.store signature

end Program

/-! ## 2. Runs that keep to the rules -/

/-- A program of methods that keep to the rules, under their own names. -/
def Program.Guards (p : Program) : Prop :=
  ∀ owner name descriptor r, p.routine? owner name descriptor = some r →
    ∃ m, r = .ofMethod m ∧ m.Guards ∧ m.signature = signatureOf name descriptor

/-- The current activation keeps to the rules. -/
def Activation.Guards (a : Activation) (w : World) (c : CallTrace) : Prop :=
  ∃ m, a.routine = .ofMethod m ∧ m.Guards ∧
    Guarded c.opener c.made (m.insns.drop a.pc) ⟨w, a.locals, a.stack⟩

/-- An activation that waits keeps to the rules, whatever the world will be. -/
def Waiting.Guards (x : Waiting) (c : CallTrace) : Prop :=
  c.made = none ∧ ∃ m, x.activation.routine = .ofMethod m ∧ m.Guards ∧
    ∀ b, Guarded c.opener none (m.insns.drop x.activation.pc) b

variable {p : Program} {limits : MachineSettings} {s : RunState} {c : CallTrace}
  {cs : List CallTrace}

/-- Only calls call, and they leave the world as it is. -/
theorem Work.perform_call {method : String} {u : RunError} {inUse : Thunk (List Value)} {i : Insn}
    {b b' : Bench} {target : MethodRef} {args : List Value}
    (h : (Work.perform method u inUse i).outcome b = (.ok (.call target args), b')) :
    i = .invoke target ∧ b'.world = b.world := by
  have hhook : ∀ hk, i ≠ .hook hk := by
    rintro hk rfl
    unfold perform at h
    rw [Action.outcome_bind] at h
    split at h
    · exact nomatch (show (Except.ok Transfer.next : Except RunError Transfer) = _ from
        (Prod.mk.inj h).1)
    · exact absurd h (by simp)
  obtain ⟨-, rfl, -⟩ := (perform_shape _ _ _ hhook b).of_ok h
  have hworld : Action.Wp (perform method u inUse (.invoke target)) (fun _ b' => b'.world = b.world)
      (fun _ _ => True) b := by
    simp only [perform, Action.wp_bind, wp_popMany, Action.wp_pure]
    split <;> trivial
  exact ⟨rfl, hworld.of_ok h⟩

/-- **Every step keeps to the rules.** -/
theorem guards_kept (hp : p.Guards) : callNotes.Keeps p Activation.Guards Waiting.Guards where
  starts w hr _ := by
    obtain ⟨m, rfl, hm, -⟩ := hp _ _ _ _ hr
    exact ⟨m, rfl, hm, hm.start none _ (Store.ready_none _ _)⟩
  resumes {x c} w v h := by
    obtain ⟨hmade, m, hm, hguards, hguarded⟩ := h
    have hgoes : ∀ stack, Activation.Guards { x.activation with stack } w c :=
      fun stack => ⟨m, hm, hguards, hmade ▸ hguarded _⟩
    split
    · exact hgoes x.activation.stack
    · exact hgoes _
  goes {s c i b t} h hi hout := by
    obtain ⟨w, ⟨r, pc, L, S⟩, callers⟩ := s
    obtain ⟨m, rfl, hm, hguarded⟩ := h
    simp only at hi hguarded
    rw [Routine.insns_getElem?] at hi
    obtain ⟨hlt, hget⟩ := List.getElem?_eq_some_iff.mp hi
    rw [List.drop_eq_getElem_cons hlt, hget] at hguarded
    obtain ⟨-, hcall, hwp⟩ := hguarded
    have ht := (hwp _ _ _).of_ok hout
    cases t with
    | next => exact ⟨m, rfl, hm, ht⟩
    | jump label =>
      refine fun pc' hpc => ⟨m, rfl, hm, ?_⟩
      show Guarded c.opener (i.madeAfter w.store c.made) _ _
      rw [show i.madeAfter w.store c.made = none from ht]
      exact hm.jump label pc' hpc c.opener _
    | call target args =>
      obtain ⟨rfl, hworld⟩ := Work.perform_call hout
      refine ⟨⟨rfl, m, rfl, hm, ht⟩, fun r hr _ => ?_⟩
      obtain ⟨m', rfl, hm', hsignature⟩ := hp _ _ _ _ hr
      refine ⟨m', rfl, hm', hm'.start c.made _ ?_⟩
      rw [hsignature, hworld]
      exact hcall target rfl
    | ret v => trivial

/-! ## 3. Whose records are claimed -/

/-- What is claimed by the code at which a run that keeps to the rules stands. -/
theorem Program.Claims.ready (hp : p.Guards) {made : Option Nat} {store : Store}
    {signature : String} (h : p.Claims limits made store signature) :
    store.Ready signature made := by
  have hinsn : ∀ {s : RunState} {c : CallTrace} {i : Insn}, s.current.Guards s.world c →
      s.current.routine.insns[s.current.pc]? = some i →
      ∃ rest, Guarded c.opener c.made (i :: rest) ⟨s.world, s.current.locals, s.current.stack⟩ := by
    rintro s c i ⟨m, hm, -, hguarded⟩ hi
    rw [hm, Routine.insns_getElem?] at hi
    obtain ⟨hlt, hget⟩ := List.getElem?_eq_some_iff.mp hi
    rw [List.drop_eq_getElem_cons hlt, hget] at hguarded
    exact ⟨_, hguarded⟩
  cases h with
  | method hs hi =>
    obtain ⟨rest, hstart, -, -⟩ := hinsn ((guards_kept hp).traced hs).current hi
    exact hstart _ rfl
  | native hs hi _ _ =>
    obtain ⟨rest, -, hcall, -⟩ := hinsn ((guards_kept hp).traced hs).current hi
    exact hcall _ rfl
  | outside w signature => exact Store.ready_none _ _

/-- A class without hooks. -/
def Class.HookFree (c : Class) : Prop := ∀ m ∈ c.methods, ∀ h, .hook h ∉ m.insns

/-- A class without hooks, or one that was woven out of such a class. -/
def Class.Authored (c : Class) : Prop :=
  c.HookFree ∨ ∃ x : Weaving, x.source.HookFree ∧ x.result = c

/-- What stands in the second of two related lists is related to something in the first. -/
theorem exists_mem_of_forall₂ {α β : Type} {R : α → β → Prop} {y : β} :
    ∀ {l : List α} {l' : List β}, List.Forall₂ R l l' → y ∈ l' → ∃ x ∈ l, R x y
  | _, _, .nil, hy => absurd hy (by simp)
  | x :: _, _, .cons hxy hrest, hy => by
    rcases List.mem_cons.mp hy with rfl | hy
    · exact ⟨x, by simp, hxy⟩
    · obtain ⟨x', hx', hxy'⟩ := exists_mem_of_forall₂ hrest hy
      exact ⟨x', List.mem_cons_of_mem _ hx', hxy'⟩

theorem Class.Authored.guards {c : Class} (h : c.Authored) {m : Method} (hm : m ∈ c.methods) :
    m.Guards := by
  rcases h with h | ⟨x, h, rfl⟩
  · exact Method.guards_of_no_hooks (h m hm)
  · obtain ⟨-, hmethods⟩ := Weaver.weaveClass_methods
      (show x.weaver.weaveClass x.store x.source = (x.result, x.report, _) from rfl)
    obtain ⟨source, hsource, hwoven⟩ := exists_mem_of_forall₂ hmethods hm
    rcases hwoven with rfl | ⟨v, rfl, rfl, -⟩
    · exact Method.guards_of_no_hooks (h _ hsource)
    · exact v.guards (h _ hsource)

theorem Program.guards_of_authored {natives : List (String × Native)} {classes : List Class}
    (h : ∀ c ∈ classes, c.Authored) : (ofClasses natives classes).Guards := by
  intro owner name descriptor r hr
  obtain ⟨c, hc, -, m, hm, rfl, hname, hdesc⟩ := exists_of_routine hr
  refine ⟨m, rfl, (h c hc).guards hm, ?_⟩
  rw [← hname, ← hdesc]
  rfl

/-- **Whose record is claimed.**  A call for which a record was made hands over that record and no
other, and its callee gets it.  A claim for a call without one yields somebody else's record exactly
if one with the same signature waits: one that a callee before it, which claims nothing, has left.
-/
theorem claims_own {natives : List (String × Native)} {classes : List Class}
    (hclasses : ∀ c ∈ classes, c.Authored) {limits : MachineSettings} {made : Option Nat}
    {store : Store} {signature : String}
    (h : (Program.ofClasses natives classes).Claims limits made store signature) :
    (∀ id, made = some id → (store.claim signature).1 = some id) ∧
      ((∀ id, (store.claim signature).1 = some id → made = some id) ↔
        (made = none → ∀ id, ¬store.Waits signature id)) := by
  have hready := h.ready (Program.guards_of_authored hclasses)
  have hown : ∀ id, made = some id → (store.claim signature).1 = some id :=
    fun id hid => Store.claim_eq_some_iff.mpr (hready id hid)
  refine ⟨hown, fun hclaim hnone id hwaits => ?_, fun hnone id hclaim => ?_⟩
  · have := hclaim id (Store.claim_eq_some_iff.mpr hwaits)
    rw [hnone] at this
    exact absurd this (by simp)
  · cases hmade : made with
    | none => exact absurd (Store.claim_eq_some_iff.mp hclaim) (hnone hmade id)
    | some id' => exact (hown id' hmade).symm.trans hclaim

/-- A method that hands a character to a native and then to another method. -/
def handOn : Method :=
  ⟨"demo/A", "run", ⟨[.array .char], .void⟩, true, 1, 3,
    [.load 0, .const (.int 0), .arrayLoad .char, .dup,
      .invoke ⟨.static, "demo/Out", "put", ⟨[.char], .void⟩⟩,
      .invoke ⟨.static, "demo/B", "put", ⟨[.char], .void⟩⟩, .ret .void]⟩

def handOnWeaving : Weaving :=
  ⟨⟨⟨"", "", 100, .fifo⟩, ⟨[⟨true, .leading []⟩]⟩, ⟨[]⟩⟩, .empty .default, ⟨"demo/A", [handOn]⟩⟩

/-- The other method is not woven, and hands a character of its own to the native. -/
def putDash : Class :=
  ⟨"demo/B", [⟨"demo/B", "put", ⟨[.char], .void⟩, true, 1, 1,
    [.const (.int 45), .invoke ⟨.static, "demo/Out", "put", ⟨[.char], .void⟩⟩, .ret .void]⟩]⟩

/-- The two classes, with the native. -/
def handOnProgram : Program :=
  .ofClasses [("demo/Out.put(C)V", ⟨fun _ => pure none, []⟩)] [handOnWeaving.result, putDash]

theorem handOn_authored : ∀ c ∈ [handOnWeaving.result, putDash], c.Authored := by
  simp only [List.forall_mem_cons]
  refine ⟨.inr ⟨handOnWeaving, ?_, rfl⟩, .inl ?_, by simp⟩
  · simp [Class.HookFree, handOnWeaving, handOn]
  · simp [Class.HookFree, putDash]

/-- The instruction that the run of the two methods comes to, the traces there, and what a claim
would yield. -/
def handOnAt (n : Nat) : Option (Option Insn × List CallTrace × Option Nat) :=
  (callNotes.follow handOnProgram ⟨8, 100⟩
    ⟨(Heap.empty.allocate (.charArray "x")).2, .empty .default, [], [], []⟩ "demo/A" "run" "([C)V"
    [.ref 1] n).map fun r => (r.1.current.routine.insns[r.1.current.pc]?, r.2,
      (r.1.world.store.claim "put (C)V").1)

/-- A claim for the native, read off the run. -/
theorem handOn_native {n : Nat} {c : CallTrace} {cs : List CallTrace} {id : Nat}
    (h : handOnAt n = some (some (.invoke ⟨.static, "demo/Out", "put", ⟨[.char], .void⟩⟩), c :: cs,
      some id)) :
    ∃ store, handOnProgram.Claims ⟨8, 100⟩ c.made store "put (C)V" ∧
      (store.claim "put (C)V").1 = some id := by
  obtain ⟨⟨s, cs'⟩, hfollow, hs⟩ := Option.map_eq_some_iff.mp h
  obtain ⟨hinsn, rfl, hclaim⟩ : _ ∧ cs' = c :: cs ∧ _ := by simpa using hs
  refine ⟨s.world.store, .native ⟨_, _, _, _, _, n, hfollow⟩ hinsn ?_ ?_, hclaim⟩
  · exact Option.isNone_iff_eq_none.mp (by decide +kernel)
  · decide +kernel

/-- The native gets the record of the first call, and later one that was not made for it. -/
theorem handOn_claims :
    ∃ first second : Store,
      handOnProgram.Claims ⟨8, 100⟩ (some 1) first "put (C)V" ∧
      (∀ id, some 1 = some id → (first.claim "put (C)V").1 = some id) ∧
      handOnProgram.Claims ⟨8, 100⟩ none second "put (C)V" ∧
      (second.claim "put (C)V").1 = some 2 ∧
      ¬∀ id, (second.claim "put (C)V").1 = some id → none = some id := by
  obtain ⟨first, hfirst, -⟩ := handOn_native (show handOnAt 14 = some (_, [⟨none, some 1⟩], some 1)
    by decide +kernel)
  obtain ⟨second, hsecond, hclaim⟩ := handOn_native (show handOnAt 22 =
    some (_, [⟨some 2, none⟩, ⟨none, none⟩], some 2) by decide +kernel)
  refine ⟨first, second, hfirst, (claims_own handOn_authored hfirst).1, hsecond, hclaim,
    fun hown => ?_⟩
  exact (claims_own handOn_authored hsecond).2.mp hown rfl 2 (Store.claim_eq_some_iff.mp hclaim)

end Provenance
