/-
# Making records and claiming them

Woven code makes a call record, hands it over and makes the call, with nothing in between that could
start a method; and a method claims its record before anything else.  `Guarded` says so of a piece
of code: whenever a method is called, or claims its record, the record that was made for the call is
the one that waits.  It holds of methods without hooks and of woven ones (`Woven.guards`).
-/
import Provenance.Proofs.Reaching
import Provenance.Proofs.Weaving
import Provenance.Proofs.HookEffects

namespace Provenance

/-! ## 1. Stores in which a record waits -/

namespace Store

/-- Tracking is on, and the store knows a record that was made for a signature. -/
def Holds (s : Store) (signature : String) (id : Nat) : Prop :=
  s.isActive ∧ ∃ r, s.record? id = some r ∧ r.signature = signature

/-- A record waits for the next method of a signature that starts. -/
def Waits (s : Store) (signature : String) (id : Nat) : Prop :=
  s.pending = some id ∧ s.Holds signature id

/-- **What a claim yields** is the record that waits, if it was made for the signature. -/
theorem claim_eq_some_iff {s : Store} {signature : String} {id : Nat} :
    (s.claim signature).1 = some id ↔ s.Waits signature id := by
  unfold claim Waits Holds
  cases hpending : s.pending with
  | none => simp
  | some j =>
    cases hrecord : s.record? j with
    | none =>
      simp only [hrecord, reduceCtorEq, Option.some.injEq, false_iff]
      rintro ⟨rfl, -, r, hr, -⟩
      rw [hrecord] at hr
      exact absurd hr (by simp)
    | some r =>
      simp only [hrecord, Option.ite_none_right_eq_some, Option.some.injEq]
      constructor
      · rintro ⟨⟨hactive, hsig⟩, rfl⟩
        exact ⟨rfl, hactive, r, hrecord, hsig⟩
      · rintro ⟨rfl, hactive, r', hr', hsig⟩
        rw [hrecord] at hr'
        rw [← Option.some.inj hr'] at hsig
        exact ⟨⟨hactive, hsig⟩, rfl⟩

/-- The record that was made for a call, if there is one, waits for its callee. -/
def Ready (s : Store) (signature : String) (made : Option Nat) : Prop :=
  ∀ id, made = some id → s.Waits signature id

theorem ready_none (s : Store) (signature : String) : s.Ready signature none :=
  fun _ h => absurd h (by simp)

variable {s s' : Store} {signature : String} {id : Nat}

theorem Holds.of_remembers (h : s.Holds signature id) (hs : s.Remembers s')
    (hactive : s'.suspended = s.suspended) : s'.Holds signature id := by
  obtain ⟨ha, r, hr, hsig⟩ := h
  obtain ⟨r', hr', hsig'⟩ := hs id r hr
  refine ⟨?_, r', hr', hsig'.trans hsig⟩
  unfold isActive at ha ⊢
  rwa [hactive]

theorem setArg_suspended {slot : Nat} {point : Option Point}
    (h : s.setArg id slot point = .ok s') : s'.suspended = s.suspended := by
  unfold setArg at h
  split at h
  · rw [← Except.ok.inj h]
  · exact absurd h (by simp)

/-- A new record is known by the signature it was made for. -/
theorem createRecord_holds (hactive : s.isActive) (signature : String) :
    (s.createRecord signature).2.Holds signature (s.createRecord signature).1 := by
  refine ⟨hactive, ⟨signature, List.replicate maxArgSlots none, none⟩, ?_, rfl⟩
  unfold record? createRecord
  simp only [Table.get?_add]
  simp

end Store

/-! ## 2. Code in which calls are ready -/

/-- The record made for the next call of an activation, after an instruction. -/
def Insn.madeAfter (i : Insn) (s : Store) (made : Option Nat) : Option Nat :=
  match i with
  | .hook (.invocationCreate signature) =>
    if s.isActive then some (s.createRecord signature).1 else none
  | .invoke _ => none
  | _ => made

open Provenance.Action (Wp)

/-- Code that keeps to the rules from some bench on: a method starts, and a method is called, only
when the record that was made for the call waits, and none is made that no call uses up. -/
def Guarded (opener : Option Nat) : Option Nat → List Insn → Bench → Prop
  | _, [], _ => True
  | made, i :: rest, b =>
    (∀ signature, i = .hook (.invocationStart signature) →
      b.world.store.Ready signature opener) ∧
    (∀ m, i = .invoke m → b.world.store.Ready m.signature made) ∧
    ∀ method pc inUse, Wp (Work.perform method (.stackUnderflow method pc) inUse i)
      (fun t b' =>
        match t with
        | .next => Guarded opener (i.madeAfter b.world.store made) rest b'
        | .jump _ => i.madeAfter b.world.store made = none
        | .call _ _ => ∀ b, Guarded opener none rest b
        | .ret _ => True)
      (fun _ _ => True) b

/-- An instruction that neither starts a method nor makes a record. -/
def Insn.Plain : Insn → Prop
  | .hook (.invocationStart _) | .hook (.invocationCreate _) => False
  | _ => True

variable {opener made : Option Nat} {i : Insn} {code rest : List Insn} {b : Bench}

theorem Insn.Plain.madeAfter (h : i.Plain) (s : Store) : i.madeAfter s none = none := by
  unfold Insn.madeAfter
  split
  · exact h.elim
  · rfl
  · rfl

/-- **Plain code** in front of code that keeps to the rules. -/
theorem guarded_plain (hrest : ∀ b, Guarded opener none rest b) : ∀ {code : List Insn} (b : Bench),
    (∀ i ∈ code, i.Plain) → Guarded opener none (code ++ rest) b
  | [], b, _ => hrest b
  | i :: code, b, h => by
    obtain ⟨hi, hcode⟩ := List.forall_mem_cons.mp h
    have ih : ∀ b, Guarded opener none (code ++ rest) b := fun b => guarded_plain hrest b hcode
    refine ⟨?_, fun m _ => Store.ready_none _ _, fun method pc inUse => ?_⟩
    · rintro signature rfl
      exact hi.elim
    · rw [hi.madeAfter]
      unfold Wp
      split
      · rename_i t b' _
        cases t with
        | next => exact ih b'
        | jump => rfl
        | call => exact ih
        | ret => trivial
      · trivial

/-- Code without calls that is gone through, in front of code that keeps to the rules. -/
theorem guarded_through {P : Bench → Prop} : ∀ {code : List Insn} {b : Bench},
    (∀ i ∈ code, i.Plain ∧ ∀ m, i ≠ .invoke m) →
    Work.Through (fun _ _ => True) code P b → (∀ b, P b → Guarded opener made rest b) →
    Guarded opener made (code ++ rest) b
  | [], b, _, hb, hrest => hrest b hb
  | i :: code, b, h, hb, hrest => by
    obtain ⟨⟨hplain, hcall⟩, hcode⟩ := List.forall_mem_cons.mp h
    refine ⟨?_, fun m hm => absurd hm (hcall m), fun method pc inUse => ?_⟩
    · rintro signature rfl
      exact hplain.elim
    · refine (hb method pc inUse).mono (fun t b' ht => ?_) fun _ _ _ => trivial
      obtain ⟨rfl, ht⟩ := ht
      have hmade : i.madeAfter b.world.store made = made := by
        unfold Insn.madeAfter
        split
        · exact hplain.elim
        · exact absurd rfl (hcall _)
        · rfl
      simp only [hmade]
      exact guarded_through hcode ht hrest

/-! ## 3. The code of weaving is plain -/

/-- Neither a call nor one of the hooks that start a method or make a record. -/
def Insn.Inner (i : Insn) : Prop := i.Plain ∧ ∀ m, i ≠ .invoke m

namespace Plan

variable {c : PlanContext} {S : List Site} {p : Plan} {k : Nat}

theorem Loading.inner {code : List Insn} (h : p.Loading code) : ∀ i ∈ code, i.Inner := by
  cases h <;> simp [Insn.Inner, Insn.Plain]

theorem BeforePiece.plain {code : List Insn} (h : BeforePiece c p k code) :
    ∀ i ∈ code, i.Plain := by
  have hloading : ∀ {v code}, p.PointCode v code → ∀ i ∈ code, i.Plain :=
    fun hcode i hi => ((loading_of_pointCode hcode).inner i hi).1
  cases h with
  | element _ _ => simp [Insn.Plain]
  | field _ _ => simp [Insn.Plain]
  | join _ _ _ hcode =>
    have := hloading (.inl hcode)
    simpa [or_imp, forall_and, Insn.Plain] using this
  | fieldStore _ _ hcode =>
    have := hloading hcode
    simpa [or_imp, forall_and, Insn.Plain] using this
  | returning _ _ _ _ hcode =>
    have := hloading (.inl hcode)
    simpa [or_imp, forall_and, Insn.Plain] using this

theorem AfterPiece.plain {code : List Insn} (h : AfterPiece c S p k code) :
    ∀ i ∈ code, i.Plain := by
  cases h with
  | member _ _ _ _ hcode =>
    have := fun i hi => ((loading_of_loadPoint hcode).inner i hi).1
    simpa [or_imp, forall_and, Insn.Plain] using this
  | literal _ _ => simp [Insn.Plain]

theorem Marked.plain {ts : List Ty} {vs : List FlowValue} {mask : List Char} {loads : List Insn}
    (h : p.Marked ts vs mask loads) : ∀ i ∈ loads, i.Plain := by
  induction h with
  | done => simp
  | marked hcode _ ih =>
    intro i hi
    rcases List.mem_append.mp hi with hi | hi
    · exact ((loading_of_loadPoint hcode).inner i hi).1
    · exact ih i hi
  | unmarked _ ih => exact ih

theorem ReplacedPiece.plain {code : List Insn} (h : ReplacedPiece c S p k code) :
    ∀ i ∈ code, i.Plain := by
  cases h with
  | arrayStore _ _ hcode =>
    have := fun i hi => ((loading_of_pointCode hcode).inner i hi).1
    simpa [or_imp, forall_and, Insn.Plain] using this
  | concat _ _ hmarked =>
    have := hmarked.plain
    simpa [or_imp, forall_and, Insn.Plain] using this
  | _ => simp [Insn.Plain]

theorem codeAt_plain {edits : List (Nat × List Insn)} (h : ∀ e ∈ edits, ∀ i ∈ e.2, i.Plain) :
    ∀ i ∈ codeAt k edits, i.Plain := by
  intro i hi
  obtain ⟨⟨j, code⟩, he, hi⟩ := List.mem_flatMap.mp hi
  simp only at hi
  split at hi
  · exact h _ he i hi
  · exact absurd hi (by simp)

theorem behind_plain (hp : p.Sound c S) : ∀ i ∈ p.behind k, i.Plain :=
  codeAt_plain fun e he => (hp.after e he).plain

theorem inPlace_plain (hp : p.Sound c S) {i : Insn} (hi : i.Plain) :
    ∀ j ∈ p.inPlace k i, j.Plain := by
  unfold inPlace
  cases hk : p.replaced.lookup k with
  | none => simpa using hi
  | some code => exact (hp.replaced _ (mem_of_lookup hk)).plain

/-- A call that gets a record stays where it is. -/
theorem inPlace_recorded (hp : p.Sound c S) {target : MethodRef} (h : Recorded c k target) :
    p.inPlace k (.invoke target) = [.invoke target] := by
  obtain ⟨hi, hcopy, hclone⟩ := h
  unfold inPlace
  cases hk : p.replaced.lookup k with
  | none => rfl
  | some code =>
    have hpiece := hp.replaced _ (mem_of_lookup hk)
    cases hpiece with
    | arrayStore hi' _ _ => simp [hi] at hi'
    | concat hi' _ _ => simp [hi] at hi'
    | stringComparison hi' _ =>
      rw [hi] at hi'
      split at hi' <;> simp at hi'
    | arrayCopy hi' hcopy' =>
      rw [hi] at hi'
      simp only [Option.some.injEq, Insn.invoke.injEq] at hi'
      rw [← hi', hcopy] at hcopy'
      exact absurd hcopy' (by simp)
    | arrayClone hi' _ hclone' =>
      rw [hi] at hi'
      simp only [Option.some.injEq, Insn.invoke.injEq] at hi'
      rw [← hi', hclone] at hclone'
      exact absurd hclone' (by simp)

theorem argumentCode_inner (hp : p.Sound c S) : ∀ i ∈ p.argumentCode k, i.Inner := by
  intro i hi
  obtain ⟨e, he, hi⟩ := List.mem_flatMap.mp hi
  obtain ⟨_, _, _, _, _, hcode⟩ := (hp.arguments e (List.mem_filter.mp he).1).call
  rcases List.mem_append.mp hi with hi | hi
  · exact (loading_of_loadPoint hcode).inner i hi
  · rw [List.mem_singleton.mp hi]
    simp [Insn.Inner, Insn.Plain]

theorem Putting.inner {put : Insn} (h : p.Putting k put) : put.Inner := by
  cases h <;> simp [Insn.Inner, Insn.Plain]

/-! ## 4. Between the making of a record and the call -/

variable {P : Bench → Prop} {signature : String} {id : Nat}

/-- An instruction that only pushes a value goes through. -/
theorem through_pushing {i : Insn} (hP : ∀ x, P { b with stack := x :: b.stack })
    (hi : ∀ method u inUse, Wp (Work.perform method u inUse i)
      (fun t b' => t = .next ∧ ∃ x, b' = { b with stack := x :: b.stack }) (fun _ _ => True) b) :
    Work.Through (fun _ _ => True) [i] P b := by
  intro method pc inUse
  refine (hi method _ inUse).mono (fun t b' h => ?_) fun _ _ _ => trivial
  obtain ⟨ht, x, rfl⟩ := h
  exact ⟨ht, hP x⟩

theorem wp_load_pushes (method : String) (u : RunError) (inUse : Thunk (List Value)) (l : Nat) :
    Wp (Work.perform method u inUse (.load l))
      (fun t b' => t = .next ∧ ∃ x, b' = { b with stack := x :: b.stack }) (fun _ _ => True) b := by
  simp only [Work.perform, Action.wp_bind, Work.wp_loadLocal, Work.wp_push, Action.wp_pure]
  cases b.locals[l]? with
  | none => trivial
  | some x => exact ⟨trivial, x, rfl⟩

/-- Reading a point off a record changes nothing but the top of the stack. -/
theorem through_recordPoint {h : Hook} {l : Nat}
    (hh : h = .invocationReturnPoint ∨ ∃ n, h = .invocationArgPoint n)
    (hP : ∀ x, P { b with stack := x :: b.stack }) :
    Work.Through (fun _ _ => True) [.load l, .hook h] P b := by
  have hload : Work.Through (fun _ _ => True) [.load l]
      (Work.Through (fun _ _ => True) [.hook h] P) b :=
    through_pushing (fun x method pc inUse => ?_) fun _ _ _ => wp_load_pushes ..
  · exact hload
  rcases hh with rfl | ⟨n, rfl⟩ <;>
    simp only [Work.perform, Work.hook, Work.takeRecord, Work.take, Action.wp_bind,
      Work.wp_pop_cons, Work.wp_fromHeap] <;>
    cases b.world.heap.record x with
    | error e => trivial
    | ok r => cases r <;> exact ⟨rfl, hP _⟩

/-- Code that pushes a point does nothing else. -/
theorem Loading.through {code : List Insn} (h : p.Loading code)
    (hP : ∀ x, P { b with stack := x :: b.stack }) :
    Work.Through (fun _ _ => True) code P b := by
  cases h with
  | constant place => exact through_pushing hP fun _ _ _ => ⟨rfl, _, rfl⟩
  | null => exact through_pushing hP fun _ _ _ => ⟨rfl, _, rfl⟩
  | read _ => exact through_pushing hP fun _ _ _ => wp_load_pushes ..
  | merge _ => exact through_pushing hP fun _ _ _ => wp_load_pushes ..
  | result _ => exact through_recordPoint (.inl rfl) hP
  | argument n _ => exact through_recordPoint (.inr ⟨n, rfl⟩) hP

/-- A bench on which a record lies that the store knows. -/
def Holding (signature : String) (id : Nat) (b : Bench) : Prop :=
  b.stack.head? = some (.ofRecord (some id)) ∧ b.world.store.Holds signature id

theorem argumentCode_through (hp : p.Sound c S) (hb : Holding signature id b) :
    Work.Through (fun _ _ => True) (p.argumentCode k) (Holding signature id) b := by
  refine Work.through_flatMap (fun e he b hb => ?_) hb
  obtain ⟨_, _, _, _, _, hcode⟩ := (hp.arguments e (List.mem_filter.mp he).1).call
  obtain ⟨hstack, hholds⟩ := hb
  obtain ⟨rest, hrest⟩ := List.head?_eq_some_iff.mp hstack
  refine Work.through_append.mpr ((loading_of_loadPoint hcode).through fun x method pc inUse => ?_)
  rw [hrest]
  simp only [Work.perform, Work.hook, Work.take, Action.wp_bind, Work.wp_pop_cons,
    Work.wp_fromHeap, Work.record_ofRecord]
  cases b.world.heap.point x with
  | error e => trivial
  | ok point =>
    refine ⟨rfl, rfl, ?_⟩
    simp only
    cases hset : b.world.store.setArg id e.2.1 point with
    | error e => exact hholds
    | ok s => exact hholds.of_remembers (Store.setArg_remembers hset) (Store.setArg_suspended hset)

/-- Handing a record over. -/
theorem calling_through {put : Insn} (hput : p.Putting k put) (hb : Holding signature id b) :
    Work.Through (fun _ _ => True) [.hook .invocationCalling, put]
      (fun b => b.world.store.Waits signature id) b := by
  obtain ⟨hstack, hholds⟩ := hb
  obtain ⟨rest, hrest⟩ := List.head?_eq_some_iff.mp hstack
  obtain ⟨w, L, S⟩ := b
  obtain rfl : S = .ofRecord (some id) :: rest := hrest
  have hwaits : (w.store.handOver id).Waits signature id := ⟨rfl, hholds⟩
  intro method pc inUse
  refine ⟨rfl, fun method pc inUse => ?_⟩
  cases hput with
  | dropped => exact ⟨rfl, hwaits⟩
  | @kept l _ =>
    simp only [Work.perform, Action.wp_bind, Work.wp_pop_cons, Work.wp_storeLocal]
    split
    · exact ⟨rfl, hwaits⟩
    · trivial

/-- **The code that gives a call its record**, and the call. -/
theorem guarded_recorded (hp : p.Sound c S) {target : MethodRef} {put : Insn}
    (hput : p.Putting k put) (hrest : ∀ b, Guarded opener none rest b) (b : Bench) :
    Guarded opener none (.hook (.invocationCreate target.signature) :: (p.argumentCode k ++
      ([.hook .invocationCalling, put] ++ (.invoke target :: rest)))) b := by
  have hcalling : ∀ i ∈ [.hook .invocationCalling, put], i.Inner := by
    simpa [Insn.Inner, Insn.Plain] using hput.inner
  refine ⟨by simp, by simp, fun method pc inUse => ?_⟩
  simp only [Work.perform, Work.hook, Action.wp_bind, Work.wp_onStore, Work.wp_push,
    Action.wp_pure, Insn.madeAfter]
  by_cases hactive : b.world.store.isActive
  · simp only [hactive, if_true]
    refine guarded_through (argumentCode_inner hp) (argumentCode_through hp
      ⟨rfl, Store.createRecord_holds hactive target.signature⟩) fun b₁ hb₁ => ?_
    refine guarded_through hcalling (calling_through hput hb₁) fun b₂ hwaits => ?_
    refine ⟨by simp, ?_, fun method pc inUse => ?_⟩
    · rintro m ⟨⟩ id hid
      exact Option.some.inj hid ▸ hwaits
    · simp only [Work.perform, Action.wp_bind, Work.wp_popMany]
      split
      · trivial
      · exact hrest
  · -- No record is made, so nothing needs to wait for the callee.
    simp only [hactive, Bool.false_eq_true, if_false]
    have hcall : ∀ b, Guarded opener none ([.invoke target] ++ rest) b :=
      fun b => guarded_plain hrest b (by simp [Insn.Plain])
    exact guarded_plain (fun b => guarded_plain hcall b fun i hi => (hcalling i hi).1) _
      fun i hi => (argumentCode_inner hp i hi).1

end Plan

/-! ## 5. Methods that keep to the rules -/

/-- A method that keeps to the rules from its beginning on, if the record that was made for its call
waits, and from every label on. -/
structure Method.Guards (m : Method) : Prop where
  start : ∀ opener b, b.world.store.Ready m.signature opener → Guarded opener none m.insns b
  jump : ∀ label pc, m.labelAt? label = some pc → ∀ opener b,
    Guarded opener none (m.insns.drop pc) b

theorem Insn.plain_of_no_hook {i : Insn} (h : ∀ hk, i ≠ .hook hk) : i.Plain := by
  cases i with
  | hook hk => exact absurd rfl (h hk)
  | _ => trivial

/-- A method without hooks makes no records and starts nothing. -/
theorem Method.guards_of_no_hooks {m : Method} (h : ∀ hk, .hook hk ∉ m.insns) : m.Guards := by
  have hplain : ∀ pc opener b, Guarded opener none (m.insns.drop pc) b := by
    intro pc opener b
    rw [← List.append_nil (m.insns.drop pc)]
    refine guarded_plain (fun _ => show Guarded opener none [] _ from trivial) b fun i hi =>
      Insn.plain_of_no_hook fun hk hik => ?_
    exact h hk (hik ▸ List.mem_of_mem_drop hi)
  exact ⟨fun opener b _ => hplain 0 opener b, fun _ pc _ opener b => hplain pc opener b⟩

namespace Woven

variable {v : Woven}

/-- **One block** in front of code that keeps to the rules. -/
theorem guarded_block {k : Nat} (hi : v.method.insns[k]? = some i) (hplain : i.Plain)
    (hrest : ∀ b, Guarded opener none rest b) (b : Bench) :
    Guarded opener none (v.plan.block k i ++ rest) b := by
  have hbefore : ∀ j ∈ Plan.codeAt k v.plan.before, j.Plain :=
    Plan.codeAt_plain fun e he => (v.planned.before e he).plain
  have hbehind := Plan.behind_plain (k := k) v.planned
  rcases Plan.recordCode_cases v.planned hi with hnone | ⟨target, put, rfl, htarget, hput, hcode⟩
  · have hahead : ∀ j ∈ v.plan.ahead k i, j.Plain := by
      unfold Plan.ahead
      rwa [hnone, List.append_nil]
    refine guarded_plain hrest b fun j hj => ?_
    cases hlabel : i.label? with
    | some l =>
      cases i with
      | label l' =>
        rw [Plan.block_label] at hj
        rcases List.mem_cons.mp hj with rfl | hj
        · trivial
        · exact (List.mem_append.mp hj).elim (hahead j) (hbehind j)
      | _ => simp [Insn.label?] at hlabel
    | none =>
      rw [Plan.block_other v.plan k hlabel] at hj
      rcases List.mem_append.mp hj with hj | hj
      · exact hahead j hj
      · exact (List.mem_append.mp hj).elim (Plan.inPlace_plain v.planned hplain j) (hbehind j)
  · rw [Plan.block_other v.plan k rfl, Plan.inPlace_recorded v.planned htarget]
    unfold Plan.ahead
    rw [hcode]
    simp only [List.append_assoc, List.cons_append, List.nil_append]
    exact guarded_plain (fun b => Plan.guarded_recorded v.planned hput
      (fun b => guarded_plain hrest b hbehind) b) b hbefore

/-- **From the beginning of each block** on, a woven method keeps to the rules. -/
theorem guarded_from (h : ∀ hk, .hook hk ∉ v.method.insns) : ∀ (left k : Nat) (b : Bench),
    v.method.insns.length - k ≤ left →
    Guarded opener none (v.result.insns.drop (v.startOf k)) b := by
  intro left
  induction left with
  | zero =>
    intro k b hk
    rw [v.plan.woven_end (List.getElem?_eq_none
      (show v.method.insns.length ≤ k by omega))]
    trivial
  | succ left ih =>
    intro k b hk
    cases hi : v.method.insns[k]? with
    | none =>
      rw [v.plan.woven_end hi]
      trivial
    | some i =>
      rw [v.plan.woven_drop_block hi]
      refine guarded_block hi (Insn.plain_of_no_hook fun hk' hik => ?_) (fun b => ih (k + 1) b ?_) b
      · exact h hk' (hik ▸ List.mem_of_getElem? hi)
      · omega

/-- **The prologue** claims the record that was made for the call. -/
theorem guarded_prologue (hrest : ∀ b, Guarded opener none rest b)
    (hready : b.world.store.Ready v.method.signature opener) :
    Guarded opener none (v.plan.prologue v.method ++ rest) b := by
  unfold Plan.prologue
  rw [List.append_assoc]
  have hnulls : Work.Through (fun _ _ => True)
      (v.plan.nullLocals.flatMap fun l => [.const .null, .store l])
      (fun b => b.world.store.Ready v.method.signature opener) b := by
    refine Work.through_flatMap
      (fun l _ b hb method pc inUse => ⟨rfl, fun method pc inUse => ?_⟩) hready
    simp only [Work.perform, Action.wp_bind, Work.wp_pop_cons, Work.wp_storeLocal]
    split
    · exact ⟨rfl, hb⟩
    · trivial
  refine guarded_through (fun i hi => ?_) hnulls fun b hb => ?_
  · obtain ⟨l, -, hi⟩ := List.mem_flatMap.mp hi
    simp only [List.mem_cons, List.not_mem_nil, or_false] at hi
    rcases hi with rfl | rfl <;> simp [Insn.Plain]
  · cases v.plan.ownRecord with
    | none => exact hrest b
    | some l =>
      refine ⟨?_, by simp, fun method pc inUse => ?_⟩
      · rintro signature ⟨⟩
        exact hb
      · have hstore : ∀ b, Guarded opener none ([.store l] ++ rest) b :=
          fun b => guarded_plain hrest b (by simp [Insn.Plain])
        exact hstore _

/-- **A woven method keeps to the rules.** -/
theorem guards (h : ∀ hk, .hook hk ∉ v.method.insns) : v.result.Guards where
  start opener b hready := by
    rw [v.plan.woven_prologue]
    exact guarded_prologue (fun b => guarded_from h _ 0 b (Nat.le_refl _)) hready
  jump label pc hpc opener b := by
    rw [Plan.labelAt?_woven v.planned] at hpc
    obtain ⟨k, -, rfl⟩ := Option.map_eq_some_iff.mp hpc
    exact guarded_from h _ k b (Nat.le_refl _)

end Woven

end Provenance
