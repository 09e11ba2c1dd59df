/-
# Inserted code keeps to itself

What weaving puts in around an instruction stands in the middle of code that knows nothing of it.
It must lead straight on, work on operands and locals of its own, and leave the stack as high as it
was.  Operands of the method it may duplicate (`Insn.own` counts what lies above them), and the copy
of a literal takes the place of the literal.

Section 1 shows that code which comes to nothing of its own keeps the height, whatever that is
(`rise_of_own`); section 2 goes through the pieces of a plan; section 3 counts in them the hooks of
which there should not be more than one.
-/
import Provenance.Proofs.Adding

namespace Provenance

/-! ## 1. Operands of its own -/

/-- How many operands of its own code has behind an instruction, if it takes no others away. -/
def Insn.own (n : Nat) : Insn → Option Nat
  | .dup => some (n + 1)
  | .dup2 => some (n + 2)
  | .hook (.constantString _ _) => some n
  | i => if i.pops ≤ n then some (n - i.pops + i.pushes) else none

/-- The same behind code. -/
def own : Nat → List Insn → Option Nat
  | n, [] => some n
  | n, i :: code => (i.own n).bind fun n' => own n' code

/-- The height of the stack behind code, if every instruction finds its operands. -/
def rise : Nat → List Insn → Option Nat
  | h, [] => some h
  | h, i :: code => if i.pops ≤ h then rise (h - i.pops + i.pushes) code else none

theorem own_append (a b : List Insn) : ∀ n, own n (a ++ b) = (own n a).bind fun n' => own n' b := by
  induction a with
  | nil => intro n; rfl
  | cons i a ih =>
    intro n
    simp only [List.cons_append, own]
    cases i.own n with
    | none => rfl
    | some n' => exact ih n'

theorem own_append_of {n n' : Nat} {a : List Insn} (h : own n a = some n') (b : List Insn) :
    own n (a ++ b) = own n' b := by
  rw [own_append, h]
  rfl

/-- What lies below stays below. -/
theorem Insn.own_carry {i : Insn} {n n' h : Nat} (ho : i.own n = some n') (hp : i.pops ≤ h + n) :
    h + n - i.pops + i.pushes = h + n' := by
  unfold Insn.own at ho
  split at ho
  · cases ho
    simp only [pops, pushes, effect] at hp ⊢
    omega
  · cases ho
    simp only [pops, pushes, effect] at hp ⊢
    omega
  · cases ho
    simp only [pops, pushes, effect, Hook.effect] at hp ⊢
    omega
  · split at ho
    · cases ho
      omega
    · exact absurd ho (by simp)

/-- Two operands are enough to be duplicated. -/
theorem Insn.own_pops {i : Insn} {n n' h : Nat} (ho : i.own n = some n') (hh : 2 ≤ h) :
    i.pops ≤ h + n := by
  unfold Insn.own at ho
  split at ho
  · simp only [pops, effect]
    omega
  · simp only [pops, effect]
    omega
  · simp only [pops, effect, Hook.effect]
    omega
  · split at ho
    · omega
    · exact absurd ho (by simp)

/-- **The height of the stack** goes with the operands of its own. -/
theorem rise_of_own {code : List Insn} : ∀ {n n' : Nat}, own n code = some n' →
    (∀ h h', rise (h + n) code = some h' → h' = h + n') ∧
    ∀ h, 2 ≤ h → rise (h + n) code = some (h + n') := by
  induction code with
  | nil =>
    intro n n' ho
    cases ho
    exact ⟨fun h h' hr => (Option.some.inj hr).symm, fun h _ => rfl⟩
  | cons i code ih =>
    intro n n' ho
    obtain ⟨n₁, hi, hrest⟩ := Option.bind_eq_some_iff.mp ho
    obtain ⟨hsame, hruns⟩ := ih hrest
    constructor
    · intro h h' hr
      unfold rise at hr
      split at hr
      · rename_i hp
        rw [Insn.own_carry hi hp] at hr
        exact hsame h h' hr
      · exact absurd hr (by simp)
    · intro h hh
      have hp := Insn.own_pops hi hh
      unfold rise
      rw [if_pos hp, Insn.own_carry hi hp]
      exact hruns h hh

/-- An instruction that touches no local but those from `first` up to `last`. -/
def Insn.KeepsTo (first last : Nat) (i : Insn) : Prop :=
  ∀ l, i.local? = some l → first ≤ l ∧ l < last

/-- Code that leads straight on and touches nothing but what is its own. -/
structure SelfContained (first last : Nat) (code : List Insn) : Prop where
  onward : ∀ i ∈ code, i.label? = none ∧ i.jumpTarget? = none ∧ i.fallsThrough = true
  locals : ∀ i ∈ code, i.KeepsTo first last
  /-- It takes none of the operands that it finds, and leaves none. -/
  own : own 0 code = some 0
  /-- The stack is as high behind it as in front of it. -/
  height : ∀ h h', rise h code = some h' → h' = h := (rise_of_own own).1
  /-- Two operands are all that it asks for. -/
  runs : ∀ h, 2 ≤ h → rise h code = some h := (rise_of_own own).2

/-! ## 2. The pieces of a plan -/

theorem own_flatMap {α : Type} {f : α → List Insn} {n : Nat} : ∀ {l : List α},
    (∀ a ∈ l, own n (f a) = some n) → own n (l.flatMap f) = some n
  | [], _ => rfl
  | a :: l, h => by
    rw [List.flatMap_cons, own_append_of (h a (by simp))]
    exact own_flatMap fun b hb => h b (by simp [hb])

theorem Insn.Inserted.label? {i j : Insn} (h : i.Inserted j) : j.label? = none := by
  cases h <;> rfl

namespace Plan

variable {c : PlanContext} {S : List Site} {p : Plan} {k : Nat} {code : List Insn}

/-- The locals that a plan hands out. -/
abbrev Fresh (c : PlanContext) (p : Plan) (j : Insn) : Prop :=
  j.KeepsTo c.method.maxLocals p.nextLocal

theorem fresh_of_local {u : LocalUse} {l : Nat} (hp : p.Sound c S) (hl : p.localOf u = some l) :
    Fresh c p (.load l) ∧ Fresh c p (.store l) := by
  have hbounds := hp.above u l hl
  constructor
  · intro l' hl'
    cases hl'
    exact hbounds
  · intro l' hl'
    cases hl'
    exact hbounds

theorem fresh_of_none {j : Insn} (h : j.local? = none) : Fresh c p j := by
  intro l hl
  rw [h] at hl
  exact absurd hl (by simp)

theorem Loading.fresh (h : p.Loading code) (hp : p.Sound c S) : ∀ j ∈ code, Fresh c p j := by
  cases h with
  | constant _ | null => simpa using fresh_of_none rfl
  | read hl | merge hl => simpa using (fresh_of_local hp hl).1
  | result hl | argument _ hl => simpa using ⟨(fresh_of_local hp hl).1, fresh_of_none rfl⟩

theorem Loading.own (h : p.Loading code) (n : Nat) : Provenance.own n code = some (n + 1) := by
  cases h <;> simp [Provenance.own, Insn.own, Insn.pops, Insn.pushes, Insn.effect, Hook.effect]

theorem BeforePiece.fresh (h : BeforePiece c p k code) (hp : p.Sound c S) :
    ∀ j ∈ code, Fresh c p j := by
  have hplain : ∀ {j : Insn}, j.local? = none → Fresh c p j := fresh_of_none
  cases h with
  | element hl _ => simpa using ⟨hplain rfl, hplain rfl, (fresh_of_local hp hl).2⟩
  | field hl _ => simpa using ⟨hplain rfl, hplain rfl, (fresh_of_local hp hl).2⟩
  | join hl _ _ hcode =>
    have hload := (loading_of_loadPoint hcode).fresh hp
    simpa [or_imp, forall_and] using ⟨hload, (fresh_of_local hp hl).2⟩
  | fieldStore _ _ hcode =>
    have hload := (loading_of_pointCode hcode).fresh hp
    simpa [or_imp, forall_and] using ⟨hplain rfl, hplain rfl, hload, hplain rfl⟩
  | returning _ _ _ hl hcode =>
    have hload := (loading_of_loadPoint hcode).fresh hp
    simpa [or_imp, forall_and] using ⟨(fresh_of_local hp hl).1, hload, hplain rfl⟩

theorem BeforePiece.own (h : BeforePiece c p k code) : Provenance.own 0 code = some 0 := by
  cases h with
  | element _ _ | field _ _ => rfl
  | join _ _ _ hcode =>
    rw [own_append_of ((loading_of_loadPoint hcode).own 0)]
    rfl
  | fieldStore _ _ hcode =>
    have hdup : Provenance.own 0 [.dup2, .pop] = some 1 := rfl
    rw [List.append_assoc, own_append_of hdup, own_append_of ((loading_of_pointCode hcode).own 1)]
    rfl
  | @returning _ _ l code _ _ _ _ hcode =>
    have hrecord : Provenance.own 0 [.load l] = some 1 := rfl
    have hpoint := own_append_of ((loading_of_loadPoint hcode).own 1) [.hook .invocationReturning]
    exact (own_append_of hrecord (code ++ [.hook .invocationReturning])).trans hpoint

theorem AfterPiece.fresh (h : AfterPiece c S p k code) (hp : p.Sound c S) :
    ∀ j ∈ code, Fresh c p j := by
  cases h with
  | member hl _ _ _ hcode =>
    have hload := (loading_of_loadPoint hcode).fresh hp
    simpa [or_imp, forall_and] using ⟨hload, (fresh_of_local hp hl).2⟩
  | literal _ _ => simpa using fresh_of_none rfl

theorem AfterPiece.own (h : AfterPiece c S p k code) : Provenance.own 0 code = some 0 := by
  cases h with
  | member _ _ _ _ hcode =>
    rw [own_append_of ((loading_of_loadPoint hcode).own 0)]
    rfl
  | literal _ _ => rfl

theorem Marked.fresh {ts : List Ty} {vs : List FlowValue} {mask : List Char} {loads : List Insn}
    (h : p.Marked ts vs mask loads) (hp : p.Sound c S) : ∀ j ∈ loads, Fresh c p j := by
  induction h with
  | done => simp
  | marked hcode _ ih =>
    intro j hj
    exact (List.mem_append.mp hj).elim ((loading_of_loadPoint hcode).fresh hp j) (ih j)
  | unmarked _ ih => exact ih

theorem ReplacedPiece.fresh (h : ReplacedPiece c S p k code) (hp : p.Sound c S) :
    ∀ j ∈ code, Fresh c p j := by
  cases h with
  | arrayStore _ _ hcode =>
    have hload := (loading_of_pointCode hcode).fresh hp
    simpa [or_imp, forall_and] using ⟨hload, fresh_of_none rfl⟩
  | concat _ _ hmarked => simpa [or_imp, forall_and] using ⟨hmarked.fresh hp, fresh_of_none rfl⟩
  | stringComparison _ _ => simpa using ⟨fresh_of_none rfl, fresh_of_none rfl⟩
  | arrayCopy _ _ | arrayClone _ _ _ => simpa using fresh_of_none rfl

/-- The record of a call lies above all operands until it is put away. -/
theorem recordCode_own (hp : p.Sound c S) {i : Insn} (hi : c.method.insns[k]? = some i) :
    Provenance.own 0 (p.recordCode k i) = some 0 := by
  rcases recordCode_cases hp hi with hnone | ⟨target, put, -, -, hput, hcode⟩
  · rw [hnone]
    rfl
  · have hcreate : Provenance.own 0 [.hook (.invocationCreate target.signature)] = some 1 := rfl
    have hargs : Provenance.own 1 (p.argumentCode k) = some 1 := by
      refine own_flatMap fun e he => ?_
      obtain ⟨_, _, _, _, _, hload⟩ := (hp.arguments e (List.mem_filter.mp he).1).call
      rw [own_append_of ((loading_of_loadPoint hload).own 1)]
      rfl
    have hlast : Provenance.own 1 [.hook .invocationCalling, put] = some 0 := by
      cases hput <;> rfl
    rw [hcode, ← List.singleton_append, own_append_of hcreate, own_append_of hargs]
    exact hlast

theorem recordCode_fresh (hp : p.Sound c S) {i : Insn} (hi : c.method.insns[k]? = some i) :
    ∀ j ∈ p.recordCode k i, Fresh c p j := by
  rcases recordCode_cases hp hi with hnone | ⟨target, put, -, -, hput, hcode⟩
  · simp [hnone]
  · have hargs : ∀ j ∈ p.argumentCode k, Fresh c p j := by
      intro j hj
      obtain ⟨e, he, hj⟩ := List.mem_flatMap.mp hj
      obtain ⟨_, _, _, _, _, hload⟩ := (hp.arguments e (List.mem_filter.mp he).1).call
      rcases List.mem_append.mp hj with hj | hj
      · exact (loading_of_loadPoint hload).fresh hp j hj
      · rw [List.mem_singleton.mp hj]
        exact fresh_of_none rfl
    have hlast : Fresh c p put := by
      cases hput with
      | kept hl => exact (fresh_of_local hp hl).2
      | dropped _ => exact fresh_of_none rfl
    rw [hcode]
    simp only [List.mem_cons, List.mem_append, List.not_mem_nil, or_false]
    rintro j (rfl | hj | rfl | rfl)
    · exact fresh_of_none rfl
    · exact hargs j hj
    · exact fresh_of_none rfl
    · exact hlast

theorem exists_of_mem_codeAt {edits : List (Nat × List Insn)} {j : Insn} (h : j ∈ codeAt k edits) :
    ∃ e ∈ edits, e.1 = k ∧ j ∈ e.2 := by
  obtain ⟨e, he, hj⟩ := List.mem_flatMap.mp h
  obtain ⟨k', code⟩ := e
  simp only at hj
  split at hj
  · rename_i hk
    exact ⟨_, he, hk, hj⟩
  · cases hj

theorem codeAt_fresh {edits : List (Nat × List Insn)} (h : ∀ e ∈ edits, ∀ j ∈ e.2, Fresh c p j) :
    ∀ j ∈ codeAt k edits, Fresh c p j := by
  intro j hj
  obtain ⟨e, he, -, hj⟩ := exists_of_mem_codeAt hj
  exact h e he j hj

theorem codeAt_own {edits : List (Nat × List Insn)}
    (h : ∀ e ∈ edits, Provenance.own 0 e.2 = some 0) :
    Provenance.own 0 (codeAt k edits) = some 0 := by
  refine own_flatMap fun e he => ?_
  obtain ⟨j, code⟩ := e
  simp only
  split
  · exact h _ he
  · rfl

/-- **The code in front of an instruction** keeps to itself. -/
theorem ahead_selfContained (hp : p.Sound c S) {i : Insn} (hi : c.method.insns[k]? = some i) :
    SelfContained c.method.maxLocals p.nextLocal (p.ahead k i) where
  onward j hj := by
    have hins := ahead_inserted hp hi j hj
    exact ⟨hins.label?, hins.jumpTarget?, (Insn.Added.inserted hins).fallsThrough⟩
  locals j hj := by
    rcases List.mem_append.mp hj with hj | hj
    · exact codeAt_fresh (fun e he => (hp.before e he).fresh hp) j hj
    · exact recordCode_fresh hp hi j hj
  own := by
    rw [ahead, own_append_of (codeAt_own fun e he => (hp.before e he).own)]
    exact recordCode_own hp hi

/-- **The code behind an instruction** does. -/
theorem behind_selfContained (hp : p.Sound c S) (k : Nat) :
    SelfContained c.method.maxLocals p.nextLocal (p.behind k) where
  onward j hj := by
    have hins : Insn.Inserted .nop j := behind_inserted hp j hj
    exact ⟨hins.label?, hins.jumpTarget?, (Insn.Added.inserted hins).fallsThrough⟩
  locals := codeAt_fresh fun e he => (hp.after e he).fresh hp
  own := codeAt_own fun e he => (hp.after e he).own

/-- **The prologue** does. -/
theorem prologue_selfContained (hp : p.Sound c S) (m : Method) :
    SelfContained c.method.maxLocals p.nextLocal (p.prologue m) where
  onward j hj := by
    have hins : Insn.Inserted .nop j := prologue_inserted m j hj
    exact ⟨hins.label?, hins.jumpTarget?, (Insn.Added.inserted hins).fallsThrough⟩
  locals j hj := by
    unfold prologue at hj
    rcases List.mem_append.mp hj with hj | hj
    · obtain ⟨l, hl, hj⟩ := List.mem_flatMap.mp hj
      simp only [List.mem_cons, List.not_mem_nil, or_false] at hj
      rcases hj with rfl | rfl
      · exact fresh_of_none (c := c) (p := p) rfl
      · intro l' hl'
        cases hl'
        exact hp.nulls l hl
    · split at hj
      · rename_i l hl
        simp only [List.mem_cons, List.not_mem_nil, or_false] at hj
        rcases hj with rfl | rfl
        · exact fresh_of_none (c := c) (p := p) rfl
        · exact (fresh_of_local (u := .own) hp hl).2
      · cases hj
  own := by
    unfold prologue
    rw [own_append_of (own_flatMap fun l _ => rfl)]
    cases p.ownRecord <;> rfl

end Plan

/-! ## 3. Hooks that are counted -/

/-- The hooks of which there should not be more than one. -/
inductive Tally where
  /-- They take the point of an element or a field that is about to be read. -/
  | point
  /-- They make the record of a call. -/
  | record
  /-- They claim the record of the method itself. -/
  | claim
  deriving DecidableEq, Repr

/-- Whether an instruction is such a hook. -/
def Tally.counts : Tally → Insn → Bool
  | .point, .hook .elementPoint | .point, .hook (.fieldPoint _) => true
  | .record, .hook (.invocationCreate _) => true
  | .claim, .hook (.invocationStart _) => true
  | _, _ => false

/-- Code without any of them. -/
def Uncounted (code : List Insn) : Prop := ∀ j ∈ code, ∀ t : Tally, t.counts j = false

theorem Uncounted.countP {code : List Insn} (h : Uncounted code) (t : Tally) :
    code.countP t.counts = 0 := by
  rw [List.countP_eq_zero]
  intro j hj
  simp [h j hj t]

theorem Uncounted.append {a b : List Insn} (ha : Uncounted a) (hb : Uncounted b) :
    Uncounted (a ++ b) :=
  fun j hj => (List.mem_append.mp hj).elim (ha j) (hb j)

/-- Code that is short enough to be looked through. -/
theorem uncounted_of_forall {code : List Insn}
    (h : ∀ t : Tally, code.all (fun j => !t.counts j) = true) : Uncounted code := by
  intro j hj t
  have hall := List.all_eq_true.mp (h t) j hj
  simpa using hall

namespace Plan

variable {c : PlanContext} {S : List Site} {p : Plan} {k : Nat} {code : List Insn}

theorem Loading.uncounted (h : p.Loading code) : Uncounted code := by
  cases h <;> exact uncounted_of_forall fun t => by cases t <;> rfl

theorem AfterPiece.uncounted (h : AfterPiece c S p k code) : Uncounted code := by
  cases h with
  | member _ _ _ _ hcode =>
    exact (loading_of_loadPoint hcode).uncounted.append
      (uncounted_of_forall fun t => by cases t <;> rfl)
  | literal _ _ => exact uncounted_of_forall fun t => by cases t <;> rfl

theorem Marked.uncounted {ts : List Ty} {vs : List FlowValue} {mask : List Char} {loads : List Insn}
    (h : p.Marked ts vs mask loads) : Uncounted loads := by
  induction h with
  | done => exact fun j hj => nomatch hj
  | marked hcode _ ih => exact (loading_of_loadPoint hcode).uncounted.append ih
  | unmarked _ ih => exact ih

theorem ReplacedPiece.uncounted (h : ReplacedPiece c S p k code) : Uncounted code := by
  have hlast : ∀ {hook : Hook}, (∀ t : Tally, t.counts (.hook hook) = false) →
      Uncounted [.hook hook] :=
    fun h => uncounted_of_forall fun t => by simp [h t]
  cases h with
  | arrayStore _ _ hcode =>
    exact (loading_of_pointCode hcode).uncounted.append (hlast fun t => by cases t <;> rfl)
  | concat _ _ hmarked => exact hmarked.uncounted.append (hlast fun t => by cases t <;> rfl)
  | stringComparison _ _ => exact uncounted_of_forall fun t => by cases t <;> rfl
  | arrayCopy _ _ | arrayClone _ _ _ => exact hlast fun t => by cases t <;> rfl

/-- In front of an instruction only points are taken. -/
theorem BeforePiece.countP (h : BeforePiece c p k code) {t : Tally} (ht : t ≠ .point) :
    code.countP t.counts = 0 := by
  have hsmall : ∀ {code : List Insn}, Uncounted code → code.countP t.counts = 0 :=
    fun h => h.countP t
  cases h with
  | element _ _ | field _ _ => cases t <;> first | rfl | exact absurd rfl ht
  | join _ _ _ hcode =>
    rw [List.countP_append, hsmall (loading_of_loadPoint hcode).uncounted]
    cases t <;> rfl
  | fieldStore _ _ hcode =>
    rw [List.countP_append, List.countP_append, hsmall (loading_of_pointCode hcode).uncounted]
    cases t <;> rfl
  | returning _ _ _ _ hcode =>
    rw [List.cons_append, List.countP_cons, List.countP_append,
      hsmall (loading_of_loadPoint hcode).uncounted]
    cases t <;> rfl

theorem codeAt_countP {edits : List (Nat × List Insn)} {t : Tally}
    (h : ∀ e ∈ edits, e.1 = k → e.2.countP t.counts = 0) :
    (codeAt k edits).countP t.counts = 0 := by
  rw [List.countP_eq_zero]
  intro j hj
  obtain ⟨e, he, hk, hj⟩ := exists_of_mem_codeAt hj
  exact List.countP_eq_zero.mp (h e he hk) j hj

/-- **A call gets at most one record**, and no other instruction does. -/
theorem recordCode_countP (hp : p.Sound c S) {i : Insn}
    (hi : c.method.insns[k]? = some i) (t : Tally) :
    (p.recordCode k i).countP t.counts ≤ 1 ∧
    (t ≠ .record ∨ (∀ target, i ≠ .invoke target) → (p.recordCode k i).countP t.counts = 0) := by
  rcases recordCode_cases hp hi with hnone | ⟨target, put, rfl, -, hput, hcode⟩
  · simp [hnone]
  · have hargs : (p.argumentCode k).countP t.counts = 0 := by
      refine Uncounted.countP (fun j hj => ?_) t
      obtain ⟨e, he, hj⟩ := List.mem_flatMap.mp hj
      obtain ⟨_, _, _, _, _, hload⟩ := (hp.arguments e (List.mem_filter.mp he).1).call
      rcases List.mem_append.mp hj with hj | hj
      · exact (loading_of_loadPoint hload).uncounted j hj
      · rw [List.mem_singleton.mp hj]
        intro t
        cases t <;> rfl
    have hlast : List.countP t.counts [.hook .invocationCalling, put] = 0 := by
      cases hput <;> cases t <;> rfl
    rw [hcode, List.countP_cons, List.countP_append, hargs, hlast]
    cases t <;> simp [Tally.counts]

theorem behind_countP (hp : p.Sound c S) (k : Nat) (t : Tally) : (p.behind k).countP t.counts = 0 :=
  codeAt_countP fun e he _ => (hp.after e he).uncounted.countP t

/-- **The method claims its record at most once.** -/
theorem prologue_countP (m : Method) (t : Tally) : (p.prologue m).countP t.counts ≤ 1 ∧
    (t ≠ .claim → (p.prologue m).countP t.counts = 0) := by
  have hnulls : (p.nullLocals.flatMap fun l => [Insn.const .null, .store l]).countP t.counts =
      0 := by
    rw [List.countP_eq_zero]
    intro j hj
    obtain ⟨l, -, hj⟩ := List.mem_flatMap.mp hj
    simp only [List.mem_cons, List.not_mem_nil, or_false] at hj
    rcases hj with rfl | rfl <;> cases t <;> simp [Tally.counts]
  unfold prologue
  rw [List.countP_append, hnulls]
  cases p.ownRecord <;> cases t <;> simp [List.countP_cons, Tally.counts]

end Plan

end Provenance
