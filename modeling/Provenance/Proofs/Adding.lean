/-
# What stands in the blocks of woven code

Besides the instructions of the original, woven code consists of what weaving puts in around them
(`Insn.Inserted`), which leads straight on, and of what it puts in their place; `Insn.Added` is
either.
-/
import Provenance.Proofs.Weaving

namespace Provenance

/-! ## 1. Single instructions -/

/-- An instruction that weaving puts in around one of the original. -/
inductive Insn.Inserted (i : Insn) : Insn → Prop where
  | hook {h : Hook} (hget : ∀ key, h ≠ .fieldPoint key) (hset : ∀ key, h ≠ .setFieldPoint key) :
      Inserted i (.hook h)
  | fieldPoint {fd : FieldRef} (hi : i = .getField fd) : Inserted i (.hook (.fieldPoint fd.key))
  | setFieldPoint {fd : FieldRef} (hi : i = .putField fd) :
      Inserted i (.hook (.setFieldPoint fd.key))
  | load (l : Nat) : Inserted i (.load l)
  | store (l : Nat) : Inserted i (.store l)
  | null : Inserted i (.const .null)
  | dup : Inserted i .dup
  | dup2 : Inserted i .dup2
  | pop : Inserted i .pop

/-- An instruction that weaving puts in around one of the original or in its place. -/
inductive Insn.Added (i : Insn) : Insn → Prop where
  | inserted {j : Insn} (h : i.Inserted j) : Added i j
  | comparison (cond : Cond) {l : Nat} (hi : i = .ifRefEq l ∨ i = .ifRefNe l) :
      Added i (.ifZero cond l)

/-- Code around an instruction leads straight on. -/
theorem Insn.Inserted.jumpTarget? {i j : Insn} (h : i.Inserted j) : j.jumpTarget? = none := by
  cases h <;> rfl

namespace Insn.Added

variable {i j : Insn}

theorem fallsThrough (h : i.Added j) : j.fallsThrough = true := by
  cases h with
  | inserted h => cases h <;> rfl
  | comparison => rfl

theorem jumpTarget? (h : i.Added j) {l : Nat} (hl : j.jumpTarget? = some l) :
    i.jumpTarget? = some l := by
  cases h with
  | inserted h => simp [h.jumpTarget?] at hl
  | comparison cond hi => rcases hi with rfl | rfl <;> exact hl

end Insn.Added

/-! ## 2. Pieces of code -/

namespace Plan

variable {c : PlanContext} {S : List Site} {p : Plan} {k : Nat} {i : Insn} {code : List Insn}

theorem Loading.inserted (h : p.Loading code) : ∀ j ∈ code, i.Inserted j := by
  have hhook : ∀ {h : Hook}, (∀ key, h ≠ .fieldPoint key) → (∀ key, h ≠ .setFieldPoint key) →
      i.Inserted (.hook h) := fun hget hset => .hook hget hset
  cases h with
  | constant place => simpa using hhook (by simp) (by simp)
  | null => simpa using Insn.Inserted.null
  | read _ => simpa using Insn.Inserted.load _
  | merge _ => simpa using Insn.Inserted.load _
  | result _ => simpa using ⟨Insn.Inserted.load _, hhook (by simp) (by simp)⟩
  | argument n _ => simpa using ⟨Insn.Inserted.load _, hhook (by simp) (by simp)⟩

theorem BeforePiece.inserted (h : BeforePiece c p k code) (hi : c.method.insns[k]? = some i) :
    ∀ j ∈ code, i.Inserted j := by
  cases h with
  | element _ _ => simpa using ⟨Insn.Inserted.dup2, .hook (by simp) (by simp), .store _⟩
  | field _ hi' =>
    have hget := Insn.Inserted.fieldPoint (Option.some.inj (hi.symm.trans hi'))
    simpa using ⟨Insn.Inserted.dup, hget, .store _⟩
  | join _ _ _ hcode =>
    have hload := fun j hj => (loading_of_loadPoint hcode).inserted (i := i) j hj
    simpa [or_imp, forall_and] using ⟨hload, Insn.Inserted.store _⟩
  | fieldStore hi' _ hcode =>
    have hset := Insn.Inserted.setFieldPoint (Option.some.inj (hi.symm.trans hi'))
    have hload := fun j hj => (loading_of_pointCode hcode).inserted (i := i) j hj
    simpa [or_imp, forall_and] using ⟨Insn.Inserted.dup2, .pop, hload, hset⟩
  | @returning f t l code _ _ _ _ hcode =>
    have hload := fun j hj => (loading_of_loadPoint hcode).inserted (i := i) j hj
    have hhook : i.Inserted (.hook .invocationReturning) := .hook (by simp) (by simp)
    simpa [or_imp, forall_and] using ⟨Insn.Inserted.load l, hload, hhook⟩

theorem AfterPiece.inserted (h : AfterPiece c S p k code) : ∀ j ∈ code, i.Inserted j := by
  cases h with
  | member _ _ _ _ hcode =>
    have hload := fun j hj => (loading_of_loadPoint hcode).inserted (i := i) j hj
    simpa [or_imp, forall_and] using ⟨hload, Insn.Inserted.store _⟩
  | literal _ _ => simpa using Insn.Inserted.hook (by simp) (by simp)

theorem Marked.inserted {ts : List Ty} {vs : List FlowValue} {mask : List Char} {loads : List Insn}
    (h : p.Marked ts vs mask loads) : ∀ j ∈ loads, i.Inserted j := by
  induction h with
  | done => simp
  | marked hcode _ ih =>
    intro j hj
    exact (List.mem_append.mp hj).elim ((loading_of_loadPoint hcode).inserted j) (ih j)
  | unmarked _ ih => exact ih

theorem recordCode_inserted (hp : p.Sound c S) (hi : c.method.insns[k]? = some i) :
    ∀ j ∈ p.recordCode k i, i.Inserted j := by
  rcases recordCode_cases hp hi with hnone | ⟨target, put, -, -, hput, hcode⟩
  · simp [hnone]
  · have hargument : ∀ j ∈ p.argumentCode k, i.Inserted j := by
      intro j hj
      obtain ⟨e, he, hj⟩ := List.mem_flatMap.mp hj
      obtain ⟨_, _, _, _, _, hload⟩ := (hp.arguments e (List.mem_filter.mp he).1).call
      rcases List.mem_append.mp hj with hj | hj
      · exact (loading_of_loadPoint hload).inserted j hj
      · rw [List.mem_singleton.mp hj]
        exact .hook (by simp) (by simp)
    have hlast : i.Inserted put := by
      cases hput with
      | kept _ => exact .store _
      | dropped _ => exact .pop
    have hhook : ∀ h ∈ [Hook.invocationCreate target.signature, .invocationCalling],
        i.Inserted (.hook h) := by
      simpa using ⟨Insn.Inserted.hook (by simp) (by simp), Insn.Inserted.hook (by simp) (by simp)⟩
    rw [hcode]
    simp only [List.mem_cons, List.mem_append, List.not_mem_nil, or_false]
    rintro j (rfl | hj | rfl | rfl)
    · exact hhook _ (by simp)
    · exact hargument j hj
    · exact hhook _ (by simp)
    · exact hlast

theorem codeAt_inserted {edits : List (Nat × List Insn)}
    (h : ∀ e ∈ edits, e.1 = k → ∀ j ∈ e.2, i.Inserted j) : ∀ j ∈ codeAt k edits, i.Inserted j := by
  intro j hj
  obtain ⟨⟨k', code⟩, he, hj⟩ := List.mem_flatMap.mp hj
  simp only at hj
  split at hj
  · rename_i hk
    exact h _ he hk j hj
  · cases hj

theorem ahead_inserted (hp : p.Sound c S) (hi : c.method.insns[k]? = some i) :
    ∀ j ∈ p.ahead k i, i.Inserted j := by
  intro j hj
  rcases List.mem_append.mp hj with hj | hj
  · refine codeAt_inserted (fun e he hk => ?_) j hj
    exact (hp.before e he).inserted (hk.symm ▸ hi)
  · exact recordCode_inserted hp hi j hj

theorem behind_inserted (hp : p.Sound c S) : ∀ j ∈ p.behind k, i.Inserted j :=
  codeAt_inserted fun e he _ => (hp.after e he).inserted

/-- The prologue. -/
theorem prologue_inserted (m : Method) : ∀ j ∈ p.prologue m, i.Inserted j := by
  intro j hj
  unfold prologue at hj
  rcases List.mem_append.mp hj with hj | hj
  · obtain ⟨l, -, hj⟩ := List.mem_flatMap.mp hj
    simp only [List.mem_cons, List.not_mem_nil, or_false] at hj
    rcases hj with rfl | rfl
    · exact .null
    · exact .store l
  · split at hj
    · simp only [List.mem_cons, List.not_mem_nil, or_false] at hj
      rcases hj with rfl | rfl
      · exact .hook (by simp) (by simp)
      · exact .store _
    · cases hj

/-! ## 3. Whole blocks -/

theorem ReplacedPiece.added (h : ReplacedPiece c S p k code) (hi : c.method.insns[k]? = some i) :
    ∀ j ∈ code, i.Added j := by
  have hhook : ∀ {h : Hook}, (∀ key, h ≠ .fieldPoint key) → (∀ key, h ≠ .setFieldPoint key) →
      i.Added (.hook h) := fun hget hset => .inserted (.hook hget hset)
  cases h with
  | arrayStore _ _ hcode =>
    have hload := fun j hj =>
      Insn.Added.inserted ((loading_of_pointCode hcode).inserted (i := i) j hj)
    simpa [or_imp, forall_and] using ⟨hload, hhook (by simp) (by simp)⟩
  | concat _ _ hmarked =>
    have hload := fun j hj => Insn.Added.inserted (hmarked.inserted (i := i) j hj)
    simpa [or_imp, forall_and] using ⟨hload, hhook (by simp) (by simp)⟩
  | @stringComparison equal target hi' _ =>
    have hkind := Option.some.inj (hi.symm.trans hi')
    have hcompares : i = .ifRefEq target ∨ i = .ifRefNe target := by
      cases equal
      · exact .inr hkind
      · exact .inl hkind
    simpa using ⟨hhook (by simp) (by simp), Insn.Added.comparison _ hcompares⟩
  | arrayCopy _ _ => simpa using hhook (by simp) (by simp)
  | arrayClone _ _ _ => simpa using hhook (by simp) (by simp)

end Plan

namespace Woven

variable {v : Woven} {k : Nat} {i j : Insn}

/-- **What stands in a block**: the instruction, unless it is replaced, and what weaving puts in. -/
theorem mem_block (hi : v.method.insns[k]? = some i) (hj : j ∈ v.plan.block k i) :
    (j = i ∧ (i.label?.isSome ∨ v.plan.replaced.lookup k = none)) ∨ i.Added j := by
  have hahead := Plan.ahead_inserted v.planned hi
  have hbehind : ∀ j ∈ v.plan.behind k, i.Inserted j := Plan.behind_inserted v.planned
  cases hlabel : i.label? with
  | some l =>
    obtain rfl : i = .label l := by
      cases i <;> simp [Insn.label?] at hlabel
      rw [hlabel]
    rw [Plan.block_label, List.mem_cons, List.mem_append] at hj
    rcases hj with rfl | hj | hj
    · exact .inl ⟨rfl, .inl rfl⟩
    · exact .inr (.inserted (hahead j hj))
    · exact .inr (.inserted (hbehind j hj))
  | none =>
    rw [Plan.block_other _ _ hlabel, List.mem_append, List.mem_append] at hj
    rcases hj with hj | hj | hj
    · exact .inr (.inserted (hahead j hj))
    · unfold Plan.inPlace at hj
      cases hreplaced : v.plan.replaced.lookup k with
      | none =>
        rw [hreplaced] at hj
        exact .inl ⟨List.mem_singleton.mp hj, .inr rfl⟩
      | some code =>
        rw [hreplaced] at hj
        exact .inr ((v.planned.replaced _ (mem_of_lookup hreplaced)).added hi j hj)
    · exact .inr (.inserted (hbehind j hj))

/-- An instruction that is replaced falls through. -/
theorem fallsThrough_of_replaced (hi : v.method.insns[k]? = some i) {code : List Insn}
    (hreplaced : v.plan.replaced.lookup k = some code) : i.fallsThrough = true := by
  cases v.planned.replaced _ (mem_of_lookup hreplaced) with
  | @stringComparison equal target hi' _ =>
    rw [Option.some.inj (hi.symm.trans hi')]
    cases equal <;> rfl
  | arrayStore hi' _ _ | concat hi' _ _ | arrayCopy hi' _ | arrayClone hi' _ _ =>
    rw [Option.some.inj (hi.symm.trans hi')]
    rfl

/-- Whoever gets to the end of a block goes on to the next one. -/
theorem fallsThrough_of_block (hi : v.method.insns[k]? = some i)
    (h : ∀ j ∈ v.plan.block k i, j.fallsThrough = true) : i.fallsThrough = true := by
  cases hreplaced : v.plan.replaced.lookup k with
  | some code => exact fallsThrough_of_replaced hi hreplaced
  | none =>
    refine h i ?_
    cases hlabel : i.label? with
    | some l =>
      cases i <;> simp [Insn.label?] at hlabel
      simp [Plan.block_label]
    | none =>
      rw [Plan.block_other _ _ hlabel]
      simp [Plan.inPlace, hreplaced]

end Woven

end Provenance
