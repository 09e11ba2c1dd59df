/-
# What woven code keeps on the stack

Read from left to right, every piece of code that weaving puts in finds on top of the stack the
points and records that it expects, and takes them away again (`Woven.Passes`).  So wherever woven
code can be, the kinds of what it has there are settled by the place alone (`Woven.Kept`), and
between the blocks there is nothing at all (`Woven.kept_from`).
-/
import Provenance.Proofs.Abreast

namespace Provenance

namespace Woven

variable {v : Woven} {kinds kinds' kinds'' : List OperandKind} {i : Insn}
    {code rest : List Insn} {k : Nat}
  {known : Nat → Prop}

/-! ## 1. Code and the kinds on top -/

/-- Code that leads straight on and turns some kinds into others. -/
inductive Passes (v : Woven) : List Insn → List OperandKind → List OperandKind → Prop where
  | nil (kinds : List OperandKind) : Passes v [] kinds kinds
  | cons {i : Insn} {rest : List Insn} {kinds kinds' kinds'' : List OperandKind}
      (hi : v.Turns i kinds kinds') (hstraight : i.jumpTarget? = none)
      (hrest : Passes v rest kinds' kinds'') : Passes v (i :: rest) kinds kinds''

/-- Code of which every instruction that is got to finds the kinds that it expects.  Where it jumps
to is reached. -/
def Kept (v : Woven) : List OperandKind → List Insn → Prop
  | _, [] => True
  | kinds, i :: rest => ∃ kinds', v.Turns i kinds kinds' ∧
      (∀ l k, i.jumpTarget? = some l → v.method.labelAt? l = some k → v.HasFrame k) ∧
      (i.fallsThrough = true → v.Kept kinds' rest)

theorem Passes.append (h : v.Passes code kinds kinds') (hrest : v.Passes rest kinds' kinds'') :
    v.Passes (code ++ rest) kinds kinds'' := by
  induction h with
  | nil => exact hrest
  | cons hi hstraight _ ih => exact .cons hi hstraight (ih hrest)

theorem Passes.one (hi : v.Turns i kinds kinds') (hstraight : i.jumpTarget? = none) :
    v.Passes [i] kinds kinds' := .cons hi hstraight (.nil _)

/-- Code that goes through, in front of code in which the kinds are kept. -/
theorem Passes.kept (h : v.Passes code kinds kinds') (hrest : v.Kept kinds' rest) :
    v.Kept kinds (code ++ rest) := by
  induction h with
  | nil => exact hrest
  | cons hi hstraight _ ih =>
    exact ⟨_, hi, fun l k hl => absurd (hstraight.symm.trans hl) (by simp), fun _ => ih hrest⟩

/-- Pieces of code that each leave the kinds as they were. -/
theorem passes_flatMap {α : Type} {f : α → List Insn} : ∀ {l : List α},
    (∀ a ∈ l, v.Passes (f a) kinds kinds) → v.Passes (l.flatMap f) kinds kinds
  | [], _ => .nil kinds
  | a :: l, h => (h a (by simp)).append (passes_flatMap fun a ha => h a (by simp [ha]))

theorem passes_codeAt {edits : List (Nat × List Insn)}
    (h : ∀ e ∈ edits, e.1 = k → v.Passes e.2 kinds kinds) :
    v.Passes (Plan.codeAt k edits) kinds kinds := by
  refine passes_flatMap fun e he => ?_
  obtain ⟨j, code⟩ := e
  simp only
  split
  · rename_i hj
    exact h _ he hj
  · exact .nil kinds

/-! ## 2. Single instructions -/

/-- A hook that takes and leaves nothing but points and records. -/
theorem turns_on_top {h : Hook} (kinds : List OperandKind)
    (hall : (h.operands ++ h.results).all OperandKind.tracked = true) :
    v.Turns (.hook h) (h.takes ++ kinds) (h.leaves ++ kinds) :=
  .hook (.inl (List.all_eq_true.mp hall))

/-- A hook that takes operands of the program. -/
theorem turns_below (h : Hook) : v.Turns (.hook h) h.takes h.leaves := by
  have : v.Turns (.hook h) (h.takes ++ []) (h.leaves ++ []) := .hook (.inr rfl)
  rwa [List.append_nil, List.append_nil] at this

/-- Storing in a local what it is for. -/
theorem turns_store {u : LocalUse} {l : Nat} (hl : v.plan.localOf u = some l)
    (kinds : List OperandKind) :
    v.Turns (.store l) (u.kind :: kinds) kinds :=
  .store (v.above hl) (fun u' hl' => by rw [v.planned.apart u' u l hl' hl]) kinds

/-- An instruction of the program that touches no local. -/
theorem turns_program (hhook : ∀ h, i ≠ .hook h) (hlocal : i.local? = none) : v.Turns i [] [] :=
  .program hhook fun l hl => absurd (hlocal.symm.trans hl) (by simp)

/-! ## 3. Pieces of code -/

/-- **Pushing a point.** -/
theorem passes_loading (h : v.plan.Loading code) (kinds : List OperandKind) :
    v.Passes code kinds (.point :: kinds) := by
  cases h with
  | constant place => exact .one (turns_on_top (h := .constantPoint place) kinds rfl) rfl
  | null => exact .one (.null kinds rfl) rfl
  | read hl => exact .one (.load hl kinds) rfl
  | merge hl => exact .one (.load hl kinds) rfl
  | result hl =>
    exact .cons (.load hl kinds) rfl
      (.one (turns_on_top (h := .invocationReturnPoint) kinds rfl) rfl)
  | argument n hl =>
    exact .cons (.load hl kinds) rfl
      (.one (turns_on_top (h := .invocationArgPoint n) kinds rfl) rfl)

/-- The code in front of an instruction. -/
theorem passes_before (h : Plan.BeforePiece v.context v.plan k code) : v.Passes code [] [] := by
  have hdup2 : v.Turns .dup2 [] [] := turns_program (by simp) rfl
  cases h with
  | element hl _ =>
    exact .cons hdup2 rfl (.cons (turns_below .elementPoint) rfl (.one (turns_store hl []) rfl))
  | @field l fd hl _ =>
    exact .cons (turns_program (by simp) rfl) rfl
      (.cons (turns_below (.fieldPoint fd.key)) rfl (.one (turns_store hl []) rfl))
  | join hl _ _ hcode =>
    exact (passes_loading (Plan.loading_of_loadPoint hcode) []).append
      (.one (turns_store hl []) rfl)
  | @fieldStore f fd code _ _ hcode =>
    rw [List.append_assoc]
    exact .cons hdup2 rfl (.cons (turns_program (by simp) rfl) rfl
      ((passes_loading (Plan.loading_of_pointCode hcode) []).append
        (.one (turns_below (.setFieldPoint fd.key)) rfl)))
  | returning _ _ _ hl hcode =>
    exact .cons (.load hl []) rfl ((passes_loading (Plan.loading_of_loadPoint hcode) _).append
      (.one (turns_on_top (h := .invocationReturning) [] rfl) rfl))

/-- The code behind an instruction. -/
theorem passes_after (h : Plan.AfterPiece v.context v.sites v.plan k code) :
    v.Passes code [] [] := by
  cases h with
  | member hl _ _ _ hcode =>
    exact (passes_loading (Plan.loading_of_loadPoint hcode) []).append
      (.one (turns_store hl []) rfl)
  | @literal _ classId offset _ _ => exact .one (turns_below (.constantString classId offset)) rfl

/-- The points of the marked operands of a concatenation. -/
theorem passes_marked {ts : List Ty} {vs : List FlowValue} {mask : List Char}
    (h : v.plan.Marked ts vs mask code) : ∀ kinds,
      v.Passes code kinds (List.replicate (mask.count 'T') .point ++ kinds) := by
  induction h with
  | done => exact fun kinds => .nil kinds
  | @marked _ _ _ mask _ _ hcode _ ih =>
    intro kinds
    have hcount : ('T' :: mask).count 'T' = mask.count 'T' + 1 := by simp
    rw [hcount, List.replicate_add, List.append_assoc]
    exact (passes_loading (Plan.loading_of_loadPoint hcode) kinds).append (ih _)
  | @unmarked _ _ _ _ mask _ _ ih =>
    intro kinds
    have hcount : ('.' :: mask).count 'T' = mask.count 'T' := by simp
    rw [hcount]
    exact ih kinds

/-- The code that gives a call its record. -/
theorem passes_recordCode (hi : v.method.insns[k]? = some i) :
    v.Passes (v.plan.recordCode k i) [] [] := by
  rcases Plan.recordCode_cases v.planned hi with hnone | ⟨m, put, rfl, -, hput, hcode⟩
  · rw [hnone]
    exact .nil []
  · rw [hcode]
    refine .cons (turns_on_top (h := .invocationCreate m.signature) [] rfl) rfl ?_
    have harguments : v.Passes (v.plan.argumentCode k) [.record] [.record] := by
      refine passes_flatMap fun e he => ?_
      obtain ⟨_, _, _, _, _, hcode⟩ := (v.planned.arguments e (List.mem_filter.mp he).1).call
      exact (passes_loading (Plan.loading_of_loadPoint hcode) _).append
        (.one (turns_on_top (h := .invocationSetArg e.2.1) [] rfl) rfl)
    refine harguments.append (.cons (turns_on_top (h := .invocationCalling) [] rfl) rfl ?_)
    cases hput with
    | kept hl => exact .one (turns_store hl []) rfl
    | dropped => exact .one (.drop .record []) rfl

/-- **The prologue.** -/
theorem passes_prologue (v : Woven) : v.Passes (v.plan.prologue v.method) [] [] := by
  refine Passes.append (passes_flatMap fun l hl => ?_) ?_
  · -- the local is for one purpose at most
    obtain ⟨k, hk, hkind⟩ : ∃ k : OperandKind, k.tracked = true ∧
        ∀ u, v.plan.localOf u = some l → u.kind = k := by
      by_cases h : ∃ u, v.plan.localOf u = some l
      · obtain ⟨u, hu⟩ := h
        exact ⟨u.kind, u.tracked_kind, fun u' hu' => by rw [v.planned.apart u' u l hu' hu]⟩
      · exact ⟨.point, rfl, fun u hu => absurd ⟨u, hu⟩ h⟩
    exact .cons (.null [] hk) rfl (.one (.store (v.planned.nulls l hl) hkind []) rfl)
  · cases hown : v.plan.ownRecord with
    | none => exact .nil []
    | some l =>
      exact .cons (turns_on_top (h := .invocationStart v.method.signature) [] rfl) rfl
        (.one (turns_store (u := .own) hown []) rfl)

/-! ## 4. Blocks -/

theorem passes_ahead (hi : v.method.insns[k]? = some i) : v.Passes (v.plan.ahead k i) [] [] :=
  (passes_codeAt fun e he hk => passes_before (hk ▸ v.planned.before e he)).append
  (passes_recordCode hi)

theorem passes_behind (v : Woven) (k : Nat) : v.Passes (v.plan.behind k) [] [] :=
  passes_codeAt fun e he hk => passes_after (hk ▸ v.planned.after e he)

variable {f : Frame}

/-- An instruction of the original that is reached. -/
theorem kept_insn (hi : v.method.insns[k]? = some i) (hf : v.frame? k = some f)
    (hrest : i.fallsThrough = true → v.Kept [] rest) : v.Kept [] (i :: rest) :=
  ⟨[], .program (fun h => v.analysed.not_hook hi hf h) fun _ hl => v.analysed.local_lt hi hf hl,
    fun _ _ hl ht => hasFrame_jump hi hf hl ht, hrest⟩

/-- The instruction, or what stands in its place. -/
theorem kept_inPlace (hi : v.method.insns[k]? = some i) (hf : v.frame? k = some f)
    (hrest : i.fallsThrough = true → v.Kept [] rest) : v.Kept [] (v.plan.inPlace k i ++ rest) := by
  unfold Plan.inPlace
  cases hreplaced : v.plan.replaced.lookup k with
  | none => exact kept_insn hi hf hrest
  | some code =>
    replace hrest := hrest (fallsThrough_of_replaced hi hreplaced)
    have hpiece := v.planned.replaced _ (mem_of_lookup hreplaced)
    simp only [Option.getD_some] at hpiece ⊢
    cases hpiece with
    | @arrayStore _ elem _ _ _ hcode =>
      refine Passes.kept ((passes_loading (Plan.loading_of_pointCode hcode) []).append ?_) hrest
      exact .one (turns_below (.arrayStoreWithPoint elem)) rfl
    | @concat _ args mask _ _ _ hmarked =>
      refine Passes.kept ((passes_marked hmarked []).append (.one ?_ rfl)) hrest
      have htakes : (Hook.concatWithPoints args (String.ofList mask)).takes =
          List.replicate (mask.count 'T') .point := by
        simp [Hook.takes, Hook.operands, OperandKind.tracked, markedCount]
      have := turns_below (v := v) (.concatWithPoints args (String.ofList mask))
      rwa [htakes, ← List.append_nil (List.replicate _ _)] at this
    | @stringComparison equal target hi' _ =>
      have hjump : i.jumpTarget? = some target := by
        rw [Option.some.inj (hi.symm.trans hi')]
        cases equal <;> rfl
      refine ⟨[], turns_below .stringEquals, by simp [Insn.jumpTarget?], fun _ => ?_⟩
      exact ⟨[], turns_program (by simp) rfl, fun l t hl ht =>
        hasFrame_jump hi hf (hjump.trans hl) ht, fun _ => hrest⟩
    | arrayCopy _ _ => exact Passes.kept (.one (turns_below .arrayCopy) rfl) hrest
    | arrayClone _ _ _ => exact Passes.kept (.one (turns_below .arrayClone) rfl) hrest

/-- **One block** of an instruction that is reached. -/
theorem kept_block (hi : v.method.insns[k]? = some i) (hf : v.frame? k = some f)
    (hrest : v.HasFrame (k + 1) → v.Kept [] rest) : v.Kept [] (v.plan.block k i ++ rest) := by
  have hnext (hfall : i.fallsThrough = true) : v.Kept [] rest := hrest (hasFrame_next hi hf hfall)
  cases hlabel : i.label? with
  | some l =>
    obtain rfl : i = .label l := by
      cases i <;> simp [Insn.label?] at hlabel
      rw [hlabel]
    rw [Plan.block_label, List.cons_append]
    exact kept_insn hi hf fun hfall =>
      ((passes_ahead hi).append (v.passes_behind k)).kept (hnext hfall)
  | none =>
    rw [Plan.block_other _ _ hlabel, List.append_assoc, List.append_assoc]
    exact (passes_ahead hi).kept
      (kept_inPlace hi hf fun hfall => (v.passes_behind k).kept (hnext hfall))

/-- **From the beginning of a block that is reached** the kinds are kept. -/
theorem kept_from : ∀ (left k : Nat), v.method.insns.length - k ≤ left → v.HasFrame k →
    v.Kept [] (v.result.insns.drop (v.startOf k)) := by
  intro left
  induction left with
  | zero =>
    intro k hk _
    rw [v.plan.woven_end (List.getElem?_eq_none (show v.method.insns.length ≤ k by omega))]
    trivial
  | succ left ih =>
    intro k hk hframe
    cases hi : v.method.insns[k]? with
    | none =>
      rw [v.plan.woven_end hi]
      trivial
    | some i =>
      obtain ⟨f, hf⟩ := hframe i hi
      rw [v.plan.woven_drop_block hi]
      exact kept_block hi hf fun hnext => ih (k + 1) (by omega) hnext

/-- **From the beginning of the method** they are kept. -/
theorem kept_start (v : Woven) : v.Kept [] v.result.insns := by
  rw [v.plan.woven_prologue]
  exact v.passes_prologue.kept (kept_from _ 0 (Nat.le_refl _) v.hasFrame_zero)

/-- From where a label is that is reached. -/
theorem kept_label {l pc : Nat} (hframe : ∀ k, v.method.labelAt? l = some k → v.HasFrame k)
    (hpc : v.result.labelAt? l = some pc) : v.Kept [] (v.result.insns.drop pc) := by
  rw [Plan.labelAt?_woven v.planned] at hpc
  obtain ⟨k, hk, rfl⟩ := Option.map_eq_some_iff.mp hpc
  exact kept_from _ k (Nat.le_refl _) (hframe k hk)

end Woven

end Provenance
