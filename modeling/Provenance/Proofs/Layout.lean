/-
# Where the woven code stands

A woven method is its prologue and then one block for each instruction of the original.  This file
says where the blocks begin (`Plan.startOf`), what each consists of, and that labels stay what they
were: the only label in a block is the instruction itself, at its head, so a jump to a label leads
to the beginning of the block of the instruction that was there (`Plan.labelAt?_woven`).
-/
import Provenance.Proofs.Planning

namespace Provenance

/-! ## 1. Code without labels -/

@[simp] theorem labelsOf_nil : labelsOf [] = [] := rfl

theorem labelsOf_cons (i : Insn) (rest : List Insn) :
    labelsOf (i :: rest) = i.label?.toList ++ labelsOf rest := by
  cases h : i.label? <;> simp [labelsOf, h]

theorem labelsOf_flatMap {α : Type} {f : α → List Insn} : ∀ {l : List α},
    (∀ a ∈ l, labelsOf (f a) = []) → labelsOf (l.flatMap f) = []
  | [], _ => rfl
  | a :: l, h => by
    rw [List.flatMap_cons, labelsOf_append, h a (by simp),
      labelsOf_flatMap fun b hb => h b (by simp [hb])]
    rfl

/-- Code without labels is no place to jump to. -/
theorem findIdx?_of_labelsOf_nil {l : Nat} {code : List Insn} (h : labelsOf code = []) :
    code.findIdx? (fun i => i.label? == some l) = none := by
  rw [List.findIdx?_eq_none_iff]
  intro i hi
  have hnone : i.label? = none := by
    unfold labelsOf at h
    rw [List.filterMap_eq_nil_iff] at h
    exact h i hi
  simp [hnone]

namespace Plan

/-- What pushing a point amounts to. -/
inductive Loading (p : Plan) : List Insn → Prop where
  | constant (place : ClassConstant) : Loading p [.hook (.constantPoint place)]
  | null : Loading p [.const .null]
  | read {k l : Nat} (hl : p.localOf (.point k) = some l) : Loading p [.load l]
  | merge {slot : MergeSlot} {l : Nat} (hl : p.localOf (.merge slot) = some l) :
      Loading p [.load l]
  | result {k l : Nat} (hl : p.localOf (.record k) = some l) :
      Loading p [.load l, .hook .invocationReturnPoint]
  | argument {l : Nat} (n : Nat) (hl : p.localOf .own = some l) :
      Loading p [.load l, .hook (.invocationArgPoint n)]

theorem loading_of_loadPoint {p : Plan} {v : FlowValue} {code : List Insn}
    (h : p.loadPoint v = .ok code) : p.Loading code := by
  unfold loadPoint at h
  simp only at h
  split at h
  · rename_i k _ _
    cases hk : p.constants.lookup k with
    | none => simp [hk] at h
    | some place =>
      simp only [hk, Except.ok.injEq] at h
      exact h ▸ .constant place
  · rename_i k _
    cases hk : p.pointLocals.lookup k with
    | none => simp [hk] at h
    | some l =>
      simp only [hk, Except.ok.injEq] at h
      exact h ▸ .read (k := k) hk
  · rename_i k _ _
    cases hk : p.pointLocals.lookup k with
    | none => simp [hk] at h
    | some l =>
      simp only [hk, Except.ok.injEq] at h
      exact h ▸ .read (k := k) hk
  · rename_i k _
    cases hk : p.kept.lookup k with
    | none => simp [hk] at h
    | some l =>
      simp only [hk, Except.ok.injEq] at h
      exact h ▸ .result (k := k) hk
  · rename_i n _
    cases hk : p.ownRecord with
    | none => simp [hk] at h
    | some l =>
      simp only [hk, Except.ok.injEq] at h
      exact h ▸ .argument n hk
  · rename_i slot _
    cases hk : p.mergeLocals.lookup slot with
    | none => simp [hk] at h
    | some r =>
      cases r with
      | none =>
        simp only [hk, Except.ok.injEq] at h
        exact h ▸ .null
      | some l =>
        simp only [hk, Except.ok.injEq] at h
        exact h ▸ .merge (show p.localOf (.merge slot) = some _ by simp [localOf, hk])
  · simp only [Except.ok.injEq] at h
    exact h ▸ .null

theorem loading_of_pointCode {p : Plan} {v : FlowValue} {code : List Insn}
    (h : p.PointCode v code) : p.Loading code := by
  rcases h with h | ⟨-, rfl⟩
  · exact loading_of_loadPoint h
  · exact .null

theorem Loading.labels {p : Plan} {code : List Insn} (h : p.Loading code) : labelsOf code = [] := by
  cases h <;> rfl

variable {c : PlanContext} {S : List Site} {p : Plan} {k : Nat}

theorem BeforePiece.labels {code : List Insn} (h : BeforePiece c p k code) :
    labelsOf code = [] := by
  cases h with
  | element _ _ => rfl
  | field _ _ => rfl
  | join _ _ _ hcode =>
    rw [labelsOf_append, (loading_of_loadPoint hcode).labels]
    rfl
  | fieldStore _ _ hcode =>
    rw [labelsOf_append, labelsOf_append, (loading_of_pointCode hcode).labels]
    rfl
  | returning _ _ _ _ hcode =>
    rw [List.cons_append, labelsOf_cons, labelsOf_append, (loading_of_loadPoint hcode).labels]
    rfl

theorem AfterPiece.labels {code : List Insn} (h : AfterPiece c S p k code) :
    labelsOf code = [] := by
  cases h with
  | member _ _ _ _ hcode =>
    rw [labelsOf_append, (loading_of_loadPoint hcode).labels]
    rfl
  | literal _ _ => rfl

theorem Marked.labels {ts : List Ty} {vs : List FlowValue} {mask : List Char} {loads : List Insn}
    (h : p.Marked ts vs mask loads) : labelsOf loads = [] := by
  induction h with
  | done => rfl
  | marked hcode _ ih =>
    rw [labelsOf_append, (loading_of_loadPoint hcode).labels, ih]
    rfl
  | unmarked _ ih => exact ih

theorem ReplacedPiece.labels {code : List Insn} (h : ReplacedPiece c S p k code) :
    labelsOf code = [] := by
  cases h with
  | arrayStore _ _ hcode =>
    rw [labelsOf_append, (loading_of_pointCode hcode).labels]
    rfl
  | concat _ _ hmarked =>
    rw [labelsOf_append, hmarked.labels]
    rfl
  | _ => rfl

/-! ## 2. Blocks -/

/-- The code in front of an instruction. -/
def ahead (p : Plan) (k : Nat) (i : Insn) : List Insn := codeAt k p.before ++ p.recordCode k i

/-- The instruction, or what stands in its place. -/
def inPlace (p : Plan) (k : Nat) (i : Insn) : List Insn := (p.replaced.lookup k).getD [i]

/-- The code behind an instruction. -/
def behind (p : Plan) (k : Nat) : List Insn := codeAt k p.after

theorem block_label (p : Plan) (k l : Nat) :
    p.block k (.label l) = .label l :: (p.ahead k (.label l) ++ p.behind k) := rfl

theorem block_other (p : Plan) (k : Nat) {i : Insn} (hi : i.label? = none) :
    p.block k i = p.ahead k i ++ (p.inPlace k i ++ p.behind k) := by
  unfold block
  cases i with
  | label l => simp [Insn.label?] at hi
  | _ => simp [ahead, inPlace, behind]

theorem codeAt_labels {edits : List (Nat × List Insn)} (h : ∀ e ∈ edits, labelsOf e.2 = []) :
    labelsOf (codeAt k edits) = [] := by
  refine labelsOf_flatMap fun e he => ?_
  obtain ⟨j, code⟩ := e
  simp only
  split
  · exact h _ he
  · rfl

/-- Where the record of a call goes once the call is about to be made. -/
inductive Putting (p : Plan) (k : Nat) : Insn → Prop where
  | kept {l : Nat} (hl : p.localOf (.record k) = some l) : Putting p k (.store l)
  | dropped (hl : p.localOf (.record k) = none) : Putting p k .pop

/-- The code that fills in the points of the arguments of a call. -/
def argumentCode (p : Plan) (k : Nat) : List Insn :=
  (p.arguments.filter fun e => e.1 = k).flatMap fun e =>
    e.2.2 ++ [.hook (.invocationSetArg e.2.1)]

/-- **The code that gives a call its record**, if there is any. -/
theorem recordCode_cases (hp : p.Sound c S) {i : Insn} (hi : c.method.insns[k]? = some i) :
    p.recordCode k i = [] ∨ ∃ target put, i = .invoke target ∧ Recorded c k target ∧
      p.Putting k put ∧ p.recordCode k i = .hook (.invocationCreate target.signature) ::
        (p.argumentCode k ++ [.hook .invocationCalling, put]) := by
  by_cases hnone : (p.arguments.filter fun e => e.1 = k).isEmpty && (p.kept.lookup k).isNone
  · refine .inl ?_
    unfold recordCode
    simp only [hnone, if_true]
  · refine .inr ?_
    have hcall : ∃ target, Recorded c k target := by
      cases hkept : p.kept.lookup k with
      | some l => exact hp.served (.record k) l hkept
      | none =>
        simp only [hkept, Option.isNone_none, Bool.and_true, List.isEmpty_iff] at hnone
        obtain ⟨e, he⟩ := List.exists_mem_of_ne_nil _ hnone
        obtain ⟨hmem, hk⟩ := List.mem_filter.mp he
        obtain ⟨target, _, h, -⟩ := (hp.arguments e hmem).call
        exact ⟨target, (of_decide_eq_true hk : e.1 = k) ▸ h⟩
    obtain ⟨target, htarget⟩ := hcall
    obtain rfl : i = .invoke target := Option.some.inj (hi.symm.trans htarget.1)
    cases hkept : p.kept.lookup k with
    | some l =>
      rw [hkept] at hnone
      refine ⟨target, .store l, rfl, htarget, .kept hkept, ?_⟩
      unfold recordCode argumentCode
      simp only [hnone, hkept, Bool.false_eq_true, if_false, List.singleton_append]
      rfl
    | none =>
      rw [hkept] at hnone
      refine ⟨target, .pop, rfl, htarget, .dropped hkept, ?_⟩
      unfold recordCode argumentCode
      simp only [hnone, hkept, Bool.false_eq_true, if_false, List.singleton_append]
      rfl

/-- A record that is kept is made. -/
theorem localOf_record_of_recordCode_nil {i : Insn} (h : p.recordCode k i = []) :
    p.localOf (.record k) = none := by
  cases hkept : p.kept.lookup k with
  | none => exact hkept
  | some l =>
    unfold recordCode at h
    simp [hkept] at h

theorem recordCode_labels (hp : p.Sound c S) (i : Insn) : labelsOf (p.recordCode k i) = [] := by
  unfold recordCode
  simp only
  split
  · rfl
  · have hset : labelsOf ((p.arguments.filter fun e => e.1 = k).flatMap fun e =>
        e.2.2 ++ [.hook (.invocationSetArg e.2.1)]) = [] := by
      refine labelsOf_flatMap fun e he => ?_
      obtain ⟨_, _, _, _, _, hcode⟩ := (hp.arguments e (List.mem_filter.mp he).1).call
      rw [labelsOf_append, (loading_of_loadPoint hcode).labels]
      rfl
    rw [labelsOf_append, labelsOf_append, hset]
    cases i <;> cases p.kept.lookup k <;> rfl

theorem ahead_labels (hp : p.Sound c S) (i : Insn) : labelsOf (p.ahead k i) = [] := by
  unfold ahead
  rw [labelsOf_append, codeAt_labels fun e he => (hp.before e he).labels, recordCode_labels hp i]
  rfl

theorem behind_labels (hp : p.Sound c S) : labelsOf (p.behind k) = [] :=
  codeAt_labels fun e he => (hp.after e he).labels

theorem inPlace_labels (hp : p.Sound c S) {i : Insn} (hi : i.label? = none) :
    labelsOf (p.inPlace k i) = [] := by
  unfold inPlace
  cases hk : p.replaced.lookup k with
  | none => simp [labelsOf_cons, hi]
  | some code => exact (hp.replaced _ (mem_of_lookup hk)).labels

/-- **The labels of a block** are those of its instruction. -/
theorem block_labels (hp : p.Sound c S) (i : Insn) : labelsOf (p.block k i) = i.label?.toList := by
  cases hi : i.label? with
  | none =>
    rw [block_other p k hi, labelsOf_append, labelsOf_append, ahead_labels hp, inPlace_labels hp hi,
      behind_labels hp]
    rfl
  | some l =>
    cases i with
    | label l' =>
      rw [block_label, labelsOf_cons, labelsOf_append, ahead_labels hp, behind_labels hp]
      simp [Insn.label?] at hi ⊢
      exact hi
    | _ => simp [Insn.label?] at hi

theorem blocks_labels (hp : p.Sound c S) : ∀ (insns : List Insn) (start : Nat),
    labelsOf (p.blocks start insns) = labelsOf insns
  | [], _ => rfl
  | i :: rest, start => by
    unfold blocks
    rw [labelsOf_append, block_labels hp, blocks_labels hp rest, labelsOf_cons]

theorem prologue_labels (p : Plan) (m : Method) : labelsOf (p.prologue m) = [] := by
  unfold prologue
  rw [labelsOf_append, labelsOf_flatMap fun l _ => rfl]
  cases p.ownRecord <;> rfl

/-- Weaving neither adds nor drops a label. -/
theorem woven_labels (hp : p.Sound c S) (m : Method) :
    labelsOf (p.woven m).insns = labelsOf m.insns := by
  unfold woven
  rw [labelsOf_append, prologue_labels, blocks_labels hp]
  rfl

/-- A woven method has a label twice only if the original has. -/
theorem repeatedLabel?_woven (hp : p.Sound c S) {m : Method} (h : m.repeatedLabel? = none) :
    (p.woven m).repeatedLabel? = none := by
  rw [Method.repeatedLabel?_eq_none_iff] at h ⊢
  rwa [woven_labels hp]

/-! ## 3. Where blocks begin -/

/-- Where the block of an instruction begins. -/
def startOf (p : Plan) (m : Method) (k : Nat) : Nat :=
  (p.prologue m).length + (p.blocks 0 (m.insns.take k)).length

theorem blocks_append (p : Plan) (a b : List Insn) (start : Nat) :
    p.blocks start (a ++ b) = p.blocks start a ++ p.blocks (start + a.length) b := by
  induction a generalizing start with
  | nil => rfl
  | cons i rest ih =>
    simp only [List.cons_append, blocks, ih, List.length_cons, List.append_assoc]
    rw [Nat.add_right_comm, Nat.add_assoc]

/-- What is left of a woven method from the beginning of a block on. -/
theorem woven_drop (p : Plan) (m : Method) (k : Nat) :
    (p.woven m).insns.drop (p.startOf m k) = p.blocks (min k m.insns.length) (m.insns.drop k) := by
  have hsplit : p.blocks 0 m.insns =
      p.blocks 0 (m.insns.take k) ++ p.blocks (min k m.insns.length) (m.insns.drop k) := by
    have h := blocks_append p (m.insns.take k) (m.insns.drop k) 0
    rwa [List.take_append_drop, Nat.zero_add, List.length_take] at h
  unfold woven startOf
  simp only
  rw [List.drop_append, List.drop_eq_nil_of_le (Nat.le_add_right _ _), hsplit, List.nil_append,
    Nat.add_sub_cancel_left, List.drop_left]

theorem woven_drop_block (p : Plan) {m : Method} {k : Nat} {i : Insn} (hi : m.insns[k]? = some i) :
    (p.woven m).insns.drop (p.startOf m k) =
      p.block k i ++ (p.woven m).insns.drop (p.startOf m (k + 1)) := by
  obtain ⟨hlt, rfl⟩ := List.getElem?_eq_some_iff.mp hi
  rw [woven_drop, woven_drop, List.drop_eq_getElem_cons hlt, Nat.min_eq_left (Nat.le_of_lt hlt),
    Nat.min_eq_left hlt]
  rfl

theorem startOf_succ (p : Plan) {m : Method} {k : Nat} {i : Insn} (hi : m.insns[k]? = some i) :
    p.startOf m (k + 1) = p.startOf m k + (p.block k i).length := by
  obtain ⟨hlt, rfl⟩ := List.getElem?_eq_some_iff.mp hi
  unfold startOf
  rw [List.take_succ_eq_append_getElem hlt, blocks_append]
  simp only [blocks, List.append_nil, List.length_append, Nat.zero_add, List.length_take,
    Nat.min_eq_left (Nat.le_of_lt hlt)]
  omega

theorem startOf_zero (p : Plan) (m : Method) : p.startOf m 0 = (p.prologue m).length := by
  simp [startOf, blocks]

/-- In front of the first block stands the prologue. -/
theorem woven_prologue (p : Plan) (m : Method) :
    (p.woven m).insns = p.prologue m ++ (p.woven m).insns.drop (p.startOf m 0) := by
  rw [startOf_zero]
  unfold woven
  simp only
  rw [List.drop_left]

/-- Behind the last block nothing is left. -/
theorem woven_end (p : Plan) {m : Method} {k : Nat} (hk : m.insns[k]? = none) :
    (p.woven m).insns.drop (p.startOf m k) = [] := by
  rw [woven_drop, List.drop_eq_nil_of_le (List.getElem?_eq_none_iff.mp hk)]
  rfl

/-! ## 4. Labels -/

/-- The first place of a label in a block is its head, if the instruction is that label. -/
theorem findIdx?_block (hp : p.Sound c S) (i : Insn) (l : Nat) :
    (p.block k i).findIdx? (fun i => i.label? == some l) =
      if i.label? = some l then some 0 else none := by
  split
  · rename_i hi
    cases i with
    | label l' =>
      simp only [Insn.label?, Option.some.injEq] at hi
      simp [block_label, hi, Insn.label?, List.findIdx?_cons]
    | _ => simp [Insn.label?] at hi
  · rename_i hi
    rw [List.findIdx?_eq_none_iff]
    intro j hj
    by_contra hl
    have hmem : l ∈ labelsOf (p.block k i) := by
      refine List.mem_filterMap.mpr ⟨j, hj, ?_⟩
      simpa using hl
    rw [block_labels hp] at hmem
    exact hi (by simpa using hmem)

theorem findIdx?_blocks (hp : p.Sound c S) (l : Nat) : ∀ (insns : List Insn) (start : Nat),
    (p.blocks start insns).findIdx? (fun i => i.label? == some l) =
      (insns.findIdx? fun i => i.label? == some l).map fun k =>
        (p.blocks start (insns.take k)).length
  | [], _ => rfl
  | i :: rest, start => by
    rw [blocks, List.findIdx?_append, findIdx?_block hp, findIdx?_blocks hp l rest,
      List.findIdx?_cons]
    by_cases hi : i.label? = some l
    · simp [hi, blocks]
    · have hb : (i.label? == some l) = false := by simpa using hi
      rw [if_neg hi, hb]
      simp only [Option.none_or, Option.map_map, Bool.false_eq_true, if_false]
      congr 1
      funext k
      simp [blocks, Nat.add_comm]

/-- **A label stands at the beginning of the block** of the instruction it is. -/
theorem labelAt?_woven (hp : p.Sound c S) (m : Method) (l : Nat) :
    (p.woven m).labelAt? l = (m.labelAt? l).map (p.startOf m) := by
  unfold Method.labelAt? woven
  simp only
  rw [List.findIdx?_append, findIdx?_of_labelsOf_nil (prologue_labels p m), findIdx?_blocks hp,
    Option.none_or, Option.map_map]
  congr 1
  funext k
  simp [startOf, Nat.add_comm]

end Plan

end Provenance
