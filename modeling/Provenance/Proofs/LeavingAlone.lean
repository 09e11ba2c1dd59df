/-
# Comparisons that weaving leaves alone

A comparison of references that stands in a woven class is one that weaving found no reason to
rewrite: the class is not woven at all, or the weaving of the method failed, or the comparison stems
from one in a class that keeps identity comparisons, or from one between operands neither of which
is seen to be a string (`Weaving.leavesAlone`).
-/
import Provenance.Proofs.Copying
import Provenance.Proofs.ElementPoints
import Provenance.Proofs.Fates
import Provenance.Proofs.Preservation

namespace Provenance

/-! ## 1. Comparisons in woven code -/

section

variable {v : Woven} {breakInterning equal : Bool} {k pc l : Nat} {i j : Insn} {f : Frame}

/-- Every place of woven code behind the prologue lies in a block. -/
theorem Woven.exists_block (hj : v.result.insns[pc]? = some j) (hpc : v.startOf 0 ≤ pc) :
    ∃ k i, v.method.insns[k]? = some i ∧ v.startOf k ≤ pc ∧ pc < v.startOf (k + 1) ∧
      j ∈ v.plan.block k i := by
  -- the last block that begins no later
  have hfind : ∀ n, pc < v.startOf n → ∃ k < n, v.startOf k ≤ pc ∧ pc < v.startOf (k + 1) := by
    intro n
    induction n with
    | zero => exact fun hlt => absurd hpc (Nat.not_le_of_lt hlt)
    | succ n ih =>
      intro hlt
      rcases Nat.lt_or_ge pc (v.startOf n) with hn | hn
      · obtain ⟨k, hk, h⟩ := ih hn
        exact ⟨k, Nat.lt_succ_of_lt hk, h⟩
      · exact ⟨n, Nat.lt_succ_self n, hn, hlt⟩
  have hend : pc < v.startOf v.method.insns.length := by
    have hdrop := v.plan.woven_end (m := v.method) (k := v.method.insns.length) (by simp)
    exact Nat.lt_of_lt_of_le (List.getElem?_eq_some_iff.mp hj).1 (List.drop_eq_nil_iff.mp hdrop)
  obtain ⟨k, hk, hle, hlt⟩ := hfind _ hend
  have hi := List.getElem?_eq_getElem hk
  refine ⟨k, _, hi, hle, hlt, ?_⟩
  have hblock := congrArg (·[pc - v.startOf k]?) (v.plan.woven_drop_block hi)
  have hlength : v.startOf (k + 1) = v.startOf k + _ := v.plan.startOf_succ hi
  simp only [List.getElem?_drop] at hblock
  rw [Nat.add_sub_cancel' hle, List.getElem?_append_left (by omega)] at hblock
  exact List.mem_of_getElem? (hblock.symm.trans hj)

namespace Woven.Covering

/-- A comparison in woven code was not put in, and not replaced. -/
theorem comparison_stays (hi : v.method.insns[k]? = some i) (hj : j ∈ v.plan.block k i)
    (hcompares : j.comparison? = some (equal, l)) :
    i = j ∧ ∀ code, (k, code) ∉ v.plan.replaced := by
  have hkind := Insn.eq_of_comparison hcompares
  refine not_replaced hj hi ?_ ?_
  · rw [hkind]
    cases equal <;> intro h <;> rcases h with ⟨⟨⟩⟩
  · rw [hkind]
    cases equal <;> rfl

/-- **Comparisons** of woven code stand in a class that keeps them, or between operands neither of
which is seen to be a string. -/
theorem comparison (hv : v.Covering breakInterning) (hi : v.method.insns[k]? = some i)
    (hf : v.frame? k = some f) (hj : j ∈ v.plan.block k i)
    (hcompares : j.comparison? = some (equal, l))
    (hkeeps : Carrier.keepsIdentity v.method.owner = false) :
    (f.top 0).isString = false ∧ (f.top 1).isString = false := by
  obtain ⟨rfl, hnone⟩ := comparison_stays hi hj hcompares
  by_contra hseen
  simp only [not_and_or, Bool.not_eq_false] at hseen
  have haction : Site.action? v.method breakInterning f i = some (.stringComparison equal l) := by
    rw [Insn.eq_of_comparison hcompares]
    cases equal <;> simp [Site.action?, hseen, hkeeps]
  obtain ⟨code, hcode⟩ := hv.covers hi hf haction
  exact hnone code hcode

end Woven.Covering

end

/-! ## 2. Comparisons in woven classes -/

/-- Why weaving left alone the instruction at a place of a woven class. -/
inductive Weaving.LeavesAlone (x : Weaving) (m' : Method) (pc : Nat) : Prop where
  /-- The class was not woven. -/
  | excluded (h : x.report.included = false)
  /-- The weaving of the method failed. -/
  | failed (e : WeaveError) (h : (m'.signature, e) ∈ x.report.failed)
  /-- The class keeps identity comparisons, or neither operand is seen to be a string. -/
  | unseen (v : Woven) {k : Nat} (hmethod : v.method ∈ x.source.methods)
      (hcode : m'.insns = v.result.insns) (hstart : v.startOf k ≤ pc)
        (hend : pc < v.startOf (k + 1))
      (hinsn : v.method.insns[k]? = m'.insns[pc]?)
      (h : Carrier.keepsIdentity v.method.owner = true ∨ ∀ f, v.frame? k = some f →
        (f.top 0).isString = false ∧ (f.top 1).isString = false)

variable {w : Weaver} {breakInterning : Bool} {m m' : Method}

/-- A method of a woven class went through weaving, or failed. -/
theorem Weaver.Becomes.weaves (h : w.Becomes breakInterning m m') :
    w.Weaves breakInterning m m' ∨ m' = m ∧
    ∃ e, w.failure? breakInterning m = some (m.signature, e) := by
  cases h with
  | changed _ h => exact .inl ⟨_, _, _, h, rfl⟩
  | kept h =>
    unfold Weaver.changes at h
    unfold Weaver.failure?
    cases hfate : w.fate breakInterning m with
    | error e => exact .inr ⟨rfl, e, rfl⟩
    | ok r =>
      cases r with
      | some r => simp [hfate] at h
      | none =>
        unfold Weaver.fate Weaver.unplacedOutcome at hfate
        rcases hweave : w.weaveMethod breakInterning (.ofClass (.empty .default) m.owner) m with
          ⟨e | r, pool'⟩
        · simp [hweave, Except.map] at hfate
        · cases r with
          | none => exact .inl ⟨_, _, _, hweave, rfl⟩
          | some r => simp [hweave, Except.map] at hfate

/-- **Every comparison in a woven class** was left alone for one of these reasons. -/
theorem Weaving.leavesAlone (x : Weaving) (hm' : m' ∈ x.result.methods) {pc : Nat} {j : Insn}
    (hj : m'.insns[pc]? = some j) (hcompares : j.comparison?.isSome) : x.LeavesAlone m' pc := by
  cases hincluded : x.weaver.filter.includes x.source.name with
  | false =>
    refine .excluded ?_
    unfold Weaving.report
    rw [Weaver.weaveClass_excluded _ hincluded]
  | true =>
    obtain ⟨hreported, hbecome⟩ := Weaver.weaveMethods_fates x.weaver
      (x.weaver.interning.includes x.source.name) x.source.methods (Weaver.blankReport x.source)
      (LiteralPool.ofClass_usable x.store x.source.name)
    have hmem : m' ∈ (x.weaver.weaveMethods (x.weaver.interning.includes x.source.name)
        (.ofClass x.store x.source.name) (Weaver.blankReport x.source) x.source.methods).1 := by
      unfold Weaving.result at hm'
      rwa [Weaver.weaveClass_included _ hincluded] at hm'
    obtain ⟨m, hm, hbecomes⟩ := exists_mem_of_forall₂ hbecome hmem
    rcases hbecomes.weaves with hweaves | ⟨heq, e, hfails⟩
    · obtain ⟨v, rfl, hcode, hcovering⟩ := hweaves.woven
      have hstands := hj
      rw [hcode] at hj
      obtain ⟨⟨equal, l⟩, hequal⟩ := Option.isSome_iff_exists.mp hcompares
      have hpc : v.startOf 0 ≤ pc := by
        refine Nat.le_of_not_lt fun hlt => ?_
        -- the prologue compares nothing
        rw [Woven.startOf, Plan.startOf_zero] at hlt
        have hprologue := v.plan.woven_prologue v.method
        rw [show v.result.insns = _ from hprologue, List.getElem?_append_left hlt] at hj
        have hinserted :=
          Plan.prologue_inserted (i := .nop) (p := v.plan) v.method j (List.mem_of_getElem? hj)
        have hstraight := hinserted.jumpTarget?
        rw [Insn.eq_of_comparison hequal] at hstraight
        cases equal <;> cases hstraight
      obtain ⟨k, i, hi, hstart, hend, hblock⟩ := v.exists_block hj hpc
      obtain ⟨rfl, -⟩ := Woven.Covering.comparison_stays hi hblock hequal
      refine .unseen v hm hcode hstart hend (hi.trans hstands.symm) ?_
      cases hkeeps : Carrier.keepsIdentity v.method.owner with
      | true => exact .inl rfl
      | false => exact .inr fun f hf => hcovering.comparison hi hf hblock hequal hkeeps
    · refine .failed e ?_
      rw [heq]
      unfold Weaving.report
      rw [Weaver.weaveClass_included _ hincluded]
      show _ ∈ (x.weaver.weaveMethods _ _ _ _).2.1.failed
      rw [hreported.failed]
      exact List.mem_append_right _ (List.mem_filterMap.mpr ⟨m, hm, hfails⟩)

end Provenance
