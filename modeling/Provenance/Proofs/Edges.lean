/-
# The edges of the flow graph are the ways execution goes

`FlowGraph.ofMethod` collects the successors of all instructions in one list.  This file reads
them back one instruction at a time: an instruction that falls through is followed by the next
one, a jump by the place of its label, and the labels of a method that has a graph are unique.
-/
import Provenance.Flow.Graph

namespace Provenance

/-! ## 1. Labels that stand only once -/

/-- The labels of instructions, in order. -/
def labelsOf (insns : List Insn) : List Nat := insns.filterMap Insn.label?

theorem labelsOf_append (a b : List Insn) : labelsOf (a ++ b) = labelsOf a ++ labelsOf b :=
  List.filterMap_append

/-- Whether a label stands twice depends on the labels alone. -/
theorem repeatedFrom_eq_none_iff (insns : List Insn) : ∀ (seen : List Nat) (index : Nat),
    Method.repeatedFrom seen index insns = none ↔
      (labelsOf insns).Nodup ∧ ∀ l ∈ labelsOf insns, l ∉ seen := by
  induction insns with
  | nil => intro seen index; simp [Method.repeatedFrom, labelsOf]
  | cons i rest ih =>
    intro seen index
    unfold Method.repeatedFrom
    cases hl : i.label? with
    | none =>
      have hcons : labelsOf (i :: rest) = labelsOf rest := by simp [labelsOf, hl]
      rw [hcons]
      exact ih seen (index + 1)
    | some l =>
      have hcons : labelsOf (i :: rest) = l :: labelsOf rest := by simp [labelsOf, hl]
      rw [hcons]
      by_cases hmem : l ∈ seen
      · simp [hmem]
      · simp only [hmem, if_false, ih, List.nodup_cons, List.mem_cons]
        constructor
        · rintro ⟨hnd, hout⟩
          refine ⟨⟨fun h => hout l h (Or.inl rfl), hnd⟩, ?_⟩
          rintro l' (rfl | h)
          · exact hmem
          · exact fun h' => hout l' h (Or.inr h')
        · rintro ⟨⟨hl, hnd⟩, hout⟩
          refine ⟨hnd, fun l' h => ?_⟩
          rintro (rfl | h')
          · exact hl h
          · exact hout l' (Or.inr h) h'

/-- A method whose labels are unique has no repeated label, and conversely. -/
theorem Method.repeatedLabel?_eq_none_iff (m : Method) :
    m.repeatedLabel? = none ↔ (labelsOf m.insns).Nodup := by
  unfold Method.repeatedLabel?
  rw [repeatedFrom_eq_none_iff]
  simp

/-- The instruction that a label was found at is that label. -/
theorem Method.labelAt?_spec {m : Method} {l k : Nat} (h : m.labelAt? l = some k) :
    m.insns[k]? = some (.label l) := by
  unfold Method.labelAt? at h
  obtain ⟨hlt, heq, -⟩ := List.findIdx?_eq_some_iff_getElem.mp h
  rw [List.getElem?_eq_getElem hlt]
  have hl : (m.insns[k]).label? = some l := by simpa using heq
  cases hi : m.insns[k] <;> simp [hi, Insn.label?] at hl
  exact congrArg some (congrArg Insn.label hl)

/-! ## 2. One instruction at a time -/

/-- The collected successors of an index are those of its instruction. -/
theorem FlowGraph.edgesFrom_spec {m : Method} : ∀ {insns : List Insn} {start : Nat}
    {edges : List (List Nat)}, FlowGraph.edgesFrom m start insns = .ok edges →
    ∀ {k : Nat} {i : Insn}, insns[k]? = some i →
      FlowGraph.successorsOf m (start + k) i = .ok (FlowGraph.next edges k) := by
  intro insns
  induction insns with
  | nil => intro start edges _ k i hk; simp at hk
  | cons j rest ih =>
    intro start edges h k i hk
    unfold FlowGraph.edgesFrom at h
    cases hs : FlowGraph.successorsOf m start j with
    | error e => simp [hs] at h
    | ok here =>
      cases hr : FlowGraph.edgesFrom m (start + 1) rest with
      | error e => simp [hs, hr] at h
      | ok later =>
        simp only [hs, hr, Except.ok.injEq] at h
        subst h
        cases k with
        | zero =>
          simp only [List.getElem?_cons_zero, Option.some.injEq] at hk
          subst hk
          simpa [FlowGraph.next] using hs
        | succ k =>
          have := ih hr (k := k) (i := i) (by simpa using hk)
          simpa [FlowGraph.next, Nat.add_assoc, Nat.add_comm 1 k] using this

theorem FlowGraph.edgesFrom_length {m : Method} : ∀ {insns : List Insn} {start : Nat}
    {edges : List (List Nat)}, FlowGraph.edgesFrom m start insns = .ok edges →
      edges.length = insns.length := by
  intro insns
  induction insns with
  | nil =>
    intro start edges h
    simp only [FlowGraph.edgesFrom, Except.ok.injEq] at h
    subst h
    rfl
  | cons j rest ih =>
    intro start edges h
    unfold FlowGraph.edgesFrom at h
    cases hs : FlowGraph.successorsOf m start j with
    | error e => simp [hs] at h
    | ok here =>
      cases hr : FlowGraph.edgesFrom m (start + 1) rest with
      | error e => simp [hs, hr] at h
      | ok later =>
        simp only [hs, hr, Except.ok.injEq] at h
        subst h
        simp [ih hr]

/-- What a graph says about the method it was made of. -/
structure FlowGraph.Describes (g : FlowGraph) (m : Method) : Prop where
  nonempty : m.insns ≠ []
  /-- Every label stands once. -/
  labels : m.repeatedLabel? = none
  edges : FlowGraph.edgesFrom m 0 m.insns = .ok g.successors

theorem FlowGraph.ofMethod_describes {m : Method} {g : FlowGraph}
    (h : FlowGraph.ofMethod m = .ok g) : g.Describes m := by
  unfold FlowGraph.ofMethod at h
  split at h
  · exact absurd h (by simp)
  · rename_i hne
    cases hl : m.repeatedLabel? with
    | some d => simp [hl] at h
    | none =>
      cases he : FlowGraph.edgesFrom m 0 m.insns with
      | error e => simp [hl, he] at h
      | ok successors =>
        simp only [hl, he] at h
        split at h
        · exact absurd h (by simp)
        · simp only [Except.ok.injEq] at h
          subst h
          exact ⟨by simpa using hne, hl, he⟩

namespace FlowGraph.Describes

variable {g : FlowGraph} {m : Method}

theorem successorsOf (h : g.Describes m) {k : Nat} {i : Insn} (hk : m.insns[k]? = some i) :
    FlowGraph.successorsOf m k i = .ok (FlowGraph.next g.successors k) := by
  simpa using FlowGraph.edgesFrom_spec h.edges hk

/-- **Falling through is an edge.** -/
theorem following (h : g.Describes m) {k : Nat} {i : Insn} (hk : m.insns[k]? = some i)
    (hf : i.fallsThrough = true) (hlt : k + 1 < m.insns.length) :
    k + 1 ∈ FlowGraph.next g.successors k := by
  have hs := h.successorsOf hk
  unfold FlowGraph.successorsOf at hs
  rw [if_pos ⟨hf, hlt⟩] at hs
  cases hj : i.jumpTarget? with
  | none =>
    simp only [hj, Except.ok.injEq] at hs
    simp [← hs]
  | some l =>
    cases ht : m.labelAt? l with
    | none => simp [hj, ht] at hs
    | some target =>
      simp only [hj, ht, Except.ok.injEq] at hs
      rw [← hs]
      by_cases heq : k + 1 = target <;> simp [heq]

/-- **A jump is an edge**, and its label is there. -/
theorem jump (h : g.Describes m) {k l : Nat} {i : Insn} (hk : m.insns[k]? = some i)
    (hj : i.jumpTarget? = some l) :
    ∃ target, m.labelAt? l = some target ∧ target ∈ FlowGraph.next g.successors k := by
  have hs := h.successorsOf hk
  unfold FlowGraph.successorsOf at hs
  cases ht : m.labelAt? l with
  | none => simp [hj, ht] at hs
  | some target =>
    simp only [hj, ht, Except.ok.injEq] at hs
    exact ⟨target, rfl, by simp [← hs]⟩

/-- Every edge leads to an instruction. -/
theorem next_lt (h : g.Describes m) {k target : Nat}
    (ht : target ∈ FlowGraph.next g.successors k) : target < m.insns.length := by
  cases hk : m.insns[k]? with
  | none =>
    have hlen := FlowGraph.edgesFrom_length h.edges
    rw [List.getElem?_eq_none_iff] at hk
    simp [FlowGraph.next, List.getElem?_eq_none (hlen ▸ hk)] at ht
  | some i =>
    have hs := h.successorsOf hk
    have hfollow : ∀ t ∈ (if i.fallsThrough ∧ k + 1 < m.insns.length then [k + 1] else []),
        t < m.insns.length := by
      intro t ht
      split at ht
      · rename_i hc
        simp only [List.mem_singleton] at ht
        omega
      · simp at ht
    unfold FlowGraph.successorsOf at hs
    cases hj : i.jumpTarget? with
    | none =>
      simp only [hj, Except.ok.injEq] at hs
      exact hfollow target (hs ▸ ht)
    | some l =>
      cases hl : m.labelAt? l with
      | none => simp [hj, hl] at hs
      | some place =>
        simp only [hj, hl, Except.ok.injEq] at hs
        rw [← hs, List.mem_cons] at ht
        rcases ht with rfl | ht
        · have := Method.labelAt?_spec hl
          exact (List.getElem?_eq_some_iff.mp this).1
        · exact hfollow target (List.mem_filter.mp ht).1

end FlowGraph.Describes

end Provenance
