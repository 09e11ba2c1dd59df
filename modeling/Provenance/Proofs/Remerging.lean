/-
# Merging a frame once more

When the solver has stopped, every frame has been merged into the frames of its successors.  Merging
it there once more, with the merges as they are in the end, fails nowhere and leaves every value
that has a definition (`Analysis.remerge_keeps`): the frames are a fixed point as far as single
definitions go.

They are none where values meet.  A merge may get further members after it was carried over an edge,
and the edge is not visited again for that; `Analysis.leavingLoop_unsettled` is a loop whose merge
has come to cover the one that was made of it behind the loop.
-/
import Provenance.Proofs.Orders

namespace Provenance

namespace Solver

/-- A value with a definition that stands for the arriving one stays when they are merged. -/
theorem merge_keeps {v w : FlowValue} (h : v.Keeps w) (x : MergeIndex) (slot : MergeSlot) :
    v.Keeps (x.merge slot v w).1 := by
  intro d hd
  have hvw : v = w := h d hd
  simp [MergeIndex.merge, hvw]

theorem mergeSlots_keeps (insn : Nat) (kind : SlotKind) :
    ∀ {vs ws : List FlowValue}, List.Forall₂ FlowValue.Keeps vs ws →
    ∀ (index : Nat) (x : MergeIndex),
      List.Forall₂ FlowValue.Keeps vs (mergeSlots insn kind index x vs ws).1 := by
  intro vs ws h
  induction h with
  | nil => intro index x; exact .nil
  | cons hv _ ih =>
    intro index x
    unfold mergeSlots
    exact .cons (merge_keeps hv x ⟨insn, kind, index⟩) (ih (index + 1) _)

/-- **Merging a frame into one that absorbs it already** leaves every value with a definition. -/
theorem mergeFrames_keeps (insn : Nat) (x : MergeIndex) {known arriving : Frame}
    (h : known.Absorbs arriving) :
    ∃ merged x', mergeFrames insn x known arriving = .ok (merged, x') ∧ merged.Absorbs known ∧
      known.Absorbs merged := by
  obtain ⟨merged, x', hm, -⟩ := mergeFrames_shape (k := insn) (x := x) h.shape
  refine ⟨merged, x', hm, (mergeFrames_spec hm h.locals.length_eq).overKnown, ?_⟩
  have hstack := h.stack.length_eq
  unfold mergeFrames at hm
  rw [if_neg (not_not_intro hstack)] at hm
  simp only [Except.ok.injEq, Prod.mk.injEq] at hm
  obtain ⟨rfl, -⟩ := hm
  refine ⟨mergeSlots_keeps insn .variable h.locals 0 x, ?_⟩
  have hreversed := mergeSlots_keeps insn .operand (List.rel_reverse h.stack) 0
    (mergeSlots insn .variable 0 x known.locals arriving.locals).2
  simpa using List.rel_reverse hreversed

end Solver

namespace Analysis

/-- **What an edge brings once more changes no definition.**  With the merges of a finished
analysis, the frame after an instruction can be merged into the frame of each successor; the frame
there keeps the values that have a definition, and no other value gets one. -/
theorem remerge_keeps {order : SolverOrder} {limit : Nat} {m : Method} {a : Analysis}
    (h : ofMethod order limit m = .ok a) {k target : Nat} {i : Insn} {f : Frame}
    (hi : m.insns[k]? = some i) (hf : a.frame? k = some f)
    (ht : target ∈ FlowGraph.next a.graph.successors k) :
    ∃ out known merged x', f.after k i = .ok out ∧ a.frame? target = some known ∧
      Solver.mergeFrames target a.merges known out = .ok (merged, x') ∧
      merged.Absorbs known ∧ known.Absorbs merged := by
  obtain ⟨out, hout, hnext⟩ := (ofMethod_sound h).edges k i f hi hf
  obtain ⟨known, hknown, habs⟩ := hnext target ht
  obtain ⟨merged, x', hmerge, hover, hunder⟩ := Solver.mergeFrames_keeps target a.merges habs
  exact ⟨out, known, merged, x', hout, hknown, hmerge, hover, hunder⟩

/-- A loop that moves a local back and forth and may be left before it does so. -/
def leavingLoop : Method :=
  ⟨"demo/A", "f", ⟨[.int], .void⟩, true, 2, 0,
    [.invoke ⟨.static, "demo/R", "next", ⟨[], .char⟩⟩, .store 1,
      .label 0, .load 0, .ifZero .eq 1, .load 1, .store 1, .load 0, .ifZero .eq 0,
      .label 1, .ret .void]⟩

theorem leavingLoop_leaves : ∃ a f, ofMethod .fifo defaultLimit leavingLoop = .ok a ∧
    a.frame? 4 = some f ∧ 9 ∈ FlowGraph.next a.graph.successors 4 := by
  have hleaves : (ofMethod .fifo defaultLimit leavingLoop).toOption.map (fun a =>
      (a.frame? 4).isSome && (FlowGraph.next a.graph.successors 4).contains 9) = some true := by
    decide +kernel
  cases h : ofMethod .fifo defaultLimit leavingLoop with
  | error e => simp [h, Except.toOption] at hleaves
  | ok a =>
    simp only [h, Except.toOption, Option.map_some, Option.some.injEq, Bool.and_eq_true,
      List.contains_iff_mem] at hleaves
    obtain ⟨f, hf⟩ := Option.isSome_iff_exists.mp hleaves.1
    exact ⟨a, f, rfl, hf, hleaves.2⟩

theorem leavingLoop_remerged : ∃ a out known merged x',
    ofMethod .fifo defaultLimit leavingLoop = .ok a ∧ a.frame? 9 = some known ∧
      Solver.mergeFrames 9 a.merges known out = .ok (merged, x') ∧
      merged.Absorbs known ∧ known.Absorbs merged := by
  obtain ⟨a, f, ha, hf, hnext⟩ := leavingLoop_leaves
  obtain ⟨out, known, merged, x', -, hknown, hmerge, hover, hunder⟩ := remerge_keeps ha rfl hf hnext
  exact ⟨a, out, known, merged, x', ha, hknown, hmerge, hover, hunder⟩

/-- The frame before the place where the loop is left, and that frame with the one from within the
loop merged into it once more. -/
def leftTwice? (a : Analysis) : Option (Frame × Frame) :=
  match a.frame? 4, a.frame? 9 with
  | some f, some known =>
    match f.after 4 (.ifZero .eq 1) with
    | .ok out =>
      match Solver.mergeFrames 9 a.merges known out with
      | .ok (merged, _) => some (known, merged)
      | .error _ => none
    | .error _ => none
  | _, _ => none

/-- **What an edge brings once more may change a merge**, whatever the order of visits: the merge at
the head of the loop has got all members of the one behind it, and takes its place. -/
theorem leavingLoop_unsettled : ∀ order : SolverOrder,
    ((ofMethod order defaultLimit leavingLoop).toOption.bind leftTwice?).map
      (fun r => decide (r.2 = r.1)) = some false := by
  intro order
  cases order <;> decide +kernel

end Analysis

end Provenance
