/-
# Execution goes along the edges

Wherever an instruction goes on is a successor of it in the flow graph, and the stack it leaves has
the height that the frame there says (`Analysis.Sound.reached_next`, `reached_jump`).  So while a
method runs, every instruction it comes to has a frame, and the frame has a value for each operand.
-/
import Provenance.Proofs.FixedPoint
import Provenance.Proofs.StraightLine

namespace Provenance

/-! ## 1. What an instruction does to the height of the stack -/

/-- Where an instruction may go on. -/
def Insn.Goes (i : Insn) : Transfer → Prop
  | .next => i.fallsThrough = true
  | .jump l => i.jumpTarget? = some l
  | .call m _ => i = .invoke m
  | .ret _ => ∃ t, i = .ret t

namespace Work

open Provenance.Action (Wp)

/-- Where an instruction goes on, and the height of the stack it leaves, from a stack of height
`h`.  The result of a call comes later. -/
def Shape (i : Insn) (h : Nat) : Transfer → Bench → Prop
  | .next, b => i.fallsThrough = true ∧ b.stack.length = h - i.pops + i.pushes
  | .jump l, b => i.jumpTarget? = some l ∧ b.stack.length = h - i.pops + i.pushes
  | .call m args, b => i = .invoke m ∧ args.length = m.operandCount ∧ b.stack.length = h - i.pops
  | .ret _, _ => ∃ t, i = .ret t

/-- **What an instruction does to the stack** is what its effect says. -/
theorem perform_shape (method : String) (u : RunError) (inUse : Thunk (List Value)) {i : Insn}
    (hhook : ∀ h, i ≠ .hook h) (b : Bench) :
    Wp (perform method u inUse i) (fun t b' => i.pops ≤ b.stack.length ∧
      Shape i b.stack.length t b') (fun _ _ => True) b := by
  obtain ⟨w, L, S⟩ := b
  have hjump (c : Bool) (l : Nat) (b : Bench) (h : Nat) (hj : i.jumpTarget? = some l)
      (hf : i.fallsThrough = true) (hb : b.stack.length = h - i.pops + i.pushes) :
      Shape i h (jumpIf c l) b := by
    cases c
    · exact ⟨hf, hb⟩
    · exact ⟨hj, hb⟩
  -- the operands an instruction takes, one after the other
  cases i with
  | hook h => exact absurd rfl (hhook h)
  | const c =>
    cases c <;> exact ⟨Nat.zero_le _, rfl, rfl⟩
  | invoke m =>
    simp only [perform, Action.wp_bind, wp_popMany, Action.wp_pure]
    split
    · trivial
    · rename_i hlen
      have hlen' : m.operandCount ≤ S.length := by simpa using hlen
      refine ⟨hlen', rfl, ?_, List.length_drop⟩
      simp [hlen']
  | concat args =>
    simp only [perform, Action.wp_bind, wp_popMany, concatText, allocate, Action.wp_inspect,
      wp_onHeap, wp_push, Action.wp_pure]
    split
    · trivial
    · rename_i hlen
      have hlen' : args.length ≤ S.length := by simpa using hlen
      exact ⟨hlen', rfl, by simp [Insn.pops, Insn.pushes, Insn.effect]⟩
  | ret t =>
    by_cases ht : t = .void
    · simp only [perform, ht, if_true, Action.wp_pure]
      exact ⟨Nat.zero_le _, _, rfl⟩
    · simp only [perform, ht, if_false, Action.wp_bind, wp_pop, Action.wp_pure]
      split
      · trivial
      · simp [Shape, Insn.pops, Insn.effect, ht]
  | newArray t =>
    simp only [perform, popInt, Action.wp_bind, wp_pop, wp_fromHeap]
    cases S with
    | nil => trivial
    | cons x S =>
      simp only
      split
      · split
        · trivial
        · exact ⟨Nat.le_add_left 1 S.length, rfl, rfl⟩
      · trivial
  | _ =>
    simp only [perform, loadLocal, storeLocal, changeHeap, storeElement, popInt, popTarget,
      Action.wp_bind, wp_pop, Action.wp_inspect, Action.wp_update, wp_fromHeap, wp_onHeap, wp_push,
      Action.wp_pure]
    repeat' split
    all_goals first
      | trivial
      | exact ⟨by simp [Insn.pops, Insn.effect], rfl, by simp [Insn.pops, Insn.pushes, Insn.effect]⟩
      | exact ⟨by simp [Insn.pops, Insn.effect], hjump _ _ _ _ rfl rfl
          (by simp [Insn.pops, Insn.pushes, Insn.effect])⟩

/-- A hook goes on at the next instruction. -/
theorem perform_hook (method : String) (u : RunError) (inUse : Thunk (List Value)) (h : Hook)
    (b : Bench) :
    Wp (perform method u inUse (.hook h)) (fun t _ => t = .next) (fun _ _ => True) b := by
  simp only [perform, Action.wp_bind]
  unfold Wp
  split <;> trivial

/-- **Every instruction** goes on where its kind may. -/
theorem perform_ways (method : String) (u : RunError) (inUse : Thunk (List Value)) (i : Insn)
    (b : Bench) : Wp (perform method u inUse i) (fun t _ => i.Goes t) (fun _ _ => True) b := by
  by_cases hhook : ∃ h, i = .hook h
  · obtain ⟨h, rfl⟩ := hhook
    refine (perform_hook method u inUse h b).mono (fun t _ ht => ?_) fun _ _ _ => trivial
    subst ht
    rfl
  · refine (perform_shape method u inUse (fun h hi => hhook ⟨h, hi⟩) b).mono (fun t _ ht => ?_)
      fun _ _ _ => trivial
    cases t with
    | next | jump | call => exact ht.2.1
    | ret => exact ht.2

end Work

/-! ## 2. Frames on the way -/

/-- A place to go on, with a stack of that height: the instruction there, if there is one, has a
frame with as many operands. -/
def Analysis.Reached (m : Method) (a : Analysis) (k height : Nat) : Prop :=
  ∀ i, m.insns[k]? = some i → ∃ f, a.frame? k = some f ∧ f.stack.length = height

namespace Analysis.Sound

variable {m : Method} {a : Analysis} {k : Nat} {i : Insn} {f : Frame}

/-- A method starts with an empty stack. -/
theorem reached_start (h : a.Sound m) : a.Reached m 0 0 := by
  intro i _
  obtain ⟨entry, f, hentry, hf, habs⟩ := h.first
  exact ⟨f, hf, by rw [habs.stack.length_eq, Frame.entry_stack hentry]; rfl⟩

/-- No hook is reached. -/
theorem not_hook (h : a.Sound m) (hi : m.insns[k]? = some i)
    (hf : a.frame? k = some f) (hk : Hook) :
    i ≠ .hook hk := by
  rintro rfl
  obtain ⟨out, hout, -⟩ := h.edges k _ f hi hf
  exact absurd hout (by simp [Frame.after])

/-- An instruction that is reached touches only locals of the method. -/
theorem local_lt (h : a.Sound m) (hi : m.insns[k]? = some i) (hf : a.frame? k = some f) {l : Nat}
    (hl : i.local? = some l) : l < m.maxLocals := by
  obtain ⟨out, hout, -⟩ := h.edges k i f hi hf
  rw [← h.locals k f hf]
  exact Frame.after_local hout hl

variable (h : a.Sound m) (hi : m.insns[k]? = some i) (hf : a.frame? k = some f)
  (hclone : ∀ target, i = .invoke target → (Carrier.clonedArray? target).isSome →
    target.desc.ret ≠ .void)
include h hi hf hclone

/-- An instruction that is reached has its operands. -/
theorem pops_le : i.pops ≤ f.stack.length := by
  obtain ⟨out, hout, -⟩ := h.edges k i f hi hf
  exact (Frame.after_height hout hclone).1

/-- **Falling through.** -/
theorem reached_next (hfall : i.fallsThrough = true) :
    a.Reached m (k + 1) (f.stack.length - i.pops + i.pushes) := by
  intro j hj
  obtain ⟨out, hout, hnext⟩ := h.edges k i f hi hf
  have hlt : k + 1 < m.insns.length := (List.getElem?_eq_some_iff.mp hj).1
  obtain ⟨g, hg, habs⟩ := hnext _ (h.graph.following hi hfall hlt)
  exact ⟨g, hg, (habs.stack.length_eq).trans (Frame.after_height hout hclone).2⟩

/-- **Jumping.** -/
theorem reached_jump {l : Nat} (hjump : i.jumpTarget? = some l) :
    ∃ target, m.labelAt? l = some target ∧
      a.Reached m target (f.stack.length - i.pops + i.pushes) := by
  obtain ⟨out, hout, hnext⟩ := h.edges k i f hi hf
  obtain ⟨target, hl, htarget⟩ := h.graph.jump hi hjump
  obtain ⟨g, hg, habs⟩ := hnext _ htarget
  exact ⟨target, hl, fun _ _ =>
    ⟨g, hg, (habs.stack.length_eq).trans (Frame.after_height hout hclone).2⟩⟩

end Analysis.Sound

/-! ## 3. Calls -/

namespace Program

/-- **Handing over a result** to the one that waits for it. -/
theorem deliver_running {w : World} {v : Option Value} {callers : List Waiting} {s : RunState}
    (hs : deliver w v callers = .running s) :
    ∃ x rest, callers = x :: rest ∧ s = ⟨w, if x.ret = .void then x.activation
      else { x.activation with stack := v.getD (Value.defaultFor x.ret) ::
        x.activation.stack }, rest⟩ := by
  cases callers with
  | nil => cases hs
  | cons x rest => exact ⟨x, rest, rfl, (Progress.running.inj hs).symm⟩

/-- **Calling**: either a method starts, or a native hands over its result. -/
theorem enter_running {p : Program} {limits : MachineSettings} {w : World} {callers : List Waiting}
    {owner name descriptor : String} {args : List Value} {s : RunState}
    (hs : p.enter limits w callers owner name descriptor args = .running s) :
    (∃ r, p.routine? owner name descriptor = some r ∧ args.length = r.method.paramSlots ∧
      s = ⟨w, ⟨r, 0, r.locals args, []⟩, callers⟩) ∨
    ∃ n record v w', p.native? (methodKey owner name descriptor) = some n ∧
      (n.body ⟨methodKey owner name descriptor, args, record⟩).outcome
        { w with store := (w.store.claim (signatureOf name descriptor)).2 } = (.ok v, w') ∧
      deliver w' v callers = .running s := by
  unfold enter at hs
  split at hs
  · cases hs
  · split at hs
    · rename_i r hr
      unfold activate at hs
      split at hs
      · cases hs
      · split at hs
        · rename_i hlen
          exact .inl ⟨r, hr, hlen, (Progress.running.inj hs).symm⟩
        · cases hs
    · simp only at hs
      split at hs
      · cases hs
      · rename_i n hn
        unfold callNative at hs
        simp only at hs
        split at hs
        · cases hs
        · rename_i v w' hbody
          exact .inr ⟨n, _, v, w', hn, hbody, hs⟩

end Program

end Provenance
