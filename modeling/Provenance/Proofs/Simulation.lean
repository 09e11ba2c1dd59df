/-
# Weaving preserves behaviour

The woven program follows the original step by step: where the original does an instruction, the
woven one, within finitely many steps, comes to a state that makes a pair with the one the original
comes to, or ends as the original ends (`follow_step`).  On the way it takes the same branches.  The
only exception is a call that is one too deep: a woven method copies an array without a call, so
there the original may give up while its woven form goes on.

Where strings do not keep their identity this is so of an original that copies its literals and
compares some references in the sense of strings (`RunState.Pair.faces`).

`run_agrees` carries this over to runs under a budget, and `Weaving` puts it in terms of classes
and what weaving makes of them.
-/
import Provenance.Proofs.Copying

namespace Provenance

variable {known : Nat → Prop} {interned : Prop} {p p' : Program} {limits : MachineSettings}
  {hist : List Branch}

/-! ## 1. Following a step -/

/-- A run that ended because calls were nested too deep. -/
def RunResult.TooDeep (r : RunResult) : Prop := ∃ n, r.outcome = .error (.callDepthExceeded n)

/-- From a state and a history the woven program comes to where a step of the original went, which
added the given branches to the same history. -/
def Progress.Followed (known : Nat → Prop) (interned : Prop) (p p' : Program)
    (limits : MachineSettings) (new : List Branch) : Progress → RunState → List Branch → Prop
  | .running s, s', h => branches.Soon p' limits
      (fun t' h' => h' = new ++ h ∧
        ∃ t, (interned → t = s) ∧ s.Copied t ∧ t.Pair known interned p t')
      (fun _ _ => False) s' h
  | .ended r, s', h => r.TooDeep ∨
      branches.Soon p' limits (fun _ _ => False) (fun r' h' => h' = h ∧ r.Agrees known r') s' h

variable {t : Progress} {s' : RunState} {new : List Branch}

/-- What is left to follow after some steps of the woven program. -/
theorem Progress.Followed.after
    (hafter : branches.Eventually p' limits
      (fun s' h' => h' = hist ∧ t.Followed known interned p p' limits new s' hist)
      (fun r' h' => h' = hist ∧ ∃ r, t = .ended r ∧ (r.TooDeep ∨ r.Agrees known r')) s' hist) :
    t.Followed known interned p p' limits new s' hist := by
  cases t with
  | running s =>
    refine Chronicle.Eventually.soon hafter ?_ ?_
    · rintro s' h' ⟨heq, hs⟩
      rw [heq]
      exact hs
    · rintro r' _ ⟨-, r, hr, -⟩
      exact absurd hr (by simp)
  | ended r =>
    by_cases hdeep : r.TooDeep
    · exact Or.inl hdeep
    · refine Or.inr (Chronicle.Eventually.soon hafter ?_ ?_)
      · rintro s' h' ⟨heq, hs⟩
        rw [heq]
        exact hs.resolve_left hdeep
      · rintro r' h' ⟨heq, r₀, hr, hagrees⟩
        obtain rfl := Progress.ended.inj hr
        exact ⟨heq, hagrees.resolve_left hdeep⟩

/-- A step follows a step. -/
theorem Progress.Pair.followed {t' : Progress}
    (hpair : Progress.Pair known interned p t t') {i : Insn} (hi : s'.insn? = some i)
    (ht : p'.step limits s' i = t')
    (hnew : ∀ u', t' = .running u' → branches.after i s'.bench hist = new ++ hist) :
    t.Followed known interned p p' limits new s' hist := by
  cases hpair with
  | @running u u' hu =>
    exact .step hi ht (.here ⟨hnew u' rfl, u, fun _ => rfl, .refl u, hu⟩)
  | ended hr => exact Or.inr (.ended hi ht ⟨rfl, hr⟩)

/-- The step of the original and the state the woven program is in. -/
abbrev FollowedAs (known : Nat → Prop) (interned : Prop) (p p' : Program) (limits : MachineSettings)
    (byText : Bool) (s : RunState) (i : Insn) (s' : RunState) (hist : List Branch) : Prop :=
  (p.proceed limits s (s.outcome byText i)).Followed known interned p p' limits
    (i.branchesOf (s.outcome byText i)) s' hist

/-- The step of the original and the state the woven program is in, inside of a method. -/
abbrev FollowedAt (known : Nat → Prop) (interned : Prop) (p p' : Program) (limits : MachineSettings)
    (byText : Bool) (v : Woven) (k pc : Nat) (i : Insn) (b b' : Bench)
    (callers callers' : List Waiting) (hist : List Branch) : Prop :=
  FollowedAs known interned p p' limits byText
    ⟨b.world, ⟨.ofMethod v.method, k, b.locals, b.stack⟩, callers⟩ i
    ⟨b'.world, ⟨.ofMethod v.result, pc, b'.locals, b'.stack⟩, callers'⟩ hist

/-- The woven program has come to where it does the instruction of the original, or what stands in
its place.  `byText` says whether that is a comparison in the sense of strings; a comparison of
references that is done as it is sees the operands that the original sees. -/
structure RunState.Faces (known : Nat → Prop) (interned : Prop) (p p' : Program)
    (limits : MachineSettings) (byText : Bool) (s : RunState) (i : Insn) (s' : RunState)
    (hist : List Branch) : Prop where
  identity : interned → byText = false
  alone : byText = false → i.comparison?.isSome → s'.insn? = some i ∧
    s'.world.heap = s.world.heap ∧ s'.current.stack = s.current.stack
  followed : FollowedAs known interned p p' limits byText s i s' hist

/-- Instructions that agree lead to steps that do. -/
theorem Agreed.followed (hp : p.Pair interned p') {v : Woven}
    (hv : v.Faithful interned p) {k pc : Nat} {tail : List Insn} {f : Frame} {i i' : Insn}
    {b b' : Bench} {extra : List Value} {callers callers' : List Waiting}
    (hi : v.method.insns[k]? = some i) (hf : v.frame? k = some f)
    (hheight : b.stack.length = f.stack.length)
    (hcode : v.result.insns.drop pc = i' :: (tail ++ v.result.insns.drop (v.startOf (k + 1))))
    (htail : v.Quiet known tail) (hstraight : ∀ j ∈ tail, j.jumpTarget? = none)
    (hjump : i'.jumpTarget? = i.jumpTarget?) (htyped : v.Typed extra)
    (hc : List.Forall₂ (Waiting.Pair known interned p) callers callers')
    (hagreed : ∀ method method' u u' inUse inUse', u.kind = "StackUnderflow" → u'.kind = u.kind →
      Agreed (Bench.Alike known v.method.maxLocals extra) (fun t => t.Within known)
        ((Work.perform method u inUse i).outcome b)
        ((Work.perform method' u' inUse' i').outcome b')) :
    FollowedAt known interned p p' limits false v k pc i b b' callers callers' hist := by
  obtain ⟨hi', hnext⟩ := getElem?_of_drop hcode
  have hagreed := hagreed (Routine.ofMethod v.method).key (Routine.ofMethod v.result).key
    (.stackUnderflow (Routine.ofMethod v.method).key k)
    (.stackUnderflow (Routine.ofMethod v.result).key pc)
    (RunState.inUse ⟨.ofMethod v.method, k, b.locals, b.stack⟩ callers)
    (RunState.inUse ⟨.ofMethod v.result, pc, b'.locals, b'.stack⟩ callers') rfl rfl
  have hshape := Work.perform_shape (Routine.ofMethod v.method).key
    (.stackUnderflow (Routine.ofMethod v.method).key k)
    (RunState.inUse ⟨.ofMethod v.method, k, b.locals, b.stack⟩ callers)
    (v.analysed.not_hook hi hf) b
  generalize hr : (Work.perform _ _ _ i).outcome b = r at hagreed
  generalize hr' : (Work.perform _ _ _ i').outcome b' = r' at hagreed
  have hout : RunState.outcome false
      ⟨b.world, ⟨.ofMethod v.method, k, b.locals, b.stack⟩, callers⟩ i = r := hr
  have hinsn := (Routine.insns_getElem? v.result pc).trans hi'
  unfold FollowedAt FollowedAs
  rw [hout]
  cases hagreed with
  | @ok t b₁ b₁' ht halike =>
    have hgone := hshape.of_ok hr
    rw [hheight] at hgone
    refine Progress.Pair.followed (transfer_pair_woven hp limits hv hi hf hnext htail hstraight
      (Woven.mirrors_of_alike halike htyped) hc ht hgone.2) hinsn
      (Program.step_of_ok (a := ⟨.ofMethod v.result, pc, b'.locals, b'.stack⟩) hr') fun _ _ => ?_
    exact (branches_after hist hr').trans (congrArg (· ++ hist) (Insn.branches_congr hjump t))
  | @failed e e' b₁ b₁' he halike =>
    refine Progress.Pair.followed (.failed he halike.world) hinsn
      (Program.step_of_error (a := ⟨.ofMethod v.result, pc, b'.locals, b'.stack⟩) hr')
        fun _ hrun => ?_
    cases hrun

/-! ## 2. Calls of built-in natives -/

variable {M : Method} {k : Nat} {b : Bench} {callers callers' : List Waiting}

/-- A call that a native answers either is too deep or runs the native. -/
theorem native_step (limits : MachineSettings) (M : Method) (k : Nat) (callers : List Waiting)
    {m : MethodRef} {body : NativeBody} (h : p.Answers m body)
    (hheight : m.operandCount ≤ b.stack.length) :
    (∃ r, p.step limits ⟨b.world, ⟨.ofMethod M, k, b.locals, b.stack⟩, callers⟩ (.invoke m) =
        .ended r ∧ r.TooDeep) ∨
      ∃ held, p.step limits ⟨b.world, ⟨.ofMethod M, k, b.locals, b.stack⟩, callers⟩ (.invoke m) =
        Program.callNative b.world
          (⟨⟨.ofMethod M, k + 1, b.locals, b.stack.drop m.operandCount⟩, m.desc.ret⟩ :: callers)
          ⟨body, held⟩ (methodKey m.owner m.name m.desc.descriptor)
          (signatureOf m.name m.desc.descriptor) (b.stack.take m.operandCount).reverse := by
  obtain ⟨hroutine, held, hnative⟩ := h
  have hperform : ∀ (method : String) (u : RunError) (inUse : Thunk (List Value)),
      (Work.perform method u inUse (.invoke m)).outcome b =
        (.ok (.call m (b.stack.take m.operandCount).reverse),
          { b with stack := b.stack.drop m.operandCount }) := by
    intro method u inUse
    have hpop : (Work.popMany u m.operandCount).outcome b =
        (.ok (b.stack.take m.operandCount).reverse,
          { b with stack := b.stack.drop m.operandCount }) := by
      unfold Action.outcome Work.popMany
      rw [if_neg (by omega)]
    unfold Work.perform
    rw [Action.outcome_bind, hpop]
    rfl
  rw [Program.step_of_ok (a := ⟨.ofMethod M, k, b.locals, b.stack⟩) (hperform _ _ _)]
  unfold Program.transfer Program.enter
  simp only
  by_cases hdeep : limits.maxCallDepth ≤ (callers.length + 1)
  · refine Or.inl ⟨_, if_pos hdeep, _, rfl⟩
  · refine Or.inr ⟨held, ?_⟩
    rw [List.length_cons, if_neg hdeep, hroutine]
    simp only [hnative]

/-- What a native call comes to. -/
theorem callNative_wp {n : Native} {w : World} {key signature : String} {args : List Value}
    {Q : Option Value → World → Prop} {E : RunError → World → Prop}
    (h : ∀ record, Action.Wp (n.body ⟨key, args, record⟩) Q E
      { w with store := (w.store.claim signature).2 }) :
    (∃ v w', Q v w' ∧ Program.callNative w callers n key signature args = deliver w' v callers) ∨
      ∃ e w', E e w' ∧
          Program.callNative w callers n key signature args = .ended ⟨.error e, w'⟩ := by
  have h := h (w.store.claim signature).1
  unfold Action.Wp at h
  unfold Program.callNative
  simp only
  split at h
  · rename_i v w' hout
    exact Or.inl ⟨v, w', h, by rw [hout]⟩
  · rename_i e w' hout
    exact Or.inr ⟨e, w', h, by rw [hout]⟩

/-- A comparison refuses no operands. -/
theorem Woven.Refused.comparison {e : RunError} {i : Insn} (h : Woven.Refused b e i) :
    i.comparison? = none := by
  have hreads : Woven.Reads i → i.comparison? = none := by
    rintro (⟨t, rfl⟩ | ⟨m, rfl, -⟩) <;> rfl
  cases h with
  | index hi | array hi => exact hreads hi
  | field | fieldStore => rfl

/-- **Where operands are refused, the original fails**, in that kind of way. -/
theorem refused_step {e : RunError} {i : Insn} (h : Woven.Refused b e i)
    (hcalls : ∀ m, i = .invoke m → p.Standard m) {w' : World} (hw : World.Same known b.world w') :
    ∃ r, p.step limits ⟨b.world, ⟨.ofMethod M, k, b.locals, b.stack⟩, callers⟩ i = .ended r ∧
      (r.TooDeep ∨ r.Agrees known ⟨.error e, w'⟩) := by
  -- an instruction that fails, fails in one step
  have hperform : (∀ method u inUse, Action.Wp (Work.perform method u inUse i) (fun _ _ => False)
      (fun e' b' => e.kind = e'.kind ∧ World.Same known b'.world w') b) →
      ∃ r, p.step limits ⟨b.world, ⟨.ofMethod M, k, b.locals, b.stack⟩, callers⟩ i = .ended r ∧
        (r.TooDeep ∨ r.Agrees known ⟨.error e, w'⟩) := by
    intro h
    have h := h (Routine.ofMethod M).key (.stackUnderflow (Routine.ofMethod M).key k)
      (RunState.inUse ⟨.ofMethod M, k, b.locals, b.stack⟩ callers)
    unfold Action.Wp at h
    split at h
    · exact h.elim
    · rename_i e' b' hout
      refine ⟨_, Program.step_of_error (a := ⟨.ofMethod M, k, b.locals, b.stack⟩) hout, Or.inr ?_⟩
      exact .failed h.1 h.2
  have htarget : ∀ (context : String) (v : Value), b.world.heap.reference v = .error e →
      b.world.heap.target context v = .error e := by
    intro context v h
    unfold Heap.target
    rw [h]
  -- reading a character out of a string is a call
  have hchar : ∀ (m : MethodRef) (index array : Value) (S : List Value), i = .invoke m →
      Carrier.isCharAt m = true → b.stack = index :: array :: S →
      (∀ key record w, w.heap = b.world.heap →
        Action.Wp (Native.charAt ⟨key, [array, index], record⟩) (fun _ _ => False)
          (fun e' w' => e' = e ∧ w' = w) w) →
      ∃ r, p.step limits ⟨b.world, ⟨.ofMethod M, k, b.locals, b.stack⟩, callers⟩ i = .ended r ∧
        (r.TooDeep ∨ r.Agrees known ⟨.error e, w'⟩) := by
    rintro m index array S rfl hm hs hwp
    obtain ⟨hcount, hanswers⟩ := (hcalls m rfl).charAt hm
    have hheight : m.operandCount ≤ b.stack.length := by
      rw [hcount, hs]
      exact Nat.le_add_left 2 S.length
    rcases native_step limits M k callers hanswers hheight with ⟨r, hr, hdeep⟩ | ⟨held, hstep⟩
    · exact ⟨r, hr, Or.inl hdeep⟩
    · have hargs : (b.stack.take m.operandCount).reverse = [array, index] := by
        rw [hcount, hs]
        rfl
      rw [hargs] at hstep
      rcases callNative_wp (n := ⟨Native.charAt, held⟩)
        (fun record => hwp (methodKey m.owner m.name m.desc.descriptor) record _ rfl) with
        ⟨_, _, h, _⟩ | ⟨e', w₁, ⟨rfl, rfl⟩, hnative⟩
      · exact h.elim
      · exact ⟨_, hstep.trans hnative, Or.inr (.failed rfl (hw.claimed _))⟩
  cases h with
  | @index i index array S hi hs he =>
    rcases hi with ⟨t, rfl⟩ | ⟨m, rfl, hm⟩
    · refine hperform fun method u inUse => ?_
      simp only [Work.perform, Work.popInt, Action.wp_bind, Work.wp_pop, Work.wp_fromHeap, hs, he]
      exact ⟨trivial, hw⟩
    · refine hchar m index array S rfl hm hs fun key record w hheap => ?_
      simp only [Native.charAt, NativeCall.int, NativeCall.arg, Action.wp_bind, Action.wp_inspect,
        List.getElem?_cons_succ, List.getElem?_cons_zero, hheap, he]
      exact ⟨trivial, trivial⟩
  | @array i index array S n hi hs hn he =>
    rcases hi with ⟨t, rfl⟩ | ⟨m, rfl, hm⟩
    · refine hperform fun method u inUse => ?_
      simp only [Work.perform, Work.popInt, Work.popTarget, Action.wp_bind, Work.wp_pop,
        Work.wp_fromHeap, hs, hn, htarget _ _ he]
      exact ⟨trivial, hw⟩
    · refine hchar m index array S rfl hm hs fun key record w hheap => ?_
      simp only [Native.charAt, NativeCall.int, NativeCall.target, NativeCall.arg, Action.wp_bind,
        Action.wp_inspect, List.getElem?_cons_succ, List.getElem?_cons_zero, hheap, hn,
        htarget _ _ he]
      exact ⟨trivial, trivial⟩
  | field hs he =>
    refine hperform fun method u inUse => ?_
    simp only [Work.perform, Work.popTarget, Action.wp_bind, Work.wp_pop, Work.wp_fromHeap, hs,
      htarget _ _ he]
    exact ⟨trivial, hw⟩
  | fieldStore hs he =>
    refine hperform fun method u inUse => ?_
    simp only [Work.perform, Work.popTarget, Action.wp_bind, Work.wp_pop, Work.wp_fromHeap, hs,
      htarget _ _ he]
    exact ⟨trivial, hw⟩

/-! ## 3. Instructions in their blocks -/

section Block

variable {v : Woven} {pc : Nat} {i : Insn} {f : Frame} {tail : List Insn} {b' : Bench}

/-- What is known where a block of woven code has come to its instruction. -/
structure AtBody (known : Nat → Prop) (interned : Prop) (p p' : Program) (v : Woven) (k pc : Nat)
    (i : Insn) (f : Frame) (body tail : List Insn) (b b' : Bench)
    (callers callers' : List Waiting) : Prop where
  pair : p.Pair interned p'
  faithful : v.Faithful interned p
  insn : v.method.insns[k]? = some i
  frame : v.frame? k = some f
  height : b.stack.length = f.stack.length
  code : v.result.insns.drop pc = body ++ (tail ++ v.result.insns.drop (v.startOf (k + 1)))
  straight : ∀ j ∈ tail, j.jumpTarget? = none
  tail : v.Quiet known tail
  mirrors : v.Mirrors known [] b b'
  callers : List.Forall₂ (Waiting.Pair known interned p) callers callers'

/-- An instruction that stayed as it was. -/
theorem followed_insn (h : AtBody known interned p p' v k pc i f [i] tail b b' callers callers') :
    FollowedAt known interned p p' limits false v k pc i b b' callers callers' hist := by
  obtain ⟨extra, halike, htyped⟩ := h.mirrors.alike
  refine Agreed.followed h.pair h.faithful h.insn h.frame h.height h.code h.tail
    h.straight rfl htyped h.callers ?_
  intro method method' u u' inUse inUse' _ hu'
  exact Work.perform_matched _ _ hu' inUse inUse' (v.analysed.not_hook h.insn h.frame)
    (fun l hl => Or.inl (v.analysed.local_lt h.insn h.frame hl)) b b' halike

/-- What a hook that agrees with an instruction follows. -/
theorem next_within {n : Nat} {extra : List Value} {r r' : Except RunError Transfer × Bench}
    (h : Agreed (Bench.Alike known n extra) (fun t => t = .next) r r') :
    Agreed (Bench.Alike known n extra) (fun t => t.Within known) r r' := by
  cases h with
  | ok ht hs => exact .ok (ht ▸ trivial) hs
  | failed he hs => exact .failed he hs

/-- Code of the woven method that the original does not have. -/
theorem Progress.Followed.through {t : Progress} {E : RunError → Bench → Prop} {Q : Bench → Prop}
    {code rest : List Insn} (hcode : v.result.insns.drop pc = code ++ rest)
    (hstraight : ∀ j ∈ code, j.jumpTarget? = none) (h : Work.Through E code Q b')
    (hgoal : ∀ b'', Q b'' → v.result.insns.drop (pc + code.length) = rest →
      t.Followed known interned p p' limits new
        ⟨b''.world, ⟨.ofMethod v.result, pc + code.length, b''.locals, b''.stack⟩, callers'⟩ hist)
    (hE : ∀ e b'', E e b'' →
      ∃ r, t = .ended r ∧ (r.TooDeep ∨ r.Agrees known ⟨.error e, b''.world⟩)) :
    t.Followed known interned p p' limits new
      ⟨b'.world, ⟨.ofMethod v.result, pc, b'.locals, b'.stack⟩, callers'⟩ hist :=
  .after (.through hcode (fun j hj b => branches_after_straight (hstraight j hj) b hist) h
    (fun b'' hb hrest => .here ⟨rfl, hgoal b'' hb hrest⟩) fun e b'' he => ⟨rfl, hE e b'' he⟩)

/-- Code that pushes a point leads straight on. -/
theorem Plan.Loading.straight_on {plan : Plan} {code : List Insn} (h : plan.Loading code) :
    ∀ j ∈ code, j.jumpTarget? = none :=
  fun j hj => (h.inserted (i := .nop) j hj).jumpTarget?

/-- A store into an array with the point of the value. -/
theorem followed_arrayStore {t : Ty} {code : List Insn} (hcode : v.plan.Loading code)
    (h : AtBody known interned p p' v k pc (.arrayStore t) f
      (code ++ [.hook (.arrayStoreWithPoint t)]) tail b b' callers callers') :
    FollowedAt known interned p p' limits false v k pc (.arrayStore t) b b' callers
      callers' hist := by
  have hthrough : Work.Through (fun _ _ => False) code
      (fun b'' => ∃ point, v.Mirrors known [.ofPoint point] b b'') b' := by
    rw [← List.append_nil code]
    exact Woven.through_loading hcode h.mirrors fun point b'' hm => ⟨point, hm⟩
  have hdrop := h.code
  rw [List.append_assoc] at hdrop
  refine .through hdrop hcode.straight_on hthrough ?_ fun _ _ he => he.elim
  rintro b'' ⟨point, hm⟩ hrest
  obtain ⟨extra, hlocals, htyped⟩ := hm.locals.split
  have halike : Bench.Alike known v.method.maxLocals extra b ⟨b''.world, b''.locals, b.stack⟩ :=
    ⟨hm.world, hlocals, hm.locals.size, rfl, hm.locals.within, hm.within⟩
  refine Agreed.followed h.pair h.faithful h.insn h.frame h.height hrest h.tail
    h.straight rfl htyped h.callers ?_
  intro method method' u u' inUse inUse' hu _
  have hagreed := Work.arrayStore_matched method method' u' inUse inUse'
    (show Work.hookUnderflow.kind = u.kind from hu.symm) t point halike
  rw [show (⟨b''.world, b''.locals, .ofPoint point :: b.stack⟩ : Bench) = b'' by
    rw [← show b''.stack = .ofPoint point :: b.stack from hm.stack]] at hagreed
  exact next_within hagreed

/-- The points of the marked operands of a concatenation. -/
theorem through_marked {ts : List Ty} {vs : List FlowValue} {mask : List Char} {loads : List Insn}
    (h : v.plan.Marked ts vs mask loads) : ∀ {top : List Value} {b' : Bench},
    v.Mirrors known top b b' →
    Work.Through (fun _ _ => False) loads (fun b'' => ∃ points : List Value,
      points.length = mask.count 'T' ∧ (∀ x ∈ points, ∃ point, x = .ofPoint point) ∧
        v.Mirrors known (points.reverse ++ top) b b'') b' := by
  induction h with
  | done => exact fun hm => ⟨[], rfl, by simp, hm⟩
  | marked hcode _ ih =>
    intro top b' hm
    refine Woven.through_loading (Plan.loading_of_loadPoint hcode) hm fun point b'' hm => ?_
    refine (ih hm).mono ?_ fun _ _ he => he
    rintro b₃ ⟨points, hcount, hpoints, hm⟩
    refine ⟨.ofPoint point :: points, by simp [hcount], ?_, ?_⟩
    · exact List.forall_mem_cons.mpr ⟨⟨point, rfl⟩, hpoints⟩
    · rwa [List.reverse_cons, List.append_assoc]
  | unmarked _ ih =>
    intro top b' hm
    refine (ih hm).mono ?_ fun _ _ he => he
    rintro b₃ ⟨points, hcount, hpoints, hm⟩
    exact ⟨points, by simpa using hcount, hpoints, hm⟩

theorem marked_length {plan : Plan} {ts : List Ty} {vs : List FlowValue} {mask : List Char}
    {loads : List Insn} (h : plan.Marked ts vs mask loads) : ts.length = mask.length := by
  induction h with
  | done => rfl
  | marked _ _ ih => exact congrArg (· + 1) ih
  | unmarked _ ih => exact congrArg (· + 1) ih

/-- A concatenation with the points of its operands. -/
theorem followed_concat {args : List Ty} {vs : List FlowValue} {mask : List Char}
    {loads : List Insn} (hmarked : v.plan.Marked args vs mask loads)
    (h : AtBody known interned p p' v k pc (.concat args) f
      (loads ++ [.hook (.concatWithPoints args (String.ofList mask))]) tail b b' callers callers') :
    FollowedAt known interned p p' limits false v k pc (.concat args) b b' callers
      callers' hist := by
  have hdrop := h.code
  rw [List.append_assoc] at hdrop
  refine .through hdrop (fun j hj => (hmarked.inserted (i := .nop) j hj).jumpTarget?)
    (through_marked hmarked h.mirrors) ?_ fun _ _ he => he.elim
  rintro b'' ⟨points, hcount, hpoints, hm⟩ hrest
  rw [List.append_nil] at hm
  obtain ⟨extra, hlocals, htyped⟩ := hm.locals.split
  have halike : Bench.Alike known v.method.maxLocals extra b ⟨b''.world, b''.locals, b.stack⟩ :=
    ⟨hm.world, hlocals, hm.locals.size, rfl, hm.locals.within, hm.within⟩
  refine Agreed.followed h.pair h.faithful h.insn h.frame h.height hrest h.tail
    h.straight rfl htyped h.callers ?_
  intro method method' u u' inUse inUse' hu _
  have hagreed := Work.concat_matched method method' u' inUse inUse'
    (show Work.hookUnderflow.kind = u.kind from hu.symm)
    (Nat.le_of_eq (marked_length hmarked)) hcount hpoints halike
  rw [show (⟨b''.world, b''.locals, points.reverse ++ b.stack⟩ : Bench) = b'' by
    rw [← show b''.stack = points.reverse ++ b.stack from hm.stack]] at hagreed
  exact next_within hagreed

/-- A clone of a followed array has a result. -/
theorem clone_ret (hv : v.Faithful interned p) (hi : v.method.insns[k]? = some i)
    (target : MethodRef) (h : i = .invoke target) (hclone : (Carrier.clonedArray? target).isSome) :
    target.desc.ret ≠ .void :=
  ((hv.calls target (List.mem_of_getElem? (h ▸ hi))).clone hclone).2.1

/-- The operands are there. -/
theorem AtBody.operands {body : List Insn}
    (h : AtBody known interned p p' v k pc i f body tail b b' callers callers') :
    i.pops ≤ b.stack.length := by
  rw [h.height]
  exact v.analysed.pops_le h.insn h.frame (clone_ret h.faithful h.insn)

/-- **A hook in place of a call of a native** that does what the native does. -/
theorem followed_native {m : MethodRef} {body : NativeBody} {hook : Hook} {α : Type}
    {R : Option Value → α → Prop} {x : Thunk (List Value) → Work α} (values : α → List Value)
    (h : AtBody known interned p p' v k pc (.invoke m) f [.hook hook] tail b b' callers callers')
    (hanswers : p.Answers m body)
    (hmimics : ∀ key record inUse, Work.Mimics known R
      (body ⟨key, (b.stack.take m.operandCount).reverse, record⟩) (x inUse))
    (hresult : ∀ result a, R result a → (∀ y ∈ result, y.Within known) ∧
      values a = if m.desc.ret = .void then [] else [result.getD (Value.defaultFor m.desc.ret)])
    (hhook : ∀ method u inUse, (Work.perform method u inUse (.hook hook)).outcome b' =
      match (x inUse).outcome { b' with stack := b.stack.drop m.operandCount } with
      | (.ok a, b'') => (.ok .next, { b'' with stack := values a ++ b''.stack })
      | (.error e, b'') => (.error e, b'')) :
    FollowedAt known interned p p' limits false v k pc (.invoke m) b b' callers callers' hist := by
  obtain ⟨hi', hnext⟩ := getElem?_of_drop h.code
  have hheight : m.operandCount ≤ b.stack.length := h.operands
  have hreach : v.context.analysis.Reached v.method (k + 1)
      ((b.stack.drop m.operandCount).length + if m.desc.ret = .void then 0 else 1) := by
    rw [List.length_drop, h.height]
    exact v.analysed.reached_next h.insn h.frame (clone_ret h.faithful h.insn) rfl
  refine (native_step limits v.method k callers hanswers hheight).elim ?_ ?_
  · rintro ⟨r, hr, hdeep⟩
    rw [FollowedAt, FollowedAs, ← Program.step_eq, hr]
    exact Or.inl hdeep
  · rintro ⟨held, hstep⟩
    rw [FollowedAt, FollowedAs, ← Program.step_eq, hstep, Insn.branchesOf_eq_nil rfl]
    refine Progress.Pair.followed (i := .hook hook) ?_
      ((Routine.insns_getElem? v.result pc).trans hi') rfl
      fun _ _ => branches_after_straight rfl _ _
    have hwoven := hhook (Routine.ofMethod v.result).key
      (.stackUnderflow (Routine.ofMethod v.result).key pc)
      (RunState.inUse ⟨.ofMethod v.result, pc, b'.locals, b'.stack⟩ callers')
    have hwp := fun record => hmimics (methodKey m.owner m.name m.desc.descriptor) record
      (RunState.inUse ⟨.ofMethod v.result, pc, b'.locals, b'.stack⟩ callers')
      { b.world with store :=
        (b.world.store.claim (signatureOf m.name m.desc.descriptor)).2 }
      { b' with stack := b.stack.drop m.operandCount } (h.mirrors.world.claimed _)
    rcases callNative_wp (n := ⟨body, held⟩)
      hwp with ⟨result, w₁, hx, hnative⟩ | ⟨e, w₁, hx, hnative⟩
    · rw [hnative]
      unfold Action.Wp at hx
      split at hx
      case h_2 => exact hx.elim
      rename_i a b'' hout
      obtain ⟨hR, hworld, hlocals, hstack⟩ := hx
      obtain ⟨hwithin, hvalues⟩ := hresult result a hR
      rw [hout] at hwoven
      rw [Program.step_of_ok (a := ⟨.ofMethod v.result, pc, b'.locals, b'.stack⟩) hwoven]
      simp only [Program.transfer, hstack, hvalues, deliver, hlocals]
      by_cases hvoid : m.desc.ret = .void
      · simp only [hvoid, if_true, List.nil_append] at hreach ⊢
        exact .running ⟨hworld, .woven h.faithful hnext h.tail h.straight h.mirrors.locals
          (fun y hy => h.mirrors.within y (List.mem_of_mem_drop hy)) hreach, h.callers⟩
      · simp only [hvoid, if_false, List.singleton_append] at hreach ⊢
        refine .running
          ⟨hworld, .woven h.faithful hnext h.tail h.straight h.mirrors.locals ?_ hreach, h.callers⟩
        refine List.forall_mem_cons.mpr
          ⟨?_, fun y hy => h.mirrors.within y (List.mem_of_mem_drop hy)⟩
        cases result with
        | none => exact Value.within_defaultFor _
        | some y => exact hwithin y rfl
    · rw [hnative]
      unfold Action.Wp at hx
      split at hx
      · exact hx.elim
      · rename_i e' b'' hout
        rw [hout] at hwoven
        rw [Program.step_of_error (a := ⟨.ofMethod v.result, pc, b'.locals, b'.stack⟩) hwoven]
        exact .failed hx.1 hx.2

/-- The bulk copy. -/
theorem followed_arrayCopy {m : MethodRef} (hm : Carrier.isArrayCopy m = true)
    (h : AtBody known interned p p' v k pc (.invoke m) f [.hook .arrayCopy] tail b b'
      callers callers') :
    FollowedAt known interned p p' limits false v k pc (.invoke m) b b' callers callers' hist := by
  obtain ⟨hcount, hvoid, hanswers⟩ :=
    (h.faithful.calls m (List.mem_of_getElem? h.insn)).arrayCopy hm
  have hheight : m.operandCount ≤ b.stack.length := h.operands
  have hlen : (b.stack.take m.operandCount).reverse.length = 5 := by
    rw [List.length_reverse, List.length_take, Nat.min_eq_left hheight, hcount]
  refine followed_native
    (x := fun inUse => Work.copyArray inUse (b.stack.take m.operandCount).reverse)
    (fun _ => []) h hanswers (fun _ _ _ => Work.copyArray_mimics hlen) ?_ ?_
  · rintro result a rfl
    exact ⟨by simp, by rw [if_pos hvoid]⟩
  · intro method u inUse
    have hpop : (Work.popMany Work.hookUnderflow 5).outcome b' =
        (.ok (b.stack.take 5).reverse, { b' with stack := b.stack.drop 5 }) := by
      unfold Action.outcome Work.popMany
      rw [show b'.stack = b.stack from h.mirrors.stack, if_neg (by omega)]
    simp only [Work.perform, Work.hook, bind_assoc]
    rw [Action.outcome_bind, hpop, hcount]
    simp only [Action.outcome_bind]
    rcases Action.outcome (Work.copyArray inUse (b.stack.take 5).reverse) _ with ⟨r, b''⟩
    cases r <;> rfl

/-- The clone of an array. -/
theorem followed_arrayClone {m : MethodRef} (hm : (Carrier.clonedArray? m).isSome)
    (h : AtBody known interned p p' v k pc (.invoke m) f [.hook .arrayClone] tail b b'
      callers callers') :
    FollowedAt known interned p p' limits false v k pc (.invoke m) b b' callers callers' hist := by
  obtain ⟨hcount, hret, hanswers⟩ :=
    (h.faithful.calls m (List.mem_of_getElem? h.insn)).clone hm
  have hheight : m.operandCount ≤ b.stack.length := h.operands
  obtain ⟨array, S, hs⟩ : ∃ array S, b.stack = array :: S :=
    List.exists_cons_of_length_pos (by omega)
  have hargs : (b.stack.take m.operandCount).reverse = [array] := by
    rw [hcount, hs]
    rfl
  refine followed_native (x := fun inUse => Work.cloneArray inUse array)
    (fun a => [a]) h hanswers
    (fun _ _ _ => hargs ▸ Work.cloneArray_mimics array) ?_ ?_
  · rintro result a ⟨rfl, ha⟩
    refine ⟨fun y hy => ?_, by rw [if_neg hret]; rfl⟩
    exact Option.some.inj hy ▸ ha
  · intro method u inUse
    have htake : Work.take.outcome b' = (.ok array, { b' with stack := b.stack.drop 1 }) := by
      unfold Action.outcome Work.take Work.pop
      rw [show b'.stack = b.stack from h.mirrors.stack, hs]
      rfl
    simp only [Work.perform, Work.hook, bind_assoc]
    rw [Action.outcome_bind, htake, hcount]
    simp only [Action.outcome_bind]
    rcases Action.outcome (Work.cloneArray inUse array) _ with ⟨r, b''⟩
    cases r <;> rfl

/-- The hook that stands for a comparison. -/
theorem through_stringEquals {x y : Value} {S : List Value} (hs : b.stack = y :: x :: S)
    (hm : v.Mirrors known [] b b') :
    Work.Through (fun e b'' => b.world.heap.stringEquals x y = .error e ∧ b''.world = b'.world)
      [.hook .stringEquals] (fun b'' => ∃ same, b.world.heap.stringEquals x y = .ok same ∧
        b'' = ⟨b'.world, b'.locals, .ofBool same :: S⟩) b' := by
  obtain ⟨w, L, T⟩ := b'
  obtain rfl : T = y :: x :: S := hm.stack.trans hs
  refine Woven.through_hook fun inUse => ?_
  simp only [Work.hook, Work.take, Action.wp_bind, Work.wp_pop_cons, Work.wp_fromHeap, Work.wp_push,
    show w.heap = b.world.heap from hm.world.heap]
  cases b.world.heap.stringEquals x y with
  | ok same => exact ⟨same, rfl, rfl⟩
  | error e => exact ⟨rfl, trivial⟩

/-- **A comparison in the sense of strings.** -/
theorem followed_comparison {equal : Bool} {l : Nat} (hcompares : i.comparison? = some (equal, l))
    (h : AtBody known interned p p' v k pc i f
      [.hook .stringEquals, .ifZero (if equal then .ne else .eq) l] tail b b' callers callers') :
    FollowedAt known interned p p' limits true v k pc i b b' callers callers' hist := by
  have hi := Insn.eq_of_comparison hcompares
  obtain ⟨y, x, S, hs⟩ := Woven.exists_cons_cons
    (show 2 ≤ b.stack.length from (by rw [hi]; cases equal <;> rfl : i.pops = 2) ▸ h.operands)
  have hout : RunState.outcome true ⟨b.world,
      ⟨.ofMethod v.method, k, b.locals, b.stack⟩, callers⟩ i =
      (Work.jumpIfAlike (.stackUnderflow (Routine.ofMethod v.method).key k) equal l).outcome
        ⟨b.world, b.locals, y :: x :: S⟩ := by
    rw [← hs]
    unfold RunState.outcome
    rw [Work.performAs_true hcompares]
    rfl
  have hdrop : v.result.insns.drop pc = [.hook .stringEquals] ++
      (.ifZero (if equal then .ne else .eq) l ::
          (tail ++ v.result.insns.drop (v.startOf (k + 1)))) :=
    h.code
  rw [FollowedAt, FollowedAs, hout, Work.jumpIfAlike_outcome]
  refine .through hdrop (by simp [Insn.jumpTarget?]) (through_stringEquals hs h.mirrors) ?_ ?_
  · rintro _ ⟨same, hsame, rfl⟩ hrest
    obtain ⟨hi', hnext⟩ := getElem?_of_drop hrest
    have hzero : ∀ method u inUse, (Work.perform method u inUse
        (.ifZero (if equal then .ne else .eq) l)).outcome ⟨b'.world, b'.locals, .ofBool same :: S⟩ =
          (.ok (Work.jumpIf (same == equal) l), ⟨b'.world, b'.locals, S⟩) := by
      intro method u inUse
      cases same <;> cases equal <;> rfl
    have hmirrors : v.Mirrors known [] ⟨b.world, b.locals, S⟩ ⟨b'.world, b'.locals, S⟩ := by
      have hwithin := h.mirrors.within
      rw [hs] at hwithin
      exact ⟨h.mirrors.world, h.mirrors.locals, rfl, fun u hu => hwithin u (by simp [hu])⟩
    have hheight := h.height
    rw [hs] at hheight
    have hshape : Work.Shape i f.stack.length (Work.jumpIf (same == equal) l)
        ⟨b.world, b.locals, S⟩ := by
      rw [← hheight, hi]
      cases same <;> cases equal <;> exact ⟨rfl, rfl⟩
    rw [hsame]
    refine Progress.Pair.followed
      (transfer_pair_woven h.pair limits h.faithful h.insn h.frame hnext h.tail h.straight hmirrors
        h.callers ?_ hshape)
      ((Routine.insns_getElem? v.result _).trans hi')
      (Program.step_of_ok (a := ⟨.ofMethod v.result, _, b'.locals, _⟩) (hzero _ _ _)) fun _ _ => ?_
    · cases same == equal <;> trivial
    · refine (branches_after hist (hzero "" Work.hookUnderflow (.pure []))).trans
        (congrArg (· ++ hist) (Insn.branches_congr ?_ _))
      rw [hi]
      cases equal <;> rfl
  · rintro e b'' ⟨he, hw⟩
    rw [he]
    exact ⟨_, rfl, Or.inr (.failed rfl (hw ▸ h.mirrors.world))⟩

/-- What lies on the stack after a string literal. -/
theorem World.onString_literal {w : World} {text : String} (L : Array Value) (S : List Value)
    (h : ∀ o, w.literals.lookup text = some o → ∃ chars, w.heap.object o = .string chars) :
    Bench.OnString ⟨(w.literal text).2, L, .ref (w.literal text).1 :: S⟩ := by
  unfold World.literal
  cases hlookup : w.literals.lookup text with
  | some o =>
    obtain ⟨chars, hchars⟩ := h o hlookup
    exact ⟨o, S, chars, rfl, hchars⟩
  | none =>
    exact ⟨_, S, _, rfl, (Heap.object_allocate _ _ _).trans (if_pos rfl)⟩

/-- **A string literal** of which the woven program may make a copy. -/
theorem followed_literal {text : String} (hinterned : ¬interned)
    (h : AtBody known interned p p' v k pc (.const (.str text)) f
      (.const (.str text) :: v.plan.behind k) [] b b' callers callers')
    (hstring : ∀ o, b.world.literals.lookup text = some o →
      ∃ chars, b.world.heap.object o = .string chars) :
    FollowedAt known interned p p' limits false v k pc (.const (.str text)) b b' callers callers'
      hist := by
  obtain ⟨hi', hnext⟩ := getElem?_of_drop h.code
  obtain ⟨extra, halike, htyped⟩ := h.mirrors.alike
  have hperform : ∀ method u inUse (b : Bench),
      (Work.perform method u inUse (.const (.str text))).outcome b =
        (.ok .next,
            ⟨(b.world.literal text).2, b.locals, .ref (b.world.literal text).1 :: b.stack⟩) :=
    fun _ _ _ _ => rfl
  have hagreed := Work.perform_matched "" ""
    (show Work.hookUnderflow.kind = Work.hookUnderflow.kind from rfl) (.pure []) (.pure [])
    (v.analysed.not_hook h.insn h.frame)
    (fun l hl => Or.inl (v.analysed.local_lt h.insn h.frame hl)) b b' halike
  rw [hperform, hperform] at hagreed
  rw [FollowedAt, FollowedAs, RunState.outcome, Work.performAs_false, hperform]
  cases hagreed with
  | ok _ halike =>
    have hm := Woven.mirrors_of_alike halike htyped
    refine .step ((Routine.insns_getElem? v.result pc).trans hi')
      (Program.step_of_ok (a := ⟨.ofMethod v.result, pc, b'.locals, b'.stack⟩)
        (hperform _ _ _ b')) ?_
    rw [branches_after_straight rfl]
    rw [List.nil_append] at hnext
    refine .through hnext (fun j hj b => branches_after_straight
      (Plan.behind_inserted (i := .nop) v.planned j hj).jumpTarget? b hist)
      (Woven.through_behind hm (World.onString_literal _ _ hstring)) ?_ fun _ _ he => he.elim
    rintro b'' ⟨b₁, hcopied, hm⟩ hrest
    refine .here ⟨rfl, _, fun hin => absurd hin hinterned, ⟨b₁, hcopied, rfl⟩, hm.world,
      ?_, h.callers⟩
    rw [show b''.stack = b₁.stack from hm.stack]
    refine .woven h.faithful hrest Woven.quiet_nil (by simp) hm.locals hm.within ?_
    have hreach := v.analysed.reached_next h.insn h.frame (clone_ret h.faithful h.insn) rfl
    rw [hcopied.length, List.length_cons, h.height]
    exact hreach

/-- **The instruction of a block**, or what stands in its place. -/
theorem faces_body {body : List Insn}
    (hbody : body = [i] ∨ v.plan.replaced.lookup k = some body)
    (h : AtBody known interned p p' v k pc i f body tail b b' callers callers') :
    ∃ byText, RunState.Faces known interned p p' limits byText
      ⟨b.world, ⟨.ofMethod v.method, k, b.locals, b.stack⟩, callers⟩ i
      ⟨b'.world, ⟨.ofMethod v.result, pc, b'.locals, b'.stack⟩, callers'⟩ hist := by
  have hplain : i.comparison? = none →
      FollowedAt known interned p p' limits false v k pc i b b' callers callers' hist →
      ∃ byText, RunState.Faces known interned p p' limits byText
        ⟨b.world, ⟨.ofMethod v.method, k, b.locals, b.stack⟩, callers⟩ i
        ⟨b'.world, ⟨.ofMethod v.result, pc, b'.locals, b'.stack⟩, callers'⟩ hist :=
    fun hi hfollowed => ⟨false, fun _ => rfl, fun _ hsome => by simp [hi] at hsome, hfollowed⟩
  rcases hbody with rfl | hbody
  · refine ⟨false, fun _ => rfl, fun _ _ => ⟨?_, h.mirrors.world.heap, h.mirrors.stack⟩,
      followed_insn h⟩
    exact (Routine.insns_getElem? v.result pc).trans (getElem?_of_drop h.code).1
  · have hpiece := v.planned.replaced _ (mem_of_lookup hbody)
    simp only at hpiece
    have hinsn : ∀ {j}, v.context.method.insns[k]? = some j → i = j :=
      fun hj => Option.some.inj (h.insn.symm.trans hj)
    cases hpiece with
    | arrayStore hi hf hcode =>
      obtain rfl := hinsn hi
      exact hplain rfl (followed_arrayStore (Plan.loading_of_pointCode hcode) h)
    | concat hi hf hmarked =>
      obtain rfl := hinsn hi
      exact hplain rfl (followed_concat hmarked h)
    | @stringComparison equal target hi hsite =>
      obtain rfl := hinsn hi
      refine ⟨true, fun hin => absurd hsite (h.faithful.comparisons hin _ _ _), by simp, ?_⟩
      refine followed_comparison (show _ = some (equal, target) from ?_) h
      cases equal <;> rfl
    | arrayCopy hi hcopy =>
      obtain rfl := hinsn hi
      exact hplain rfl (followed_arrayCopy hcopy h)
    | arrayClone hi _ hclone =>
      obtain rfl := hinsn hi
      exact hplain rfl (followed_arrayClone hclone h)

/-- Nothing stands in place of a literal. -/
theorem Woven.literal_kept (v : Woven) {text : String} {body : List Insn}
    (hi : v.method.insns[k]? = some (.const (.str text))) :
    ¬v.plan.replaced.lookup k = some body := by
  intro hbody
  have hpiece := v.planned.replaced _ (mem_of_lookup hbody)
  simp only at hpiece
  have hinsn : ∀ {j}, v.context.method.insns[k]? = some j → j = .const (.str text) :=
    fun hj => Option.some.inj (hj.symm.trans hi)
  cases hpiece with
  | arrayStore hj | concat hj | arrayCopy hj | arrayClone hj => exact absurd (hinsn hj) (by simp)
  | @stringComparison equal _ hj => cases equal <;> exact absurd (hinsn hj) (by simp)

/-- **A block comes to its instruction**, unless the original cannot do it. -/
theorem faces_block (hp : p.Pair interned p') (hv : v.Faithful interned p)
    (hi : v.method.insns[k]? = some i)
    (hcode : v.result.insns.drop pc = v.result.insns.drop (v.startOf k))
    (hreach : v.context.analysis.Reached v.method k b.stack.length)
    (hm : v.Mirrors known [] b b')
    (hc : List.Forall₂ (Waiting.Pair known interned p) callers callers')
    (hstring : ¬interned → ∀ text o, b.world.literals.lookup text = some o →
      ∃ chars, b.world.heap.object o = .string chars) :
    branches.Eventually p' limits
      (fun t' h' => h' = hist ∧ ∃ byText, RunState.Faces known interned p p' limits byText
        ⟨b.world, ⟨.ofMethod v.method, k, b.locals, b.stack⟩, callers⟩ i t' hist)
      (fun r' h' => h' = hist ∧ i.comparison? = none ∧ ∃ r,
        p.step limits ⟨b.world, ⟨.ofMethod v.method, k, b.locals, b.stack⟩, callers⟩ i = .ended r ∧
          (r.TooDeep ∨ r.Agrees known r'))
      ⟨b'.world, ⟨.ofMethod v.result, pc, b'.locals, b'.stack⟩, callers'⟩ hist := by
  obtain ⟨f, hf, hheight⟩ := hreach i hi
  have hdrop : v.result.insns.drop pc =
      v.plan.block k i ++ v.result.insns.drop (v.startOf (k + 1)) :=
    hcode.trans (v.plan.woven_drop_block hi)
  have hstraight : ∀ j ∈ v.plan.behind k, j.jumpTarget? = none := fun j hj =>
    (Plan.behind_inserted (i := .nop) v.planned j hj).jumpTarget?
  have hahead : ∀ j ∈ v.plan.ahead k i, j.jumpTarget? = none := fun j hj =>
    (Plan.ahead_inserted v.planned hi j hj).jumpTarget?
  cases hlabel : i.label? with
  | some l =>
    obtain rfl : i = .label l := by
      cases i <;> simp [Insn.label?] at hlabel
      rw [hlabel]
    rw [Plan.block_label, List.cons_append] at hdrop
    have hbehind : v.Quiet known (v.plan.behind k) := v.quiet_behind fun text htext =>
      absurd (hi.symm.trans htext) (by simp)
    exact .here ⟨rfl, faces_body (Or.inl rfl) ⟨hp, hv, hi, hf, hheight.symm, hdrop,
      fun j hj => (List.mem_append.mp hj).elim (hahead j) (hstraight j),
      (v.quiet_ahead_label hi).append hbehind, hm, hc⟩⟩
  | none =>
    rw [Plan.block_other v.plan k hlabel, List.append_assoc, List.append_assoc] at hdrop
    have hoperands : i.pops ≤ b.stack.length := by
      rw [← hheight]
      exact v.analysed.pops_le hi hf (clone_ret hv hi)
    have hread : Woven.Reads i → i.pops = 2 := by
      rintro (⟨t, rfl⟩ | ⟨m, rfl, hm⟩)
      · rfl
      · exact ((hv.calls m (List.mem_of_getElem? hi)).charAt hm).1
    refine .through hdrop (fun j hj b => branches_after_straight (hahead j hj) b hist)
      (v.through_ahead (E := fun e b'' => Woven.Refused b e i ∧
        World.Same known b.world b''.world) hi hoperands hread hm fun e b'' he hw => ⟨he, hw⟩) ?_ ?_
    · intro b'' hm hrest
      have hbody : v.plan.inPlace k i = [i] ∨
          v.plan.replaced.lookup k = some (v.plan.inPlace k i) := by
        unfold Plan.inPlace
        cases v.plan.replaced.lookup k with
        | none => exact Or.inl rfl
        | some body => exact Or.inr rfl
      refine .here ⟨rfl, ?_⟩
      by_cases hliteral : ∀ text, v.method.insns[k]? = some (.const (.str text)) →
          ⟨k, .stringLiteral text⟩ ∉ v.sites
      · exact faces_body hbody ⟨hp, hv, hi, hf, hheight.symm, hrest, hstraight,
          v.quiet_behind hliteral, hm, hc⟩
      · -- a literal stays as it is, and a copy may be made of it
        simp only [not_forall, not_not] at hliteral
        obtain ⟨text, htext, hsite⟩ := hliteral
        obtain rfl : i = .const (.str text) := Option.some.inj (hi.symm.trans htext)
        have hinterned : ¬interned := fun hin => hv.literals hin _ _ hsite
        have hkept : v.plan.inPlace k (.const (.str text)) = [.const (.str text)] :=
          hbody.resolve_right fun hbody => v.literal_kept htext hbody
        rw [hkept] at hrest
        exact ⟨false, fun _ => rfl, fun _ hsome => by simp [Insn.comparison?] at hsome,
          followed_literal hinterned ⟨hp, hv, hi, hf, hheight.symm, hrest, by simp,
            Woven.quiet_nil, hm, hc⟩ (hstring hinterned text)⟩
    · rintro e b'' ⟨he, hw⟩
      exact ⟨rfl, he.comparison,
        refused_step he (fun m hm => hv.calls m (List.mem_of_getElem? (hm ▸ hi))) hw⟩

end Block

/-! ## 4. Whole runs -/

variable {s : RunState}

/-- **A state comes to its instruction**, unless the original cannot do it. -/
theorem RunState.Pair.faces (hp : p.Pair interned p') (h : s.Pair known interned p s') {i : Insn}
    (hi : s.insn? = some i)
    (hstring : ¬interned → ∀ text o, s.world.literals.lookup text = some o →
      ∃ chars, s.world.heap.object o = .string chars) :
    branches.Eventually p' limits
      (fun t' h' => h' = hist ∧
        ∃ byText, RunState.Faces known interned p p' limits byText s i t' hist)
      (fun r' h' => h' = hist ∧ i.comparison? = none ∧
        ∃ r, p.step limits s i = .ended r ∧ (r.TooDeep ∨ r.Agrees known r'))
      s' hist := by
  obtain ⟨w, a, callers⟩ := s
  obtain ⟨w', a', callers'⟩ := s'
  obtain ⟨hw, ha, hc⟩ := h
  simp only at hw ha hc hstring
  cases ha with
  | @same m pc L S hm hL hS =>
    have hinsn : m.insns[pc]? = some i := (Routine.insns_getElem? m pc).symm.trans hi
    have hhook : ∀ hk, i ≠ .hook hk := by
      rintro hk rfl
      exact hm hk (List.mem_of_getElem? hinsn)
    have halike : Bench.Alike known L.size [] ⟨w, L, S⟩ ⟨w', L, S⟩ :=
      ⟨hw, (List.append_nil _).symm, rfl, rfl, hL, hS⟩
    refine .here ⟨rfl, false, fun _ => rfl, fun _ _ => ⟨hi, hw.heap, rfl⟩, ?_⟩
    have hunderflow : (RunError.stackUnderflow (Routine.ofMethod m).key pc).kind =
        (RunError.stackUnderflow (Routine.ofMethod m).key pc).kind := rfl
    have h := Work.perform_matched (Routine.ofMethod m).key (Routine.ofMethod m).key hunderflow
      (RunState.inUse ⟨.ofMethod m, pc, L, S⟩ callers)
      (RunState.inUse ⟨.ofMethod m, pc, L, S⟩ callers') hhook (fun _ _ => Or.inr rfl) _ _ halike
    generalize hr : (Work.perform _ _ _ i).outcome ⟨w, L, S⟩ = r at h
    generalize hr' : (Work.perform _ _ _ i).outcome ⟨w', L, S⟩ = r' at h
    have hout : RunState.outcome false ⟨w, ⟨.ofMethod m, pc, L, S⟩, callers⟩ i = r := hr
    rw [FollowedAs, hout]
    cases h with
    | @ok t b b' ht halike =>
      refine Progress.Pair.followed
        (transfer_pair_same hp limits hm (halike.size ▸ halike) hc ht) hi
        (Program.step_of_ok (a := ⟨.ofMethod m, pc, L, S⟩) hr') fun _ _ => branches_after hist hr'
    | failed he halike =>
      refine Progress.Pair.followed (.failed he halike.world) hi
        (Program.step_of_error (a := ⟨.ofMethod m, pc, L, S⟩) hr') fun _ hrun => ?_
      cases hrun
  | @woven v k pc pending L L' S hv hcode hquiet hstraight hL hS hreach =>
    have hm : v.Mirrors known [] ⟨w, L, S⟩ ⟨w', L', S⟩ := ⟨hw, hL, rfl, hS⟩
    have hthrough : Work.Through (fun _ _ => False) pending (v.Mirrors known [] ⟨w, L, S⟩)
        ⟨w', L', S⟩ := hquiet _ _ hm
    refine .through (b := ⟨w', L', S⟩) hcode
      (fun j hj b => branches_after_straight (hstraight j hj) b hist) hthrough ?_
      fun _ _ he => he.elim
    intro b'' hm hrest
    have hinsn : v.method.insns[k]? = some i := (Routine.insns_getElem? v.method k).symm.trans hi
    exact faces_block (b := ⟨w, L, S⟩) hp hv hinsn hrest hreach hm hc hstring

/-- **Every step is followed**, where strings keep their identity. -/
theorem follow_step (limits : MachineSettings) (hin : interned) (hp : p.Pair interned p')
    (h : s.Pair known interned p s') {i : Insn} (hi : s.insn? = some i) (hist : List Branch) :
    (p.step limits s i).Followed known interned p p' limits (i.branchesOf (s.outcome false i)) s'
      hist := by
  refine .after ((h.faces hp hi fun hn => absurd hin hn).trans ?_ fun _ _ h => ⟨h.1, h.2.2⟩)
  rintro t' h' ⟨rfl, byText, hfaces⟩
  obtain rfl := hfaces.identity hin
  rw [Program.step_eq]
  exact .here ⟨rfl, hfaces.followed⟩

/-- **Falling off the end** is followed. -/
theorem follow_end (p' : Program) (limits : MachineSettings) (h : s.Pair known interned p s')
    (hi : s.insn? = none) (hist : List Branch) :
    branches.Soon p' limits (fun _ _ => False) (fun r' h' => h' = hist ∧
      RunResult.Agrees known ⟨.error (.fellOffEnd s.current.routine.key), s.world⟩ r') s' hist := by
  obtain ⟨w, a, callers⟩ := s
  obtain ⟨w', a', callers'⟩ := s'
  obtain ⟨hw, ha, hc⟩ := h
  simp only at hw ha hc
  cases ha with
  | @same m pc L S hm hL hS => exact .fell hi ⟨rfl, .failed rfl hw⟩
  | @woven v k pc pending L L' S hv hcode hquiet hstraight hL hS hreach =>
    have hm : v.Mirrors known [] ⟨w, L, S⟩ ⟨w', L', S⟩ := ⟨hw, hL, rfl, hS⟩
    have hthrough : Work.Through (fun _ _ => False) pending (v.Mirrors known [] ⟨w, L, S⟩)
        ⟨w', L', S⟩ := hquiet _ _ hm
    -- the woven method ends where the code that is still to come does
    have hend : branches.Eventually p' limits
        (fun t' h' => h' = hist ∧ t'.insn? = none ∧ t'.current.routine = .ofMethod v.result ∧
          World.Same known w t'.world) (fun _ _ => False)
        ⟨w', ⟨.ofMethod v.result, pc, L', S⟩, callers'⟩ hist := by
      refine .through (b := ⟨w', L', S⟩) hcode
        (fun j hj b => branches_after_straight (hstraight j hj) b hist) hthrough ?_
        fun _ _ he => he.elim
      intro b'' hm hrest
      have hinsn : v.method.insns[k]? = none := (Routine.insns_getElem? v.method k).symm.trans hi
      refine .here ⟨rfl, (Routine.insns_getElem? v.result _).trans ?_, rfl, hm.world⟩
      have hdrop := hrest.trans (v.plan.woven_end hinsn)
      rw [List.drop_eq_nil_iff] at hdrop
      exact List.getElem?_eq_none hdrop
    refine hend.soon ?_ fun _ _ h => h.elim
    rintro t' h' ⟨rfl, hi', hroutine, hw⟩
    refine .fell hi' ⟨rfl, .failed ?_ hw⟩
    rfl

/-- A run that ended because it was too deep or too long. -/
def RunResult.Exceeded (r : RunResult) : Prop := ∃ e, r.outcome = .error e ∧ e.isLimit = true

/-- **A run of the woven program** comes to the same as the run of the original, unless one of the
two is cut short. -/
theorem run_agrees (hp : p.Pair True p') : ∀ (budget : Nat) (s s' : RunState),
    s.Pair known True p s' →
    ∀ budget', (p.run limits budget s).Exceeded ∨
      (p'.run limits budget' s').outcome = .error (.instructionLimit limits.maxInstructions) ∨
      (p.run limits budget s).Agrees known (p'.run limits budget' s') := by
  -- where the original falls off its end, so does the woven program
  have hfell : ∀ (budget : Nat) (s s' : RunState), s.Pair known True p s' → s.insn? = none →
      ∀ budget', (p'.run limits budget' s').outcome =
      .error (.instructionLimit limits.maxInstructions) ∨
        (p.run limits budget s).Agrees known (p'.run limits budget' s') := by
    intro budget s s' h hi budget'
    rw [Program.run_of_end hi]
    rcases (follow_end p' limits h hi []).eventually.run budget' with
      hlimit | ⟨_, _, _, hfalse, _⟩ | ⟨_, -, hagrees⟩
    · exact Or.inl hlimit
    · exact hfalse.elim
    · exact Or.inr hagrees
  intro budget
  induction budget with
  | zero =>
    intro s s' h budget'
    cases hi : s.insn? with
    | some i => exact Or.inl ⟨_, Program.run_out hi, rfl⟩
    | none => exact Or.inr (hfell 0 s s' h hi budget')
  | succ budget ih =>
    intro s s' h budget'
    cases hi : s.insn? with
    | none => exact Or.inr (hfell _ s s' h hi budget')
    | some i =>
      have hfollow := follow_step limits trivial hp h hi []
      cases ht : p.step limits s i with
      | running t =>
        rw [ht] at hfollow
        rw [Program.run_of_running hi ht]
        rcases (Chronicle.Soon.eventually hfollow).run budget' with
          hlimit | ⟨t', _, left, ⟨-, _, hsame, -, hpair⟩, hrun⟩ | ⟨_, hfalse⟩
        · exact Or.inr (Or.inl hlimit)
        · rw [hrun]
          obtain rfl := hsame trivial
          exact ih _ t' hpair left
        · exact hfalse.elim
      | ended r =>
        rw [ht] at hfollow
        rw [Program.run_of_ended hi ht]
        rcases hfollow with ⟨n, hn⟩ | hfollow
        · exact Or.inl ⟨_, hn, rfl⟩
        · rcases hfollow.eventually.run budget' with
            hlimit | ⟨_, _, _, hfalse, _⟩ | ⟨_, -, hagrees⟩
          · exact Or.inr (Or.inl hlimit)
          · exact hfalse.elim
          · exact Or.inr (Or.inr hagrees)


end Provenance
