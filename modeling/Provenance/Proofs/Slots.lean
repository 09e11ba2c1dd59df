/-
# Parameters and their slots

A parameter is counted in several places: in the slots of a call record, from the top of the stack
of the caller, and in the locals of the callee, behind the receiver if there is one.  Whether its
point comes along is asked of a call and of the method that is called.

The answers are the same (`MethodRef.Names.recorded_iff`), with the exception of the call that hands
on what it is given: there nothing is recorded (`passThrough_unrecorded`).  What a call does with
its operands is `Program.step_invoke`, and where the method finds them
`MethodRef.Names.operand_passed`.
-/
import Provenance.Proofs.Planning
import Provenance.Proofs.StraightLine

namespace Provenance

/-! ## 1. Which parameters come with a point -/

namespace Carrier

variable {name : String} {desc : MethodDesc} {carried : List Bool} {n : Nat}

theorem carriedArguments?_eq (h : carriedArguments? name desc = some carried) :
    carried = desc.params.map (carriesArgument name) ∧ desc.params.length ≤ Store.maxArgSlots := by
  unfold carriedArguments? at h
  split at h
  · cases h
  · rename_i hcond
    simp only at h
    split at h
    · exact ⟨(Option.some.inj h).symm, Nat.le_of_not_lt fun hlt => hcond (by simp [hlt])⟩
    · cases h

/-- Whether the point of a parameter comes along. -/
def carriesParameter (name : String) (desc : MethodDesc) (n : Nat) : Bool :=
  ((carriedArguments? name desc).bind fun carried => carried[n]?).getD false

/-- **Such a parameter is there, and has a slot.** -/
theorem lt_of_carriesParameter (h : carriesParameter name desc n = true) :
    n < desc.params.length ∧ n < Store.maxArgSlots := by
  unfold carriesParameter at h
  cases hc : carriedArguments? name desc with
  | none => simp [hc] at h
  | some carried =>
    obtain ⟨rfl, hle⟩ := carriedArguments?_eq hc
    have hlt : n < desc.params.length := by
      by_contra hlt
      simp [hc, hlt] at h
    exact ⟨hlt, Nat.lt_of_lt_of_le hlt hle⟩

/-- No parameter of the bulk copy does: what stands in its descriptor stands for references and
indices. -/
theorem carriedArguments?_of_isArrayCopy {m : MethodRef} (h : isArrayCopy m = true) :
    carriedArguments? m.name m.desc = none := by
  simp only [isArrayCopy, Bool.and_eq_true, decide_eq_true_eq] at h
  obtain ⟨⟨-, hname⟩, hdesc⟩ := h
  cases hc : carriedArguments? m.name m.desc with
  | none => rfl
  | some carried =>
    unfold carriedArguments? at hc
    split at hc
    · cases hc
    · simp only at hc
      split at hc
      · rename_i hany
        simp only [List.any_map, List.any_eq_true, Function.comp_apply, id] at hany
        obtain ⟨t, ht, hcarries⟩ := hany
        have hchars : ∀ c ∈ t.descriptorChars, c ∈ arrayCopyDescriptor.toList := by
          intro c hc
          rw [← hdesc, MethodDesc.descriptor, String.toList_ofList]
          exact List.mem_cons_of_mem _ (List.mem_append_left _ (List.mem_flatMap.mpr ⟨t, ht, hc⟩))
        rw [hname] at hcarries
        cases t with
        | byte => exact absurd (hchars 'B' (by simp [Ty.descriptorChars])) (by decide)
        | char => exact absurd (hchars 'C' (by simp [Ty.descriptorChars])) (by decide)
        | short => exact absurd (hchars 'S' (by simp [Ty.descriptorChars])) (by decide)
        | int => exact absurd hcarries (by decide)
        | _ => cases hcarries
      · cases hc

/-- A clone of an array has no parameters. -/
theorem carriedArguments?_of_clonedArray {m : MethodRef} (h : (clonedArray? m).isSome) :
    carriedArguments? m.name m.desc = none := by
  have hparams : m.desc.params = [] := by
    unfold clonedArray? at h
    split at h
    · rename_i hcond
      simp only [Bool.and_eq_true, List.isEmpty_iff] at hcond
      exact hcond.1.2
    · cases h
  simp [carriedArguments?, hparams]

end Carrier

/-! ## 2. The call and the method -/

/-- A method that goes by the name and the descriptor of a call, and has a receiver if the call has
one. -/
structure MethodRef.Names (target : MethodRef) (m : Method) : Prop where
  name : m.name = target.name
  desc : m.desc = target.desc
  receiver : m.isStatic = !target.hasReceiver

/-- How far below the top the operand for a parameter lies. -/
def MethodRef.depthOf (target : MethodRef) (n : Nat) : Nat := target.desc.params.length - 1 - n

/-- The local of a parameter. -/
def Method.parameterLocal (m : Method) (n : Nat) : Nat := (if m.isStatic then 0 else 1) + n

/-- What is recorded for a parameter of a call, in front of which a frame holds. -/
def Site.recorded? (m : Method) (breakInterning : Bool) (f : Frame) (target : MethodRef) (n : Nat) :
    Option FlowValue :=
  match action? m breakInterning f (.invoke target) with
  | some (.callArguments args) => args[n]?.join
  | _ => none

variable {m caller callee : Method} {breakInterning : Bool} {f first : Frame}
    {target : MethodRef} {n : Nat}

theorem MethodRef.Names.signature (h : target.Names m) : m.signature = target.signature := by
  simp [Method.signature, MethodRef.signature, h.name, h.desc]

theorem MethodRef.Names.paramSlots (h : target.Names m) : m.paramSlots = target.operandCount := by
  unfold Method.paramSlots MethodRef.operandCount
  rw [h.desc, h.receiver]
  cases target.hasReceiver <;> rfl

theorem Site.recordedArguments_getElem? {carried : List Bool} :
    (recordedArguments f carried)[n]?.join =
      if carried[n]?.getD false then some (f.top (carried.length - 1 - n)) else none := by
  unfold recordedArguments
  rw [List.getElem?_mapIdx]
  cases carried[n]? with
  | none => rfl
  | some marked => cases marked <;> rfl

/-- **What is recorded** is the value of the operand, for every parameter that comes with a point.
-/
theorem Site.recorded?_eq (hpass : Carrier.isPassThrough target = false) :
    recorded? caller breakInterning f target n =
      if Carrier.carriesParameter target.name target.desc n then some (f.top (target.depthOf n))
      else none := by
  have hnone : Carrier.carriedArguments? target.name target.desc = none →
      (if Carrier.carriesParameter target.name target.desc n then
        some (f.top (target.depthOf n)) else none) = none :=
        fun hc => by simp [Carrier.carriesParameter, hc]
  have haction : action? caller breakInterning f (.invoke target) =
      if Carrier.isArrayCopy target then if copiesTracked (f.top 4) (f.top 2) then
        some .arrayCopy else none
      else if (Carrier.clonedArray? target).isSome then some .arrayClone
      else (Carrier.carriedArguments? target.name target.desc).map fun carried =>
        .callArguments (recordedArguments f carried) := by
    simp [action?, hpass]
  unfold recorded?
  rw [haction]
  split
  · rename_i args haction
    split at haction
    · split at haction <;> cases haction
    · split at haction
      · cases haction
      · obtain ⟨carried, hc, heq⟩ := Option.map_eq_some_iff.mp haction
        obtain rfl := SiteAction.callArguments.inj heq
        rw [recordedArguments_getElem?, Plan.carriedArguments?_length hc]
        simp only [Carrier.carriesParameter, hc, Option.bind_some, MethodRef.depthOf]
  · rename_i hother
    have hnone : Carrier.carriedArguments? target.name target.desc = none := by
      cases hc : Carrier.carriedArguments? target.name target.desc with
      | none => rfl
      | some carried =>
        refine absurd ?_ (hother (recordedArguments f carried))
        rw [if_neg (fun hcopy => ?_), if_neg (fun hclone => ?_), hc]
        · rfl
        · rw [Carrier.carriedArguments?_of_clonedArray hclone] at hc
          cases hc
        · rw [Carrier.carriedArguments?_of_isArrayCopy hcopy] at hc
          cases hc
    simp [Carrier.carriesParameter, hnone]

/-- Of a call that hands on what it is given nothing is recorded. -/
theorem Site.recorded?_of_isPassThrough (hpass : Carrier.isPassThrough target = true) :
    recorded? caller breakInterning f target n = none := by
  unfold recorded?
  split
  · rename_i args haction
    simp only [action?, hpass, if_true] at haction
    split at haction
    · split at haction <;> cases haction
    · split at haction <;> cases haction
  · rfl

/-- **What is recorded** is the value of an operand, and has a slot. -/
theorem Site.recorded?_eq_some {v : FlowValue}
    (h : recorded? caller breakInterning f target n = some v) :
    n < Store.maxArgSlots ∧ v = f.top (target.depthOf n) := by
  cases hpass : Carrier.isPassThrough target with
  | true =>
    rw [recorded?_of_isPassThrough hpass] at h
    cases h
  | false =>
    rw [recorded?_eq hpass] at h
    split at h
    · rename_i hcarries
      exact ⟨(Carrier.lt_of_carriesParameter hcarries).2, (Option.some.inj h).symm⟩
    · cases h

namespace Frame

theorem parameters_eq (carried : Option (List Bool)) : ∀ (ts : List Ty) (arg n : Nat),
    (parameters carried arg ts)[n]? = ts[n]?.map fun t =>
      if (carried.bind fun flags => flags[arg + n]?).getD false then .argument t (arg + n)
        else .ofType t
  | [], _, _ => rfl
  | t :: ts, arg, 0 => by cases carried <;> rfl
  | t :: ts, arg, n + 1 => by
    simp only [parameters, List.getElem?_cons_succ, parameters_eq carried ts (arg + 1) n,
      Nat.add_assoc, Nat.add_comm 1 n]

/-- **The first frame** has each parameter in its local. -/
theorem entry_parameter (h : entry callee = .ok f) (hn : n < callee.desc.params.length) :
    f.locals[callee.parameterLocal n]? = some (if Carrier.carriesParameter callee.name callee.desc n
      then .argument callee.desc.params[n] n else .ofType callee.desc.params[n]) := by
  unfold entry at h
  split at h
  · cases h
  · obtain rfl := Except.ok.inj h
    have hlocal : ∀ receiver others : List FlowValue,
        receiver.length = (if callee.isStatic then 0 else 1) →
        (receiver ++ parameters (Carrier.carriedArguments? callee.name callee.desc) 0
          callee.desc.params ++ others)[callee.parameterLocal n]? =
        (parameters (Carrier.carriedArguments? callee.name callee.desc) 0
            callee.desc.params)[n]? := by
      intro receiver others hlength
      rw [Method.parameterLocal, ← hlength, List.append_assoc,
        List.getElem?_append_right (Nat.le_add_right _ _), Nat.add_sub_cancel_left,
        List.getElem?_append_left (by rwa [parameters_length])]
    rw [hlocal _ _ (by cases callee.isStatic <;> rfl), parameters_eq, List.getElem?_eq_getElem hn]
    simp only [Option.map_some, Nat.zero_add]
    rfl

/-- Whether a parameter stands in its local as one that comes with a point. -/
theorem entry_argument_iff (h : entry callee = .ok f) :
    (∃ t, f.locals[callee.parameterLocal n]? = some (.argument t n)) ↔
      Carrier.carriesParameter callee.name callee.desc n = true := by
  constructor
  · rintro ⟨t, ht⟩
    obtain ⟨t', n', heq, hlt, -⟩ := entry_getElem? h ht (d := .parameter n) rfl
    obtain rfl : n = n' := (FlowValue.argument.inj heq).2
    rw [entry_parameter h hlt] at ht
    by_contra hnone
    rw [if_neg hnone] at ht
    cases ht
  · intro hcarries
    have hlt := (Carrier.lt_of_carriesParameter hcarries).1
    exact ⟨callee.desc.params[n], by rw [entry_parameter h hlt, if_pos hcarries]⟩

end Frame

/-- **The call and the method agree** on the parameters that come with a point, unless the call
hands on what it is given. -/
theorem MethodRef.Names.recorded_iff (h : target.Names callee)
    (hfirst : Frame.entry callee = .ok first) :
    (Site.recorded? caller breakInterning f target n).isSome ↔
    Carrier.isPassThrough target = false ∧
      ∃ t, first.locals[callee.parameterLocal n]? = some (.argument t n) := by
  cases hpass : Carrier.isPassThrough target with
  | true => simp [Site.recorded?_of_isPassThrough hpass]
  | false =>
    rw [Site.recorded?_eq hpass, Frame.entry_argument_iff hfirst, h.name, h.desc]
    split <;> simp_all

/-- The one call that hands on what it is given. -/
def passThrough : MethodRef := ⟨.static, "java/lang/Byte", "toUnsignedInt", ⟨[.byte], .int⟩⟩

/-- A method of that name. -/
def toUnsigned : Method :=
  ⟨"java/lang/Byte", "toUnsignedInt", ⟨[.byte], .int⟩, true, 1, 1, [.load 0, .ret .int]⟩

/-- **Of a call that hands on what it is given nothing is recorded**, although the method expects a
point. -/
theorem passThrough_unrecorded :
    passThrough.Names toUnsigned ∧ Frame.entry toUnsigned = .ok ⟨[.argument .byte 0], []⟩ ∧
      ¬∀ (caller : Method) (breakInterning : Bool) (f : Frame),
        (Site.recorded? caller breakInterning f passThrough 0).isSome ↔
          ∃ t, [FlowValue.argument .byte 0][toUnsigned.parameterLocal 0]? =
            some (.argument t 0) := by
  refine ⟨⟨rfl, rfl, rfl⟩, by decide +kernel, fun h => ?_⟩
  have hnone : Site.recorded? toUnsigned false ⟨[], [.argument .byte 0]⟩ passThrough 0 = none := by
    decide +kernel
  have hsome := (h toUnsigned false ⟨[], [.argument .byte 0]⟩).mpr ⟨.byte, rfl⟩
  rw [hnone] at hsome
  cases hsome

/-! ## 3. What a call does with its operands -/

/-- The locals of a method that starts begin with what it was given. -/
theorem Routine.locals_getElem? {r : Routine} {args : List Value} {l : Nat} (h : l < args.length) :
    (r.locals args)[l]? = args[l]? := by
  simp [locals, List.getElem?_append_left h]

open Provenance.Action (Wp) in
/-- A call takes its operands, the deepest first. -/
theorem Work.perform_invoke (method : String) (u : RunError)
    (inUse : Thunk (List Value)) (b : Bench) :
    Wp (perform method u inUse (.invoke target))
      (fun t b' => target.operandCount ≤ b.stack.length ∧
        t = .call target (b.stack.take target.operandCount).reverse ∧
        b' = { b with stack := b.stack.drop target.operandCount }) (fun _ _ => True) b := by
  simp only [perform, Action.wp_bind, wp_popMany, Action.wp_pure]
  split
  · trivial
  · rename_i hlt
    exact ⟨Nat.le_of_not_lt hlt, trivial, trivial⟩

/-- **What a call of a loaded method comes to**: it fails, or the method starts in the same world.
-/
theorem Program.step_invoke {p : Program} {r : Routine} (limits : MachineSettings) (s : RunState)
    (hr : p.routine? target.owner target.name target.desc.descriptor = some r) :
    (∃ e w, p.step limits s (.invoke target) = .ended ⟨.error e, w⟩) ∨
    target.operandCount ≤ s.current.stack.length ∧ ∃ callers, p.step limits s (.invoke target) =
      .running ⟨s.world, ⟨r, 0, r.locals (s.current.stack.take target.operandCount).reverse, []⟩,
        callers⟩ := by
  obtain ⟨w, ⟨r', pc, L, S⟩, callers⟩ := s
  rcases hout : (Work.perform r'.key (.stackUnderflow r'.key pc)
    (RunState.inUse ⟨r', pc, L, S⟩ callers) (.invoke target)).outcome ⟨w, L, S⟩ with ⟨outcome, b⟩
  cases outcome with
  | error e => exact .inl ⟨e, b.world, step_of_error (a := ⟨r', pc, L, S⟩) hout⟩
  | ok t =>
    rw [step_of_ok (a := ⟨r', pc, L, S⟩) hout]
    obtain ⟨hle, rfl, rfl⟩ := (Work.perform_invoke _ _ _ _).of_ok hout
    simp only [transfer, enter, hr]
    split
    · exact .inl ⟨_, _, rfl⟩
    · unfold activate
      split
      · exact .inl ⟨_, _, rfl⟩
      · split
        · exact .inr ⟨hle, _, rfl⟩
        · exact .inl ⟨_, _, rfl⟩

/-- **The operand for each parameter** lies as far below the top as is counted for what is recorded,
and the method that is called finds it in the local of the parameter. -/
theorem MethodRef.Names.operand_passed (hnames : target.Names m) {stack : List Value}
    (hle : target.operandCount ≤ stack.length) (hn : n < target.desc.params.length) :
    ∃ x, stack[target.depthOf n]? = some x ∧
      ((Routine.ofMethod m).locals (stack.take target.operandCount).reverse)[m.parameterLocal n]? =
        some x := by
  have hcount : target.operandCount =
      (if m.isStatic then 0 else 1) + target.desc.params.length := by
    rw [← hnames.paramSlots, Method.paramSlots, hnames.desc, Nat.add_comm]
  have hlocal : m.parameterLocal n < target.operandCount := by
    rw [hcount, Method.parameterLocal]
    omega
  have hdepth : target.operandCount - 1 - m.parameterLocal n = target.depthOf n := by
    rw [hcount, Method.parameterLocal, MethodRef.depthOf]
    omega
  have hlt : target.depthOf n < target.operandCount := by omega
  have htake : (stack.take target.operandCount).length = target.operandCount := by
    rw [List.length_take, Nat.min_eq_left hle]
  obtain ⟨x, hx⟩ : ∃ x, stack[target.depthOf n]? = some x :=
    ⟨_, List.getElem?_eq_getElem (Nat.lt_of_lt_of_le hlt hle)⟩
  refine ⟨x, hx, ?_⟩
  rw [Routine.locals_getElem? (by rwa [List.length_reverse, htake]),
    List.getElem?_reverse (by rwa [htake]), htake, hdepth, List.getElem?_take_of_lt hlt, hx]

end Provenance
