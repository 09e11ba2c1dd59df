/-
# The solver stops by itself

Each visit either finds the frame of an instruction that had none, or lowers the cost of the values
in the frames, or leaves frames and merges as they are, and then one instruction less is waiting
(`Solver.visit_moves`).  None of this can go on for ever, so there is a number of visits after which
nothing waits, or an instruction cannot be done (`Solver.run_stops`); and it depends on no more than
the method (`Analysis.ofMethod_stops`).
-/
import Provenance.Proofs.Lowering
import Provenance.Proofs.Orders

namespace Provenance

/-- An error other than that of having been stopped. -/
def WeaveError.Genuine (e : WeaveError) : Prop := ∀ n, e ≠ .noConvergence n

/-! ## 1. Merging the values of slots -/

/-- The values of a frame, from the first local to the top of the stack. -/
def Frame.values (f : Frame) : List FlowValue := f.locals ++ f.stack.reverse

theorem Frame.mem_values {f : Frame} {v : FlowValue} :
    v ∈ f.values ↔ v ∈ f.locals ∨ v ∈ f.stack := by
  simp [Frame.values]

/-- Frames with as many locals are told apart by their values. -/
theorem Frame.values_inj {f g : Frame} (h : f.values = g.values)
    (hlen : f.locals.length = g.locals.length) : f = g := by
  obtain ⟨hl, hs⟩ := List.append_inj h hlen
  cases f
  cases g
  simp_all

namespace Frame

theorem popPush_error {f : Frame} {k count : Nat} {result : List FlowValue} {e : WeaveError}
    (h : f.popPush k count result = .error e) : e.Genuine := by
  unfold popPush at h
  split at h
  · rw [← Except.error.inj h]
    intro n
    simp
  · exact absurd h (by simp)

theorem callResult_error {k : Nat} {target : MethodRef} {args : List FlowValue} {e : WeaveError}
    (h : callResult k target args = .error e) : e.Genuine := by
  unfold callResult at h
  split at h
  · cases args with
    | nil =>
      rw [← Except.error.inj h]
      intro n
      simp
    | cons v vs => cases h
  · repeat' split at h
    all_goals cases h

/-- **An instruction that cannot be done** is refused for what it is, at every visit. -/
theorem after_error {f : Frame} {k : Nat} {i : Insn} {e : WeaveError} (h : f.after k i = .error e) :
    e.Genuine := by
  have hunderflow : (WeaveError.stackUnderflow k).Genuine := fun n => by simp
  have hlocal : ∀ l, (WeaveError.invalidLocal k l f.locals.length).Genuine := fun l n => by simp
  cases i with
  | nop | label | goto | const => cases h
  | hook _ =>
    rw [← Except.error.inj h]
    intro n
    simp
  | load l =>
    simp only [after] at h
    split at h
    · cases h
    · exact Except.error.inj h ▸ hlocal l
  | store l =>
    simp only [after] at h
    split at h
    · exact Except.error.inj h ▸ hunderflow
    · split at h
      · cases h
      · exact Except.error.inj h ▸ hlocal l
  | dup | dupX1 | dup2 | swap | binary | convert =>
    simp only [after] at h
    split at h
    · cases h
    · exact Except.error.inj h ▸ hunderflow
  | invoke target =>
    simp only [after] at h
    split at h
    · exact Except.error.inj h ▸ hunderflow
    · split at h
      · rename_i hresult
        exact Except.error.inj h ▸ callResult_error hresult
      · cases h
  | _ => exact popPush_error h

end Frame

namespace MergeIndex

/-- No merge has lost all its members. -/
def Remains (x x' : MergeIndex) : Prop := ∀ t, x.members t ≠ [] → x'.members t ≠ []

theorem Remains.refl (x : MergeIndex) : x.Remains x := fun _ h => h

theorem Remains.trans {x x' x'' : MergeIndex} (h : x.Remains x') (h' : x'.Remains x'') :
    x.Remains x'' :=
  fun t ht => h' t (h t ht)

end MergeIndex

/-- A value as frames have them, with at most so many moves and conversions. -/
structure Held (m : Method) (x : MergeIndex) (d : Nat) (v : FlowValue) : Prop where
  permitted : Permitted m d v
  backed : x.Backed v

theorem Held.mono {m : Method} {x x' : MergeIndex} {d d' : Nat} {v : FlowValue} (h : Held m x d v)
    (hx : x.Remains x') (hd : d ≤ d') : Held m x' d' v :=
  ⟨h.permitted.mono hd, fun t s hs => hx s (h.backed t s hs)⟩

namespace Solver

variable {m : Method}

/-- What comes out where values meet. -/
structure Met (m : Method) (d : Nat) (x : MergeIndex) (vs : List FlowValue) (x' : MergeIndex)
    (vs' : List FlowValue) : Prop where
  founded : x'.Founded m
  remains : x.Remains x'
  held : ∀ v ∈ vs', Held m x' d v
  lowers : x.Lowers m vs x' vs'

/-- **Merging the values of slots** lowers the cost, or changes nothing. -/
theorem mergeSlots_met {k : Nat} (kind : SlotKind) {d e : Nat} (hk : k < m.insns.length)
    (hd : d ≤ m.insns.length + 1) (he : e ≤ m.insns.length + 1) : ∀ (vs ws : List FlowValue)
    (index : Nat) {x : MergeIndex}, x.Founded m → index + vs.length ≤ m.slotBound →
    (∀ v ∈ vs, Held m x d v) → (∀ w ∈ ws, Held m x e w) →
    Met m d x vs (mergeSlots k kind index x vs ws).2 (mergeSlots k kind index x vs ws).1 := by
  intro vs
  induction vs with
  | nil =>
    intro ws index x hx _ hvs _
    exact ⟨hx, .refl x, hvs, Or.inr ⟨rfl, fun _ => rfl⟩⟩
  | cons v vs ih =>
    intro ws index x hx hindex hvs hws
    cases ws with
    | nil => exact ⟨hx, .refl x, hvs, Or.inr ⟨rfl, fun _ => rfl⟩⟩
    | cons w ws =>
      obtain ⟨hv, hvs⟩ := List.forall_mem_cons.mp hvs
      obtain ⟨hw, hws⟩ := List.forall_mem_cons.mp hws
      simp only [List.length_cons] at hindex
      have hslot : ⟨k, kind, index⟩ ∈ m.slots := Method.mem_slots.mpr ⟨hk, by simp only; omega⟩
      have hstep := x.merge_step ⟨k, kind, index⟩ v w
      have hremains : x.Remains (x.merge ⟨k, kind, index⟩ v w).2 :=
        fun t ht => hstep.members_ne_nil ht
      have hv' := hv.permitted.mono hd
      have hw' := hw.permitted.mono he
      have hrest := ih ws (index + 1) (hx.step hstep hv' hv.backed hw' hw.backed)
        (by omega) (fun u hu => (hvs u hu).mono hremains (Nat.le_refl d))
        (fun u hu => (hws u hu).mono hremains (Nat.le_refl e))
      refine ⟨hrest.founded, hremains.trans hrest.remains,
        List.forall_mem_cons.mpr ⟨?_, hrest.held⟩, ?_⟩
      · exact (Held.mk (hstep.permitted hslot hv.permitted hw.permitted)
          (hstep.backed hv.backed hw.backed)).mono hrest.remains (Nat.le_refl d)
      · have hhere := (hstep.lowers hx hslot hv' hv.backed hw' hw.backed).among [] vs
        have hlater := hrest.lowers.among [(x.merge ⟨k, kind, index⟩ v w).1] []
        simp only [List.nil_append, List.singleton_append, List.append_nil] at hhere hlater
        exact hhere.trans hlater

/-- **Merging a frame into the one that is there** lowers the cost, or changes nothing. -/
theorem mergeFrames_met {k d e : Nat} {x x' : MergeIndex} {known arriving merged : Frame}
    (h : mergeFrames k x known arriving = .ok (merged, x')) (hk : k < m.insns.length)
    (hd : d ≤ m.insns.length) (he : e ≤ m.insns.length + 1) (hx : x.Founded m)
    (hlocals : known.locals.length = m.maxLocals) (hstack : known.stack.length ≤ 2 * d)
    (hknown : ∀ v ∈ known.values, Held m x d v) (harriving : ∀ v ∈ arriving.values, Held m x e v) :
    Met m d x known.values x' merged.values := by
  unfold mergeFrames at h
  split at h
  · exact absurd h (by simp)
  · simp only [Except.ok.injEq, Prod.mk.injEq] at h
    obtain ⟨rfl, rfl⟩ := h
    simp only [Frame.mem_values] at hknown harriving
    have hl := mergeSlots_met .variable hk (Nat.le_succ_of_le hd) he known.locals
      arriving.locals 0 hx (by unfold Method.slotBound; omega) (fun v hv => hknown v (Or.inl hv))
      (fun v hv => harriving v (Or.inl hv))
    have hs := mergeSlots_met .operand hk (Nat.le_succ_of_le hd) he known.stack.reverse
      arriving.stack.reverse 0 hl.founded
      (by unfold Method.slotBound; rw [List.length_reverse]; omega)
      (fun v hv => (hknown v (Or.inr (List.mem_reverse.mp hv))).mono hl.remains (Nat.le_refl d))
      (fun v hv => (harriving v (Or.inr (List.mem_reverse.mp hv))).mono hl.remains (Nat.le_refl e))
    refine ⟨hs.founded, hl.remains.trans hs.remains, fun v hv => ?_, ?_⟩
    · simp only [Frame.values, List.reverse_reverse, List.mem_append] at hv
      rcases hv with hv | hv
      · exact (hl.held v hv).mono hs.remains (Nat.le_refl d)
      · exact hs.held v hv
    · have hfirst := hl.lowers.among [] known.stack.reverse
      have hthen := hs.lowers.among (mergeSlots k .variable 0 x known.locals arriving.locals).1 []
      simp only [List.nil_append, List.append_nil] at hfirst hthen
      simpa only [Frame.values, List.reverse_reverse] using hfirst.trans hthen

/-! ## 2. What bounds the solver -/

/-- The number of instructions whose frame has been found. -/
def seen (s : Solver) : Nat := s.frames.countP Option.isSome

/-- The values of a frame, if there is one. -/
def valuesOf (f : Option Frame) : List FlowValue := (f.map Frame.values).getD []

/-- The cost of all that has been found. -/
noncomputable def cost (m : Method) (s : Solver) : Cost :=
  s.merges.cost m (s.frames.flatMap valuesOf)

/-- How many frames have been found once one of them is set. -/
def seenWith (s : Solver) (k : Nat) : Nat := if (s.frame? k).isSome then s.seen else s.seen + 1

theorem seen_le_seenWith (s : Solver) (k : Nat) : s.seen ≤ s.seenWith k := by
  unfold seenWith
  split <;> omega

theorem countP_set {s : Solver} {k : Nat} (hk : k < s.frames.length) (f : Frame) :
    (s.frames.set k (some f)).countP Option.isSome = s.seenWith k := by
  have hget : s.frame? k = s.frames[k] := by simp [frame?, hk]
  unfold seenWith seen
  rw [List.countP_set hk, hget]
  cases hf : s.frames[k] with
  | none => simp
  | some known =>
    have hpos : 0 < s.frames.countP Option.isSome :=
      List.countP_pos_iff.mpr ⟨_, List.getElem_mem hk, by rw [hf]; rfl⟩
    simp only [Option.isSome_some, if_true]
    omega

/-- The values of one frame stand among the others. -/
theorem values_among {frames : List (Option Frame)} {k : Nat} {f : Option Frame}
    (hf : frames[k]? = some f) : frames.flatMap valuesOf =
      (frames.take k).flatMap valuesOf ++ valuesOf f ++ (frames.drop (k + 1)).flatMap valuesOf := by
  obtain ⟨hk, rfl⟩ := List.getElem?_eq_some_iff.mp hf
  have hsplit : (frames.take k ++ frames.drop k).flatMap valuesOf =
      (frames.take k).flatMap valuesOf ++ (frames.drop k).flatMap valuesOf := List.flatMap_append
  rw [List.take_append_drop, List.drop_eq_getElem_cons hk, List.flatMap_cons] at hsplit
  rw [hsplit, List.append_assoc]

/-- Values of one frame that cost less make all of them cost less. -/
theorem lower_set {frames : List (Option Frame)} {x x' : MergeIndex} {k : Nat} {known f : Frame}
    (hk : frames[k]? = some (some known))
    (h : ∀ rest, (x'.cost m (f.values ++ rest)).Lower (x.cost m (known.values ++ rest))) :
    (x'.cost m ((frames.set k (some f)).flatMap valuesOf)).Lower
      (x.cost m (frames.flatMap valuesOf)) := by
  have hset : (frames.set k (some f))[k]? = some (some f) :=
    List.getElem?_set_self (List.getElem?_eq_some_iff.mp hk).1
  have hthere := values_among hset
  rw [List.take_set_of_le (Nat.le_refl k), List.drop_set_of_lt (Nat.lt_succ_self k)] at hthere
  rw [hthere, values_among hk, MergeIndex.cost_among, MergeIndex.cost_among]
  exact h _

/-- What holds of frames and merges between two visits. -/
structure Bounded (m : Method) (s : Solver) : Prop where
  size : s.frames.length = m.insns.length
  locals : ∀ k f, s.frame? k = some f → f.locals.length = m.maxLocals
  /-- No stack is higher than two operands for each instruction that was visited. -/
  heights : ∀ k f, s.frame? k = some f → f.stack.length ≤ 2 * s.seen
  values : ∀ k f, s.frame? k = some f → ∀ v ∈ f.values, Held m s.merges s.seen v
  merges : s.merges.Founded m

theorem Bounded.seen_le {s : Solver} (h : Bounded m s) : s.seen ≤ m.insns.length :=
  h.size ▸ List.countP_le_length

/-- The state in which one frame is set. -/
theorem Bounded.set {s : Solver} (h : Bounded m s) {k : Nat} {f : Frame} {merges : MergeIndex}
    {waiting : List Nat} (hk : k < s.frames.length) (hremains : s.merges.Remains merges)
    (hmerges : merges.Founded m) (hlocals : f.locals.length = m.maxLocals)
    (hheight : f.stack.length ≤ 2 * s.seenWith k)
    (hvalues : ∀ v ∈ f.values, Held m merges (s.seenWith k) v) :
    Bounded m { s with frames := s.frames.set k (some f), merges, waiting } := by
  have hmore := s.seen_le_seenWith k
  have hseen : (s.frames.set k (some f)).countP Option.isSome = s.seenWith k := countP_set hk f
  refine ⟨by simpa using h.size, fun j g hj => ?_, fun j g hj => ?_, fun j g hj => ?_, hmerges⟩
  all_goals
    have hj' : (if j = k then some f else s.frame? j) = some g := (frame?_set hk f j).symm.trans hj
    split at hj'
  · exact Option.some.inj hj' ▸ hlocals
  · exact h.locals j g hj'
  · unfold seen
    rw [hseen]
    exact Option.some.inj hj' ▸ hheight
  · unfold seen
    rw [hseen]
    exact (h.heights j g hj').trans (Nat.mul_le_mul_left 2 hmore)
  · unfold seen
    rw [hseen]
    exact Option.some.inj hj' ▸ hvalues
  · unfold seen
    rw [hseen]
    exact fun v hv => (h.values j g hj' v hv).mono hremains hmore

/-- What holds of a frame that is carried over edges, once so many frames had been found. -/
structure Carried (m : Method) (d : Nat) (s : Solver) (out : Frame) : Prop where
  before : d ≤ s.seen
  locals : out.locals.length = m.maxLocals
  stack : out.stack.length ≤ 2 * (d + 1)
  values : ∀ v ∈ out.values, Held m s.merges (d + 1) v

/-- One frame more is known, or all that is known costs less. -/
def Progress (m : Method) (s s' : Solver) : Prop :=
  s.seen < s'.seen ∨ s'.seen = s.seen ∧ (s'.cost m).Lower (s.cost m)

/-- How the solver moves while frames are carried over edges. -/
structure Moves (m : Method) (s s' : Solver) : Prop where
  bounded : Bounded m s'
  seen : s.seen ≤ s'.seen
  remains : s.merges.Remains s'.merges
  change : Progress m s s' ∨ s'.frames = s.frames ∧ s'.waiting = s.waiting ∧
    ∀ t, s'.merges.members t = s.merges.members t

theorem cost_congr {s s' : Solver} (hf : s'.frames = s.frames)
    (hm : ∀ t, s'.merges.members t = s.merges.members t) : s'.cost m = s.cost m := by
  unfold cost
  rw [hf, MergeIndex.cost_congr hm]

theorem Moves.trans {s s' s'' : Solver} (h : Moves m s s') (h' : Moves m s' s'') :
    Moves m s s'' := by
  refine ⟨h'.bounded, h.seen.trans h'.seen, h.remains.trans h'.remains, ?_⟩
  have hseen := h.seen
  have hseen' := h'.seen
  rcases h.change with hp | ⟨hf, hw, hm⟩
  · refine Or.inl ?_
    rcases h'.change with hp' | ⟨hf', -, hm'⟩
    · rcases hp with hlt | ⟨heq, hlow⟩
      · exact Or.inl (by omega)
      · rcases hp' with hlt' | ⟨heq', hlow'⟩
        · exact Or.inl (by omega)
        · exact Or.inr ⟨heq'.trans heq, hlow'.trans hlow⟩
    · have hsame : s''.seen = s'.seen := by unfold Solver.seen; rw [hf']
      unfold Progress at hp ⊢
      rwa [hsame, cost_congr hf' hm']
  · rcases h'.change with hp' | ⟨hf', hw', hm'⟩
    · have hsame : s'.seen = s.seen := by unfold Solver.seen; rw [hf]
      refine Or.inl ?_
      unfold Progress at hp' ⊢
      rwa [← hsame, ← cost_congr hf hm]
    · exact Or.inr ⟨hf'.trans hf, hw'.trans hw, fun t => (hm' t).trans (hm t)⟩

theorem Carried.moves {d : Nat} {s s' : Solver} {out : Frame} (h : Carried m d s out)
    (hs : Moves m s s') : Carried m d s' out :=
  ⟨h.before.trans hs.seen, h.locals, h.stack,
    fun v hv => (h.values v hv).mono hs.remains (Nat.le_refl _)⟩

/-! ## 3. Carrying a frame over an edge -/

theorem arrive_moves {d : Nat} {s s' : Solver} {out : Frame} {target : Nat}
    (h : s.arrive out target = .ok s') (hs : Bounded m s) (hout : Carried m d s out)
    (ht : target < m.insns.length) : Moves m s s' := by
  have hlt : target < s.frames.length := hs.size ▸ ht
  have hmore := s.seen_le_seenWith target
  have hbefore := hout.before
  unfold arrive at h
  cases hk : s.frame? target with
  | none =>
    have hk' : (s.frames[target]?).join = none := hk
    have hnew : s.seenWith target = s.seen + 1 := by simp [seenWith, hk]
    have hseen : (s.frames.set target (some out)).countP Option.isSome = s.seen + 1 :=
      (countP_set hlt out).trans hnew
    have hheight := hout.stack
    simp only [hk', Except.ok.injEq] at h
    subst h
    refine ⟨hs.set hlt (.refl _) hs.merges hout.locals (by omega)
      (fun v hv => (hout.values v hv).mono (.refl _) (by omega)), ?_, .refl _, Or.inl (Or.inl ?_)⟩
    · exact (Nat.le_succ _).trans (Nat.le_of_eq hseen.symm)
    · exact (Nat.lt_succ_self _).trans_eq hseen.symm
  | some known =>
    have hk' : (s.frames[target]?).join = some known := hk
    have hsame : s.seenWith target = s.seen := by simp [seenWith, hk]
    have hget : s.frames[target]? = some (some known) := by
      rw [List.getElem?_eq_getElem hlt] at hk' ⊢
      exact congrArg some hk'
    simp only [hk'] at h
    cases hm : mergeFrames target s.merges known out with
    | error e => simp [hm] at h
    | ok r =>
      obtain ⟨merged, x'⟩ := r
      have hknown := hs.locals target known hk
      have hmet := mergeFrames_met hm ht hs.seen_le (Nat.succ_le_succ (hbefore.trans hs.seen_le))
        hs.merges hknown (hs.heights target known hk) (hs.values target known hk) hout.values
      have hover := (mergeFrames_spec hm (hknown.trans hout.locals.symm)).overKnown
      have hlocals := hover.locals.length_eq
      -- the values are the same, or all of them cost less
      have hlow : merged = known ∧ (∀ t, x'.members t = s.merges.members t) ∨
          (x'.cost m ((s.frames.set target (some merged)).flatMap valuesOf)).Lower (s.cost m) := by
        rcases hmet.lowers with hlow | ⟨heq, hmembers⟩
        · exact Or.inr (lower_set hget hlow)
        · exact Or.inl ⟨Frame.values_inj heq hlocals, hmembers⟩
      simp only [hm] at h
      split at h
      · rename_i heq
        simp only [Except.ok.injEq] at h
        subst h
        refine ⟨⟨hs.size, hs.locals, hs.heights,
          fun k f hf v hv => (hs.values k f hf v hv).mono hmet.remains (Nat.le_refl _),
          hmet.founded⟩, Nat.le_refl _, hmet.remains, ?_⟩
        rcases hlow with ⟨-, hmembers⟩ | hlow
        · exact Or.inr ⟨rfl, rfl, hmembers⟩
        · have hset : s.frames.set target (some merged) = s.frames := by
            rw [heq, ← List.getElem?_eq_some_iff.mp hget |>.2, List.set_getElem_self]
          exact Or.inl (Or.inr ⟨rfl, by rwa [hset] at hlow⟩)
      · rename_i hne
        simp only [Except.ok.injEq] at h
        subst h
        have hseen : (s.frames.set target (some merged)).countP Option.isSome = s.seen :=
          (countP_set hlt merged).trans hsame
        refine ⟨hs.set hlt hmet.remains hmet.founded (hlocals.trans hknown) ?_ ?_,
          Nat.le_of_eq hseen.symm, hmet.remains, Or.inl (Or.inr ⟨hseen, ?_⟩)⟩
        · rw [hsame, hover.stack.length_eq]
          exact hs.heights target known hk
        · rw [hsame]
          exact hmet.held
        · exact hlow.resolve_left fun hsame => hne hsame.1

theorem arriveAll_moves {d : Nat} {out : Frame} : ∀ {targets : List Nat} {s s' : Solver},
    s.arriveAll out targets = .ok s' → Bounded m s → Carried m d s out →
    (∀ t ∈ targets, t < m.insns.length) → Moves m s s' := by
  intro targets
  induction targets with
  | nil =>
    intro s s' h hs _ _
    simp only [arriveAll, Except.ok.injEq] at h
    subst h
    exact ⟨hs, Nat.le_refl _, .refl _, Or.inr ⟨rfl, rfl, fun _ => rfl⟩⟩
  | cons target rest ih =>
    intro s s' h hs hout hlt
    obtain ⟨ht, hrest⟩ := List.forall_mem_cons.mp hlt
    unfold arriveAll at h
    cases ha : s.arrive out target with
    | error e => simp [ha] at h
    | ok s₁ =>
      simp only [ha] at h
      have hmoves := arrive_moves ha hs hout ht
      exact hmoves.trans (ih h hmoves.bounded (hout.moves hmoves) hrest)

/-! ## 4. Visits -/

theorem backed_retyped {x : MergeIndex} {v : FlowValue} (h : x.Backed v) (t : Ty) :
    x.Backed (v.retyped t) := by
  induction v with
  | copy k v ih => exact ih h
  | merged t' s =>
    intro t'' s' hs
    simp only [FlowValue.retyped, FlowValue.base, FlowValue.merged.injEq] at hs
    exact hs.2 ▸ h t' s rfl
  | cast t' k v _ => exact h
  | _ => intro t' s hs; simp [FlowValue.retyped, FlowValue.base, FlowValue.ofType] at hs

/-- No instruction makes a merge. -/
theorem after_backed {x : MergeIndex} {k : Nat} {i : Insn} {f g : Frame} (h : f.after k i = .ok g)
    (hf : f.All x.Backed) : g.All x.Backed := by
  refine Frame.after_leads h ?_ hf
  exact
    { kept := fun v hv => hv
      moved := fun v hv t s hs => hv t s (by cases v <;> exact hs)
      retyped := fun t v _ hv => backed_retyped hv t
      cast := fun _ v _ _ hv => hv
      unknown := fun t t' s hs => by simp [FlowValue.base] at hs
      fresh := fun v hv t s hs => by cases hv <;> simp [FlowValue.base] at hs }

theorem arrive_error {s : Solver} {out : Frame} {target : Nat} {e : WeaveError}
    (h : s.arrive out target = .error e) : e.Genuine := by
  unfold arrive at h
  split at h
  · exact absurd h (by simp)
  · rename_i known _
    cases hm : mergeFrames target s.merges known out with
    | error e' =>
      simp only [hm, Except.error.injEq] at h
      unfold mergeFrames at hm
      split at hm
      · rw [← h, ← Except.error.inj hm]
        intro n
        simp
      · exact absurd hm (by simp)
    | ok r =>
      simp only [hm] at h
      split at h <;> exact absurd h (by simp)

theorem arriveAll_error {out : Frame} {e : WeaveError} : ∀ {targets : List Nat} {s : Solver},
    s.arriveAll out targets = .error e → e.Genuine := by
  intro targets
  induction targets with
  | nil => intro s h; simp [arriveAll] at h
  | cons target rest ih =>
    intro s h
    unfold arriveAll at h
    cases ha : s.arrive out target with
    | error e' =>
      simp only [ha, Except.error.injEq] at h
      exact h ▸ arrive_error ha
    | ok s₁ =>
      simp only [ha] at h
      exact ih h

/-- **A visit** makes progress, or leaves frames and merges as they are and nothing more waiting. -/
theorem visit_moves {g : FlowGraph} {s s' : Solver} {k : Nat} (h : visit m g s k = .ok s')
    (hgraph : g.Describes m) (hs : Bounded m s) : Moves m s s' := by
  unfold visit at h
  simp only at h
  split at h
  · rename_i i frame hi hframe
    cases hafter : frame.after k i with
    | error e => simp [hafter] at h
    | ok out =>
      simp only [hafter] at h
      have hheld := hs.values k frame hframe
      simp only [Frame.mem_values] at hheld
      have hpermitted := Frame.after_permitted hafter hi
        ⟨fun v hv => (hheld v (Or.inl hv)).permitted, fun v hv => (hheld v (Or.inr hv)).permitted⟩
      have hbacked := after_backed hafter
        ⟨fun v hv => (hheld v (Or.inl hv)).backed, fun v hv => (hheld v (Or.inr hv)).backed⟩
      have hstack := Frame.after_stack_le hafter
      have hheight := hs.heights k frame hframe
      have hout : Carried m s.seen s out :=
        { before := Nat.le_refl _
          locals := (Frame.after_locals_length hafter).trans (hs.locals k frame hframe)
          stack := by omega
          values := fun v hv => by
            rcases Frame.mem_values.mp hv with hv | hv
            · exact ⟨hpermitted.locals v hv, hbacked.locals v hv⟩
            · exact ⟨hpermitted.stack v hv, hbacked.stack v hv⟩ }
      have hmoves := arriveAll_moves h
        (⟨hs.size, hs.locals, hs.heights, hs.values, hs.merges⟩ : Bounded m { s with
          iterations := s.iterations + 1
          maxStack :=
            max (max s.maxStack frame.stack.length) (frame.stack.length - i.pops + i.pushes) })
        ⟨hout.before, hout.locals, hout.stack, hout.values⟩ fun t ht => hgraph.next_lt ht
      exact ⟨hmoves.bounded, hmoves.seen, hmoves.remains, hmoves.change⟩
  · simp only [Except.ok.injEq] at h
    subst h
    exact ⟨⟨hs.size, hs.locals, hs.heights, hs.values, hs.merges⟩, Nat.le_refl _, .refl _,
      Or.inr ⟨rfl, rfl, fun _ => rfl⟩⟩

/-- A visit fails only where an instruction cannot be done or stacks of different heights meet. -/
theorem visit_error {g : FlowGraph} {s : Solver} {k : Nat} {e : WeaveError}
    (h : visit m g s k = .error e) : e.Genuine := by
  unfold visit at h
  simp only at h
  split at h
  · rename_i i frame _ _
    cases hafter : frame.after k i with
    | error e' =>
      simp only [hafter, Except.error.injEq] at h
      exact h ▸ Frame.after_error hafter
    | ok out =>
      simp only [hafter] at h
      exact arriveAll_error h
  · exact absurd h (by simp)

theorem arrive_iterations {s s' : Solver} {out : Frame} {target : Nat}
    (h : s.arrive out target = .ok s') : s'.iterations = s.iterations := by
  unfold arrive at h
  split at h
  · cases h
    rfl
  · split at h
    · cases h
    · split at h <;> cases h <;> rfl

theorem arriveAll_iterations {out : Frame} : ∀ {targets : List Nat} {s s' : Solver},
    s.arriveAll out targets = .ok s' → s'.iterations = s.iterations := by
  intro targets
  induction targets with
  | nil =>
    intro s s' h
    cases h
    rfl
  | cons target rest ih =>
    intro s s' h
    unfold arriveAll at h
    cases ha : s.arrive out target with
    | error e => simp [ha] at h
    | ok s₁ =>
      simp only [ha] at h
      exact (ih h).trans (arrive_iterations ha)

theorem visit_iterations {g : FlowGraph} {s s' : Solver} {k : Nat} (h : visit m g s k = .ok s') :
    s'.iterations = s.iterations + 1 := by
  unfold visit at h
  simp only at h
  split at h
  · split at h
    · cases h
    · exact arriveAll_iterations h
  · cases h
    rfl

/-! ## 5. Runs -/

theorem take?_length {order : SolverOrder} {waiting rest : List Nat} {k : Nat}
    (h : take? order waiting = some (k, rest)) : rest.length < waiting.length := by
  unfold take? at h
  cases order with
  | fifo =>
    cases waiting with
    | nil => simp at h
    | cons j waiting =>
      simp only [Option.some.injEq, Prod.mk.injEq] at h
      simp [← h.2]
  | lifo =>
    cases hl : waiting.getLast? with
    | none => simp [hl] at h
    | some j =>
      simp only [hl, Option.some.injEq, Prod.mk.injEq] at h
      have hne : waiting ≠ [] := by
        rintro rfl
        simp at hl
      have := List.length_pos_iff.mpr hne
      rw [← h.2, List.length_dropLast]
      omega

end Solver

theorem Cost.lower_wf : WellFounded Cost.Lower := by
  have hlex : WellFounded (Prod.Lex (· < ·) (Prod.Lex (· < ·) (Prod.Lex (· < ·) (· < ·))) :
      Nat × Nat × Nat × Nat → Nat × Nat × Nat × Nat → Prop) :=
    WellFounded.prod_lex Nat.lt_wfRel.wf (WellFounded.prod_lex Nat.lt_wfRel.wf
      (WellFounded.prod_lex Nat.lt_wfRel.wf Nat.lt_wfRel.wf))
  refine Subrelation.wf ?_
    (InvImage.wf (fun c : Cost => (c.grades, c.room, c.weight, c.types)) hlex)
  intro a b h
  simp only [InvImage, Prod.lex_iff]
  exact h

namespace Solver

/-- Less is left to do: fewer instructions without a frame, or a lower cost, or fewer waiting. -/
def Less (m : Method) : Solver → Solver → Prop :=
  InvImage (Prod.Lex (· < ·) (Prod.Lex Cost.Lower (· < ·)))
    fun s => (m.insns.length - s.seen, s.cost m, s.waiting.length)

theorem less_wf (m : Method) : WellFounded (Less m) :=
  InvImage.wf _ (WellFounded.prod_lex Nat.lt_wfRel.wf
    (WellFounded.prod_lex Cost.lower_wf Nat.lt_wfRel.wf))

/-- What is taken and visited leaves less to do. -/
theorem Moves.less {s s' : Solver} {waiting : List Nat} (h : Moves m { s with waiting } s')
    (hlt : waiting.length < s.waiting.length) : Less m s' s := by
  unfold Less InvImage
  rw [Prod.lex_iff, Prod.lex_iff]
  simp only
  have hbound := h.bounded.seen_le
  rcases h.change with (hseen | ⟨hseen, hlow⟩) | ⟨hframes, hwaiting, hmembers⟩
  · have hseen : s.seen < s'.seen := hseen
    exact Or.inl (by omega)
  · have hseen : s'.seen = s.seen := hseen
    exact Or.inr ⟨by rw [hseen], Or.inl hlow⟩
  · have hseen : s'.seen = s.seen := congrArg (List.countP Option.isSome) hframes
    exact Or.inr ⟨by rw [hseen], Or.inr ⟨cost_congr hframes hmembers, hwaiting ▸ hlt⟩⟩

/-- **Some number of visits is enough**: the run then ends with nothing waiting, or with an error
that is none of not having ended; and more visits change nothing. -/
theorem run_stops {g : FlowGraph} (hgraph : g.Describes m) (order : SolverOrder) (s : Solver)
    (hs : Bounded m s) : ∃ N r, (∀ e, r = .error e → e.Genuine) ∧
      ∀ limit fuel, N ≤ fuel → run m g order limit fuel s = r := by
  induction s using (less_wf m).induction with
  | _ s ih =>
  cases ht : take? order s.waiting with
  | none =>
    refine ⟨0, .ok s, by simp, fun limit fuel _ => ?_⟩
    cases fuel with
    | zero => simp [run, take?_eq_none ht]
    | succ fuel => simp [run, ht]
  | some next =>
    obtain ⟨k, waiting⟩ := next
    cases hv : visit m g { s with waiting } k with
    | error e =>
      refine ⟨1, .error e, fun e' he => Except.error.inj he ▸ visit_error hv,
        fun limit fuel hfuel => ?_⟩
      obtain ⟨fuel, rfl⟩ := Nat.exists_eq_add_of_le' hfuel
      simp [run, ht, hv]
    | ok s₁ =>
      have hmoves := visit_moves hv hgraph ⟨hs.size, hs.locals, hs.heights, hs.values, hs.merges⟩
      obtain ⟨N, r, hr, hrun⟩ := ih s₁ (hmoves.less (take?_length ht)) hmoves.bounded
      refine ⟨N + 1, r, hr, fun limit fuel hfuel => ?_⟩
      obtain ⟨fuel, rfl⟩ := Nat.exists_eq_succ_of_ne_zero (n := fuel) (by omega)
      simp only [run, ht, hv]
      exact hrun limit fuel (by omega)

/-- A run makes no more visits than it may. -/
theorem run_iterations {g : FlowGraph} {order : SolverOrder} {limit : Nat} : ∀ {fuel : Nat}
    {s s' : Solver}, run m g order limit fuel s = .ok s' → s'.iterations ≤ s.iterations + fuel := by
  intro fuel
  induction fuel with
  | zero =>
    intro s s' h
    unfold run at h
    split at h
    · cases h
      exact Nat.le_refl _
    · cases h
  | succ fuel ih =>
    intro s s' h
    unfold run at h
    split at h
    · cases h
      omega
    · rename_i k waiting _
      cases hv : visit m g { s with waiting } k with
      | error e => simp [hv] at h
      | ok s₁ =>
        simp only [hv] at h
        have hmore := ih h
        have hone := visit_iterations hv
        simp only at hone
        omega

end Solver

/-! ## 6. The analysis of a method -/

theorem FlowGraph.edgesFrom_error {m : Method} {e : WeaveError} : ∀ {is : List Insn} {k : Nat},
    edgesFrom m k is = .error e → e.Genuine := by
  intro is
  induction is with
  | nil => intro k h; cases h
  | cons i is ih =>
    intro k h
    simp only [edgesFrom] at h
    split at h
    · rename_i hhere
      unfold successorsOf at hhere
      simp only at hhere
      split at hhere
      · cases hhere
      · split at hhere
        · rw [← Except.error.inj h, ← Except.error.inj hhere]
          intro n
          simp
        · cases hhere
    · split at h
      · rename_i hlater
        cases h
        exact ih hlater
      · cases h

/-- A method without a graph is refused for what is wrong with its body. -/
theorem FlowGraph.ofMethod_error {m : Method} {e : WeaveError} (h : ofMethod m = .error e) :
    e.Genuine := by
  have hend : ∀ k, (WeaveError.fallsOffEnd k).Genuine := fun k n => by simp
  unfold ofMethod at h
  split at h
  · exact Except.error.inj h ▸ hend 0
  · split at h
    · rw [← Except.error.inj h]
      intro n
      simp
    · split at h
      · rename_i hedges
        exact Except.error.inj h ▸ edgesFrom_error hedges
      · simp only at h
        split at h
        · exact Except.error.inj h ▸ hend _
        · cases h

theorem Frame.entry_error {m : Method} {e : WeaveError} (h : entry m = .error e) : e.Genuine := by
  unfold entry at h
  split at h
  · rw [← Except.error.inj h]
    intro n
    simp
  · cases h

/-- The bounds hold at the start. -/
theorem Solver.start_bounded {m : Method} {entry : Frame} (hpos : 0 < m.insns.length)
    (h : Frame.entry m = .ok entry) : Bounded m (start m entry) := by
  have hnone : Bounded m ⟨List.replicate m.insns.length none, .empty, [], 0, 0⟩ := by
    have hframe : ∀ k f, ¬ frame? ⟨List.replicate m.insns.length none, .empty, [], 0, 0⟩ k =
        some f := by
      intro k f hf
      unfold frame? at hf
      rw [List.getElem?_replicate] at hf
      split at hf <;> cases hf
    have hmembers : ∀ t v, ¬ v ∈ MergeIndex.empty.members t := fun t v hv => by
      simp [MergeIndex.members, MergeIndex.empty] at hv
    exact
      { size := List.length_replicate
        locals := fun k f hf => absurd hf (hframe k f)
        heights := fun k f hf => absurd hf (hframe k f)
        values := fun k f hf => absurd hf (hframe k f)
        merges :=
          { ranked := ⟨fun _ => 0, fun s t hst => hst.elim fun ty hv => absurd hv (hmembers t _)⟩
            possible := fun t v hv => absurd hv (hmembers t v)
            backed := fun t v hv => absurd hv (hmembers t v) } }
  have hpermitted := Frame.entry_permitted h
  have hstack := Frame.entry_stack h
  refine hnone.set (by simpa using hpos) (.refl _) hnone.merges (Frame.entry_locals_length h)
    (by simp [hstack]) fun v hv => ?_
  have hlocal : v ∈ entry.locals := by simpa [Frame.values, hstack] using hv
  refine ⟨(hpermitted.locals v hlocal).mono (Nat.zero_le _), fun t s hs => ?_⟩
  rcases Frame.mem_entry h hlocal with ⟨t', n, rfl⟩ | ⟨t', rfl⟩ <;> simp [FlowValue.base] at hs

namespace Analysis

/-- With so many visits or more, the solver stops by itself in the given order. -/
theorem ofMethod_stops_in (order : SolverOrder) (m : Method) :
    ∃ N r, (∀ e, r = .error e → e.Genuine) ∧ ∀ limit, N ≤ limit → ofMethod order limit m = r := by
  unfold ofMethod
  cases hg : FlowGraph.ofMethod m with
  | error e =>
    exact ⟨0, .error e, fun e' he => Except.error.inj he ▸ FlowGraph.ofMethod_error hg,
      fun _ _ => rfl⟩
  | ok graph =>
    cases hentry : Frame.entry m with
    | error e =>
      exact ⟨0, .error e, fun e' he => Except.error.inj he ▸ Frame.entry_error hentry,
        fun _ _ => rfl⟩
    | ok entry =>
      have hgraph := FlowGraph.ofMethod_describes hg
      obtain ⟨N, r, hr, hrun⟩ := Solver.run_stops hgraph order (Solver.start m entry)
        (Solver.start_bounded (List.length_pos_iff.mpr hgraph.nonempty) hentry)
      cases r with
      | error e =>
        refine ⟨N, .error e, fun e' he => Except.error.inj he ▸ hr e rfl, fun limit hlimit => ?_⟩
        simp only [hrun limit limit hlimit]
      | ok s =>
        refine ⟨N, .ok ⟨graph, s.frames, s.merges, s.maxStack, s.iterations⟩, by simp,
          fun limit hlimit => ?_⟩
        simp only [hrun limit limit hlimit]

/-- An analysis makes no more visits than it may. -/
theorem ofMethod_iterations {order : SolverOrder} {limit : Nat} {m : Method} {a : Analysis}
    (h : ofMethod order limit m = .ok a) : a.iterations ≤ limit := by
  unfold ofMethod at h
  split at h
  · cases h
  · split at h
    · cases h
    · split at h
      · cases h
      · rename_i s hrun
        cases h
        have hmany := Solver.run_iterations hrun
        simp only [Solver.start, Nat.zero_add] at hmany
        exact hmany

/-- **The solver stops by itself.**  For every method there is a number of visits that is enough in
either order: if so many are allowed, the analysis is found within that number, or the method is
refused for something that is wrong with it; and nothing changes if more of them are allowed. -/
theorem ofMethod_stops (m : Method) : ∃ N, ∀ (order : SolverOrder) (limit : Nat), N ≤ limit →
    ofMethod order limit m = ofMethod order N m ∧
      ((∃ a, ofMethod order limit m = .ok a ∧ a.iterations ≤ N) ∨
        ∃ e, ofMethod order limit m = .error e ∧ e.Genuine) := by
  obtain ⟨M, r, hr, hfirst⟩ := ofMethod_stops_in .fifo m
  obtain ⟨L, r', hr', hlast⟩ := ofMethod_stops_in .lifo m
  have hsame : ∀ order, ∃ r, (∀ e, r = .error e → e.Genuine) ∧
      ∀ limit, max M L ≤ limit → ofMethod order limit m = r := by
    intro order
    cases order with
    | fifo => exact ⟨r, hr, fun limit hlimit => hfirst limit (by omega)⟩
    | lifo => exact ⟨r', hr', fun limit hlimit => hlast limit (by omega)⟩
  refine ⟨max M L, fun order limit hlimit => ?_⟩
  obtain ⟨r, hr, hall⟩ := hsame order
  have hat := hall (max M L) (Nat.le_refl _)
  refine ⟨(hall limit hlimit).trans hat.symm, ?_⟩
  rw [hall limit hlimit]
  cases r with
  | error e => exact Or.inr ⟨e, rfl, hr e rfl⟩
  | ok a => exact Or.inl ⟨a, rfl, ofMethod_iterations hat⟩

/-- Both orders find the frames of a loop in which merges are moved about, within one number of
visits. -/
theorem movingLoop_stops : ∃ N, ∀ order, ∃ a, ofMethod order N movingLoop = .ok a ∧
    a.iterations ≤ N := by
  obtain ⟨N, hN⟩ := ofMethod_stops movingLoop
  refine ⟨N, fun order => ?_⟩
  obtain ⟨-, ⟨a, ha, hle⟩ | ⟨e, he, hgenuine⟩⟩ := hN order N (Nat.le_refl N)
  · exact ⟨a, ha, hle⟩
  · -- the loop is in order, so it can only be refused for not having ended
    cases h : ofMethod order defaultLimit movingLoop with
    | error e' =>
      have hok := movingLoop_isOk order
      rw [h] at hok
      cases hok
    | ok a' =>
      rcases (ofMethod_sound h).other (ofMethod_graph h) order N with ⟨a, ha, -⟩ | hstopped
      · rw [he] at ha
        cases ha
      · exact absurd (Except.error.inj (he.symm.trans hstopped)) (hgenuine N)

end Analysis

end Provenance
