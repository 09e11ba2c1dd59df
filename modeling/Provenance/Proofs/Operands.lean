/-
# Every instruction takes and leaves as many operands as it says

Errors are of two kinds.  Most are failures of the program that runs; a few say that the code itself
is not in order, because operands or locals are missing or there is nowhere to go on
(`RunError.isStructural`).

`Work.Balanced` says of an action that it takes so many operands and leaves so many, and never fails
in the second way if the operands are there.  It holds of every small action and is passed on
through sequences, so it holds of every hook with the effect that the hook declares
(`hook_balanced`) and of every instruction (`perform_balanced`), provided the local it names is
there.
-/
import Provenance.Proofs.StraightLine

namespace Provenance

/-! ## 1. Failures of code that is not in order -/

/-- Whether the code was not in order: operands or a local are missing, or there is nowhere to go
on. -/
def RunError.isStructural : RunError → Bool
  | stackUnderflow _ _ | invalidMethod _ _ | invalidLocal _ _ | fellOffEnd _ => true
  | _ => false

/-- A result that is no failure of code that is not in order. -/
def Ordinary {α : Type} (r : Except RunError α) : Prop := ∀ e, r = .error e → e.isStructural = false

namespace Ordinary

variable {α β : Type}

theorem ok (a : α) : Ordinary (.ok a) := fun _ h => absurd h (by simp)

theorem error {e : RunError} (h : e.isStructural = false) :
    Ordinary (.error e : Except RunError α) :=
  fun _ he => Except.error.inj he ▸ h

theorem bind {x : Except RunError α} {f : α → Except RunError β} (hx : Ordinary x)
    (hf : ∀ a, Ordinary (f a)) : Ordinary (x >>= f) := by
  cases x with
  | error e => exact error (hx e rfl)
  | ok a => exact hf a

theorem map {x : Except RunError α} (f : α → β) (hx : Ordinary x) : Ordinary (f <$> x) := by
  cases x with
  | error e => exact error (hx e rfl)
  | ok a => exact ok (f a)

end Ordinary

namespace Heap

variable (h : Heap)

theorem ordinary_wrongKind {α : Type} (expected : String) (x : HeapObject) :
    Ordinary (wrongKind expected x : Except RunError α) := .error rfl

theorem ordinary_int (v : Value) : Ordinary (h.int v) := by
  cases v <;> first | exact .ok _ | exact .error rfl

theorem ordinary_long (v : Value) : Ordinary (h.long v) := by
  cases v <;> first | exact .ok _ | exact .error rfl

theorem ordinary_float (v : Value) : Ordinary (h.float v) := by
  cases v <;> first | exact .ok _ | exact .error rfl

theorem ordinary_double (v : Value) : Ordinary (h.double v) := by
  cases v <;> first | exact .ok _ | exact .error rfl

theorem ordinary_reference (v : Value) : Ordinary (h.reference v) := by
  cases v <;> first | exact .ok _ | exact .error rfl

theorem ordinary_point (v : Value) : Ordinary (h.point v) := by
  cases v <;> first | exact .ok _ | exact .error rfl

theorem ordinary_record (v : Value) : Ordinary (h.record v) := by
  cases v <;> first | exact .ok _ | exact .error rfl

theorem ordinary_target (context : String) (v : Value) : Ordinary (h.target context v) := by
  unfold target
  split
  · rename_i e he
    exact .error (h.ordinary_reference v e he)
  · exact .ok _
  · exact .error rfl

theorem ordinary_sameReference (a b : Value) : Ordinary (h.sameReference a b) := by
  unfold sameReference
  split
  · rename_i e he
    exact .error (h.ordinary_reference a e he)
  · split
    · rename_i e he
      exact .error (h.ordinary_reference b e he)
    · exact .ok _

theorem ordinary_stringEquals (a b : Value) : Ordinary (h.stringEquals a b) := by
  unfold stringEquals
  split
  · rename_i e he
    exact .error (h.ordinary_reference a e he)
  · split
    · rename_i e he
      exact .error (h.ordinary_reference b e he)
    · exact .ok _

theorem ordinary_length (o : ObjectId) : Ordinary (h.length o) := by
  unfold length
  split <;> first | exact .ok _ | exact .error rfl

theorem ordinary_place (index : Int32) (length : Nat) : Ordinary (place index length) := by
  unfold place
  split <;> first | exact .ok _ | exact .error rfl

theorem ordinary_rangeStart (start length : Int32) (size : Nat) :
    Ordinary (rangeStart start length size) := by
  unfold rangeStart
  split <;> first | exact .ok _ | exact .error rfl

theorem ordinary_load (o : ObjectId) (index : Int32) : Ordinary (h.load o index) := by
  unfold load
  split
  · split
    · rename_i e he
      exact .error (ordinary_place _ _ e he)
    · exact .ok _
  · exact ordinary_wrongKind _ _

theorem ordinary_elementPlace (o : ObjectId) (index : Int32) :
    Ordinary (h.elementPlace o index) := by
  unfold elementPlace
  split
  · exact ordinary_place _ _
  · exact ordinary_wrongKind _ _

theorem ordinary_copyRange (source : ObjectId) (position : Int32) (target : ObjectId)
    (targetPosition length : Int32) :
    Ordinary (h.copyRange source position target targetPosition length) := by
  unfold copyRange
  split
  · split
    · split
      · rename_i e he
        exact .error (ordinary_rangeStart _ _ _ e he)
      · split
        · rename_i e he
          exact .error (ordinary_rangeStart _ _ _ e he)
        · exact .ok _
    · exact .error rfl
  · exact ordinary_wrongKind _ _
  · exact ordinary_wrongKind _ _

theorem ordinary_duplicate (o : ObjectId) : Ordinary (h.duplicate o) := by
  unfold duplicate
  split <;> first | exact .ok _ | exact .error rfl

theorem ordinary_getField (o : ObjectId) (name : String) (t : Ty) :
    Ordinary (h.getField o name t) := by
  unfold getField
  split <;> first | exact .ok _ | exact .error rfl

theorem ordinary_putField (o : ObjectId) (name : String) (t : Ty) (v : Value) :
    Ordinary (h.putField o name t v) := by
  unfold putField
  split <;> first | exact .ok _ | exact .error rfl

theorem ordinary_floating {α : Type} (x : Option α) : Ordinary (floating x) := by
  cases x <;> first | exact .ok _ | exact .error rfl

theorem ordinary_integral {α : Type} (x : Option α) : Ordinary (integral x) := by
  cases x <;> first | exact .ok _ | exact .error rfl

theorem ordinary_binary (op : BinaryOp) (t : Ty) (a b : Value) : Ordinary (h.binary op t a b) := by
  have hint : Ordinary (do
      let x ← h.int a
      let y ← h.int b
      return Value.int (← integral (op.onInt x y))) :=
    (h.ordinary_int a).bind fun x => (h.ordinary_int b).bind fun y =>
      (ordinary_integral _).bind fun _ => .ok _
  unfold binary
  cases t with
  | long =>
    have hlong (y : Int64) : Ordinary (do
        let x ← h.long a
        return Value.long (← integral (op.onLong x y))) :=
      (h.ordinary_long a).bind fun x => (ordinary_integral _).bind fun _ => .ok _
    simp only
    split
    · exact ((h.ordinary_int b).map _).bind hlong
    · exact (h.ordinary_long b).bind hlong
  | float =>
    exact (h.ordinary_float a).bind fun x => (h.ordinary_float b).bind fun y =>
      (ordinary_floating _).bind fun _ => .ok _
  | double =>
    exact (h.ordinary_double a).bind fun x => (h.ordinary_double b).bind fun y =>
      (ordinary_floating _).bind fun _ => .ok _
  | _ => exact hint

theorem ordinary_convert (t : Ty) (v : Value) : Ordinary (h.convert t v) := by
  have hint : Ordinary (h.toInt v) := by cases v <;> first | exact .ok _ | exact .error rfl
  have hlong : Ordinary (h.toLong v) := by cases v <;> first | exact .ok _ | exact .error rfl
  have hfloat : Ordinary (h.toSingle v) := by cases v <;> first | exact .ok _ | exact .error rfl
  have hdouble : Ordinary (h.toDouble v) := by cases v <;> first | exact .ok _ | exact .error rfl
  cases t with
  | long => exact hlong.map _
  | float => exact hfloat.map _
  | double => exact hdouble.map _
  | int | byte | char | short | boolean => exact hint.map _
  | _ => exact .error rfl

end Heap

/-! ## 2. Actions in balance -/

namespace Work

open Provenance.Action (Wp)

variable {α β : Type} {n pops pushes : Nat} {W : Nat → Prop} {inUse : Thunk (List Value)}

/-- So many operands give way to so many others; those below stay, and all locals but those that may
be written. -/
structure Exchanged (W : Nat → Prop) (pops pushes : Nat) (b b' : Bench) : Prop where
  size : b'.locals.size = b.locals.size
  locals : ∀ l, ¬W l → b'.locals[l]? = b.locals[l]?
  height : b'.stack.length + pops = b.stack.length + pushes
  below : b'.stack.drop pushes = b.stack.drop pops

namespace Exchanged

variable {b b' b'' : Bench} {taken left : Nat}

theorem refl (W : Nat → Prop) (pops : Nat) (b : Bench) : Exchanged W pops pops b b :=
  ⟨rfl, fun _ _ => rfl, rfl, rfl⟩

/-- The world may change. -/
theorem idle (hlocals : b'.locals = b.locals) (hstack : b'.stack = b.stack) :
    Exchanged W 0 0 b b' :=
  ⟨congrArg Array.size hlocals, fun l _ => congrArg (·[l]?) hlocals,
    congrArg List.length hstack, hstack⟩

/-- What is taken first and what is taken then. -/
theorem trans (h : Exchanged W taken left b b') (hle : taken ≤ pops)
    (h' : Exchanged W (pops - taken + left) pushes b' b'') : Exchanged W pops pushes b b'' where
  size := h'.size.trans h.size
  locals l hl := (h'.locals l hl).trans (h.locals l hl)
  height := by
    have := h.height
    have := h'.height
    omega
  below := by
    calc b''.stack.drop pushes = (b'.stack.drop left).drop (pops - taken) := by
          rw [h'.below, List.drop_drop, Nat.add_comm]
      _ = b.stack.drop pops := by rw [h.below, List.drop_drop, Nat.add_sub_cancel' hle]

end Exchanged

/-- An action that, with `n` locals around, takes so many operands and leaves so many, and if they
are there, fails only as a program may that is in order. -/
def Balanced (n : Nat) (W : Nat → Prop) (pops pushes : Nat) (x : Work α) : Prop :=
  ∀ b : Bench, b.locals.size = n →
    Wp x (fun _ b' => Exchanged W pops pushes b b')
      (fun e _ => pops ≤ b.stack.length → e.isStructural = false) b

namespace Balanced

theorem pure (a : α) : Balanced n W pops pops (Pure.pure a : Work α) := fun b _ => .refl W pops b

theorem throw {e : RunError} (h : e.isStructural = false) :
    Balanced n W pops pushes (MonadExcept.throw e : Work α) := fun _ _ _ => h

/-- An action in front takes from what there is and leaves the rest. -/
theorem bind {taken left : Nat} {x : Work α} {f : α → Work β} (hx : Balanced n W taken left x)
    (hle : taken ≤ pops) (hf : ∀ a, Balanced n W (pops - taken + left) pushes (f a)) :
    Balanced n W pops pushes (x >>= f) := by
  intro b hb
  rw [Action.wp_bind]
  refine (hx b hb).mono (fun a b' h => ?_) fun e b' h hpops => h (Nat.le_trans hle hpops)
  have hheight := h.height
  refine (hf a b' (h.size.trans hb)).mono (fun c b'' h' => h.trans hle h')
    fun e b'' h' hpops => h' ?_
  omega

/-- An action that leaves operands alone. -/
theorem keep {x : Work α} {f : α → Work β} (hx : Balanced n W 0 0 x)
    (hf : ∀ a, Balanced n W pops pushes (f a)) : Balanced n W pops pushes (x >>= f) :=
  hx.bind (Nat.zero_le _) hf

theorem pop {u : RunError} {f : Value → Work β} (hf : ∀ v, Balanced n W pops pushes (f v)) :
    Balanced n W (pops + 1) pushes (Work.pop u >>= f) := by
  have hpop : Balanced n W 1 0 (Work.pop u) := by
    intro b hb
    rw [wp_pop]
    split
    · rename_i hnil
      simp [hnil]
    · rename_i v rest hcons
      exact ⟨rfl, fun _ _ => rfl, by simp [hcons], by simp [hcons]⟩
  exact hpop.bind (Nat.le_add_left 1 pops) hf

theorem push {v : Value} {f : Unit → Work β} (hf : Balanced n W (pops + 1) pushes (f ())) :
    Balanced n W pops pushes (Work.push v >>= f) := by
  have hpush : Balanced n W 0 1 (Work.push v) := fun _ _ => ⟨rfl, fun _ _ => rfl, rfl, rfl⟩
  exact hpush.bind (Nat.zero_le _) fun _ => hf

/-- A push at the end. -/
theorem last {v : Value} : Balanced n W pops (pops + 1) (Work.push v) :=
  fun b _ => ⟨rfl, fun _ _ => rfl, by simp only [List.length_cons]; omega, rfl⟩

theorem popMany {u : RunError} {count : Nat} {f : List Value → Work β}
    (hf : ∀ values, values.length = count → Balanced n W pops pushes (f values)) :
    Balanced n W (pops + count) pushes (Work.popMany u count >>= f) := by
  intro b hb
  rw [Action.wp_bind, wp_popMany]
  split
  · rename_i hshort
    exact fun hpops => absurd hpops (by omega)
  have htaken : ((b.stack.take count).reverse).length = count := by
    rw [List.length_reverse, List.length_take]
    omega
  have hleft : Exchanged W count 0 b ⟨b.world, b.locals, b.stack.drop count⟩ :=
    ⟨rfl, fun _ _ => rfl, by simp only [List.length_drop]; omega, rfl⟩
  refine (hf _ htaken ⟨b.world, b.locals, b.stack.drop count⟩ hb).mono (fun c b' h => ?_)
    fun e b' h hpops => h ?_
  · refine hleft.trans (Nat.le_add_left count pops) ?_
    rwa [Nat.add_sub_cancel, Nat.add_zero]
  · simp only [List.length_drop]
    omega

/-- Taking all operands at once. -/
theorem popAll {u : RunError} {count : Nat} {f : List Value → Work β}
    (hf : ∀ values, values.length = count → Balanced n W 0 pushes (f values)) :
    Balanced n W count pushes (Work.popMany u count >>= f) := by
  have h := popMany (u := u) hf
  rwa [Nat.zero_add] at h

theorem inspect {f : Bench → Except RunError α} (hf : ∀ b, b.locals.size = n → Ordinary (f b)) :
    Balanced n W 0 0 (Action.inspect f) := by
  intro b hb
  rw [Action.wp_inspect]
  split
  · exact .refl W 0 b
  · rename_i e he
    exact fun _ => hf b hb e he

theorem fromHeap {f : Heap → Except RunError α} (hf : ∀ h, Ordinary (f h)) :
    Balanced n W 0 0 (Work.fromHeap f) := inspect fun b _ => hf b.world.heap

theorem onHeap (f : Heap → α × Heap) : Balanced n W 0 0 (Work.onHeap f) := fun _ _ => .idle rfl rfl

theorem onStore (f : Store → α × Store) : Balanced n W 0 0 (Work.onStore f) :=
  fun _ _ => .idle rfl rfl

theorem tracking (f : (ObjectId → Bool) → Store → α × Store) :
    Balanced n W 0 0 (Work.tracking inUse f) := fun _ _ => .idle rfl rfl

theorem allocate (x : HeapObject) : Balanced n W 0 0 (Work.allocate x) := onHeap _

theorem popInt {u : RunError} {f : Int32 → Work β} (hf : ∀ v, Balanced n W pops pushes (f v)) :
    Balanced n W (pops + 1) pushes (Work.popInt u >>= f) := by
  have hpop : Balanced n W 1 0 (Work.popInt u) :=
    pop fun v => fromHeap fun h => h.ordinary_int v
  exact hpop.bind (Nat.le_add_left 1 pops) hf

theorem popTarget {u : RunError} {context : String} {f : ObjectId → Work β}
    (hf : ∀ o, Balanced n W pops pushes (f o)) :
    Balanced n W (pops + 1) pushes (Work.popTarget u context >>= f) := by
  have hpop : Balanced n W 1 0 (Work.popTarget u context) :=
    pop fun v => fromHeap fun h => h.ordinary_target context v
  exact hpop.bind (Nat.le_add_left 1 pops) hf

theorem takeRecord {f : Option Nat → Work β} (hf : ∀ r, Balanced n W pops pushes (f r)) :
    Balanced n W (pops + 1) pushes (Work.takeRecord >>= f) := by
  have htake : Balanced n W 1 0 Work.takeRecord :=
    pop fun v => fromHeap fun h => h.ordinary_record v
  exact htake.bind (Nat.le_add_left 1 pops) hf

theorem storeElement (o : ObjectId) (index : Int32) (v : Value) :
    Balanced n W 0 0 (Work.storeElement o index v) :=
  (fromHeap fun h => h.ordinary_elementPlace o index).keep fun _ => onHeap _

theorem changeHeap {f : Heap → Except RunError Heap} (hf : ∀ h, Ordinary (f h)) :
    Balanced n W 0 0 (Work.changeHeap f) := (fromHeap hf).keep fun _ => onHeap _

end Balanced

/-! ## 3. What hooks are made of -/

section Pieces

variable (o : ObjectId)

theorem setSource_balanced (index length : Nat) (source : Option TrackerId) (sourceIndex : Nat) :
    Balanced n W 0 0 (setSource inUse o index length source sourceIndex) := .tracking _

theorem trackerOf_balanced : Balanced n W 0 0 (trackerOf inUse o) := .tracking _

theorem elementPoint_balanced (v : Value) (index : Int32) :
    Balanced n W 0 0 (elementPoint inUse v index) := by
  refine .keep (.fromHeap fun h => h.ordinary_reference v) fun r => ?_
  cases r with
  | none => exact .pure _
  | some o =>
    simp only
    split
    · exact .pure _
    · exact .tracking _

theorem storeWithPoint_balanced : Balanced n W 4 0 (storeWithPoint inUse) :=
  .pop fun point => .pop fun value => .popInt fun index => .popTarget fun array =>
    .keep (.storeElement array index value) fun _ =>
      .keep (.fromHeap fun h => h.ordinary_point point) fun _ =>
        .keep (setSource_balanced array _ _ _ _) fun _ => .pure _

theorem copyArray_balanced {values : List Value} (h : values.length = 5) :
    Balanced n W 0 0 (copyArray inUse values) := by
  match values, h with
  | [source, position, target, targetPosition, length], _ =>
    exact .keep (.fromHeap fun h => h.ordinary_target _ source) fun source =>
      .keep (.fromHeap fun h => h.ordinary_target _ target) fun target =>
        .keep (.fromHeap fun h => h.ordinary_int position) fun position =>
          .keep (.fromHeap fun h => h.ordinary_int targetPosition) fun targetPosition =>
            .keep (.fromHeap fun h => h.ordinary_int length) fun length =>
              .keep (.changeHeap fun h => h.ordinary_copyRange _ _ _ _ _) fun _ =>
                .keep (trackerOf_balanced source) fun _ =>
                  .keep (setSource_balanced target _ _ _ _) fun _ => .pure _

theorem cloneArray_balanced (v : Value) : Balanced n W 0 0 (cloneArray inUse v) := by
  refine .keep (.fromHeap fun h => h.ordinary_target _ v) fun array =>
    .keep (.fromHeap fun h => h.ordinary_duplicate array) fun x => .keep (.allocate x) fun copy =>
      .keep (trackerOf_balanced array) fun tracker => ?_
  cases tracker with
  | none => exact .pure _
  | some tracker =>
    exact .keep (.fromHeap fun h => h.ordinary_length copy) fun length =>
      .keep (setSource_balanced copy _ _ _ _) fun _ => .pure _

theorem characterSources_balanced (table : TrackerId) : ∀ (index : Nat) (offsets : List Nat),
    Balanced n W 0 0 (characterSources inUse o table index offsets)
  | _, [] => .pure ()
  | index, offset :: rest => by
    refine .keep (setSource_balanced o index 1 (some table) offset) fun taken => ?_
    cases taken with
    | true => exact characterSources_balanced table (index + 1) rest
    | false => exact .pure ()

theorem copyLiteral_balanced (classId offset : Nat) :
    Balanced n W 0 0 (copyLiteral inUse classId offset o) := by
  refine .keep (.fromHeap fun h => .ok _) fun text => .keep (.allocate _) fun copy =>
    .keep (.onStore _) fun found => ?_
  cases found with
  | error e => exact .pure _
  | ok table =>
    refine .keep ?_ fun _ => .pure _
    unfold literalSourceBy
    split
    · exact .keep (setSource_balanced copy _ _ _ _) fun _ => .pure _
    · exact characterSources_balanced copy _ _ _

theorem joinTracked_balanced : ∀ (operands : List (Ty × Value)) (start : Nat) (marks : List Char)
    (points : List Value), Balanced n W 0 0 (joinTracked inUse start operands marks points)
  | [], _, _, _ => .pure _
  | _ :: _, _, [], _ => .pure _
  | (t, v) :: operands, start, mark :: marks, points => by
    unfold joinTracked
    have hrest (source : Option TextSource) (points : List Value) (text : List Char) :
        Balanced n W 0 0 (do
          let rest ← joinTracked inUse (start + text.length) operands marks points
          return (text ++ rest.1, source.toList ++ rest.2)) :=
      .keep (joinTracked_balanced operands _ marks points) fun _ => .pure _
    refine .keep (.inspect fun b _ => .ok _) fun world => ?_
    by_cases hmark : mark = 'T'
    · simp only [hmark, if_true]
      cases points with
      | nil => exact .keep (.pure _) fun _ => hrest _ _ _
      | cons p points =>
        exact .keep (.fromHeap fun h => h.ordinary_point p) fun _ => .keep (.pure _) fun _ =>
          hrest _ _ _
    · simp only [hmark, if_false]
      cases v.object? with
      | none => exact .keep (.pure _) fun _ => hrest _ _ _
      | some o =>
        exact .keep (trackerOf_balanced o) fun _ => .keep (.pure _) fun _ => hrest _ _ _

theorem recordSources_balanced : ∀ sources : List TextSource,
    Balanced n W 0 0 (recordSources inUse o sources)
  | [] => .pure ()
  | _ :: rest => .keep (setSource_balanced o _ _ _ _) fun _ => recordSources_balanced rest

theorem concatenate_balanced (args : List Ty) (mask : String) (values points : List Value) :
    Balanced n W 0 0 (concatenate inUse args mask values points) :=
  .keep (joinTracked_balanced _ _ _ _) fun _ => .keep (.allocate _) fun o =>
    .keep (recordSources_balanced o _) fun _ => .pure _

end Pieces

/-! ## 4. All hooks -/

/-- **Every hook has the effect that it declares.** -/
theorem hook_balanced (h : Hook) : Balanced n W h.effect.1 h.effect.2 (hook inUse h) := by
  cases h with
  | constantPoint c => exact .keep (.onStore _) fun _ => .last
  | elementPoint =>
    exact .popInt fun index => .pop fun o => .keep (elementPoint_balanced o index) fun _ => .last
  | arrayStoreWithPoint => exact storeWithPoint_balanced
  | fieldPoint key =>
    refine .pop fun v => .keep (.fromHeap fun h => h.ordinary_reference v) fun r => ?_
    cases r with
    | none => exact .last
    | some o => exact .keep (.onStore _) fun _ => .last
  | setFieldPoint key =>
    refine .pop fun point => .pop fun v =>
      .keep (.fromHeap fun h => h.ordinary_reference v) fun r => ?_
    cases r with
    | none => exact .pure _
    | some o => exact .keep (.fromHeap fun h => h.ordinary_point point) fun _ => .onStore _
  | invocationCreate signature => exact .keep (.onStore _) fun _ => .last
  | invocationSetArg slot =>
    refine .pop fun point => .pop fun v =>
      .keep (.fromHeap fun h => h.ordinary_record v) fun r => ?_
    cases r with
    | none => exact .last
    | some id =>
      exact .keep (.fromHeap fun h => h.ordinary_point point)
        fun _ => .keep (.onStore _) fun _ => .last
  | invocationCalling =>
    refine .pop fun v => .keep (.fromHeap fun h => h.ordinary_record v) fun r => ?_
    cases r with
    | none => exact .last
    | some id => exact .keep (.onStore _) fun _ => .last
  | invocationStart signature => exact .keep (.onStore _) fun _ => .last
  | invocationArgPoint slot =>
    refine .takeRecord fun r => ?_
    cases r with
    | none => exact .last
    | some id => exact .keep (.onStore _) fun _ => .last
  | invocationReturnPoint =>
    refine .takeRecord fun r => ?_
    cases r with
    | none => exact .last
    | some id => exact .keep (.onStore _) fun _ => .last
  | invocationReturning =>
    refine .pop fun point => .takeRecord fun r => ?_
    cases r with
    | none => exact .pure _
    | some id => exact .keep (.fromHeap fun h => h.ordinary_point point) fun _ => .onStore _
  | stringEquals =>
    exact .pop fun b => .pop fun a =>
      .keep (.fromHeap fun h => h.ordinary_stringEquals a b) fun _ =>
      .last
  | concatWithPoints args mask =>
    exact .popMany fun points _ => .popAll fun values _ =>
      .keep (concatenate_balanced args mask values points) fun _ => .last
  | constantString classId offset =>
    refine .pop fun v => .keep (.fromHeap fun h => h.ordinary_reference v) fun r => ?_
    cases r with
    | none => exact .last
    | some o => exact .keep (copyLiteral_balanced o classId offset) fun _ => .last
  | arrayCopy => exact .popMany fun values hvalues => copyArray_balanced hvalues
  | arrayClone => exact .pop fun v => .keep (cloneArray_balanced v) fun _ => .last

/-! ## 5. All instructions -/

/-- What an instruction leaves itself; the result of a call comes later, that of a return elsewhere.
-/
def leaves : Insn → Nat
  | .invoke _ => 0
  | i => i.pushes

/-- **Every instruction has its effect and fails only as a program may that is in order**, provided
the local that it names is there; it may write only the one that it stores to. -/
theorem perform_balanced (method : String) (u : RunError) {i : Insn}
    (hlocal : ∀ l, i.local? = some l → l < n) (hwrite : ∀ l, i = .store l → W l) :
    Balanced n W i.pops (leaves i) (perform method u inUse i) := by
  cases i with
  | nop | label _ => exact .pure _
  | const c =>
    refine .keep ?_ fun _ => .push (.pure _)
    cases c with
    | str text => exact .keep (fun _ _ => .idle rfl rfl) fun _ => .pure _
    | _ => exact .pure _
  | load l =>
    refine .keep (.inspect fun b hb => ?_) fun _ => .push (.pure _)
    have hl := hlocal l rfl
    rw [Array.getElem?_eq_getElem (hb ▸ hl)]
    exact .ok _
  | store l =>
    refine .pop fun v => .keep (.keep (.inspect fun b hb => ?_) fun _ b hb => ?_) fun _ => .pure _
    · rw [if_pos (hb ▸ hlocal l rfl)]
      exact .ok _
    · refine ⟨Array.size_setIfInBounds, fun j hj => Array.getElem?_setIfInBounds_ne ?_, rfl, rfl⟩
      rintro rfl
      exact hj (hwrite l rfl)
  | dup => exact .pop fun _ => .push (.push (.pure _))
  | dupX1 => exact .pop fun _ => .pop fun _ => .push (.push (.push (.pure _)))
  | dup2 => exact .pop fun _ => .pop fun _ => .push (.push (.push (.push (.pure _))))
  | pop => exact .pop fun _ => .pure _
  | swap => exact .pop fun _ => .pop fun _ => .push (.push (.pure _))
  | arrayLoad _ =>
    exact .popInt fun index => .popTarget fun o =>
      .keep (.fromHeap fun h => h.ordinary_load o index)
      fun _ => .push (.pure _)
  | arrayStore _ =>
    exact .pop fun v => .popInt fun index => .popTarget fun o => .keep (.storeElement o index v)
      fun _ => .pure _
  | arrayLength =>
    exact .popTarget fun o => .keep (.fromHeap fun h => h.ordinary_length o) fun _ =>
      .push (.pure _)
  | newArray elem =>
    refine .popInt fun count => ?_
    split
    · exact .throw rfl
    · exact .keep (.allocate _) fun _ => .push (.pure _)
  | getField f =>
    exact .popTarget fun o => .keep (.fromHeap fun h => h.ordinary_getField o f.name f.ty) fun _ =>
      .push (.pure _)
  | putField f =>
    exact .pop fun v => .popTarget fun o => .keep
      (.changeHeap fun h => h.ordinary_putField o f.name f.ty v) fun _ => .pure _
  | binary op t =>
    exact .pop fun b => .pop fun a => .keep (.fromHeap fun h => h.ordinary_binary op t a b) fun _ =>
      .push (.pure _)
  | convert source target =>
    exact .pop fun v => .keep (.fromHeap fun h => h.ordinary_convert target v) fun _ =>
      .push (.pure _)
  | invoke m => exact .popAll fun _ _ => .pure _
  | concat args =>
    exact .popAll fun values _ => .keep (.inspect fun b _ => .ok _) fun text =>
      .keep (.allocate (.ofText text)) fun _ => .push (.pure _)
  | goto l => exact .pure _
  | ifZero cond l => exact .popInt fun _ => .pure _
  | ifCmp cond l => exact .popInt fun _ => .popInt fun _ => .pure _
  | ifNull l | ifNonNull l =>
    exact .pop fun v => .keep (.fromHeap fun h => h.ordinary_reference v) fun _ => .pure _
  | ifRefEq l | ifRefNe l =>
    exact .pop fun b => .pop fun a =>
      .keep (.fromHeap fun h => h.ordinary_sameReference a b) fun _ =>
      .pure _
  | ret t =>
    by_cases ht : t = .void
    · simp only [perform, ht, if_true]
      exact .pure _
    · simp only [perform, ht, if_false]
      have hret : Balanced n W 1 0 (do return Transfer.ret (some (← Work.pop u)) : Work Transfer) :=
        .pop fun _ => .pure _
      simpa only [Insn.pops, leaves, Insn.pushes, Insn.effect, ht, if_false] using hret
  | hook h =>
    refine (hook_balanced h).bind (Nat.le_refl h.effect.1) fun _ => ?_
    show Balanced n W (h.effect.1 - h.effect.1 + h.effect.2) h.effect.2 _
    rw [Nat.sub_self, Nat.zero_add]
    exact .pure _

end Work

end Provenance
