/-
# Two runs of the same woven code

Two runs of one woven method see the same heap and have the same values for all that the program
computes.  They differ in what the store knows and so in the points and records that woven code
keeps in its locals and, for a while, on top of the stack.  What lies there is known by kind only
(`Stack.Abreast`), and that is enough: an instruction of woven code that finds the kinds that it
expects comes to the same in both runs, or fails in both in the same words, and leaves kinds that
depend on nothing but the instruction (`Insn.Turns`, `Work.perform_together`).
-/
import Provenance.Proofs.Failing
import Provenance.Proofs.Harmless
import Provenance.Proofs.Lasting

namespace Provenance

open Provenance.Action (Wp)

variable {α β : Type} {known : Nat → Prop} {inUse inUse' : Thunk (List Value)}

/-! ## 1. Worlds, stacks and benches -/

namespace World.Same

variable {w₀ w w' u u' : World}

/-- Two worlds that are each the same as a third. -/
theorem common (h : Same known w₀ w) (h' : Same known w₀ w') : Same known w w' := by
  refine ⟨h'.heap.trans h.heap.symm, h'.literals.trans h.literals.symm, h.heap ▸ h.within,
    fun id hid => ?_⟩
  obtain ⟨r₀, r, hr₀, hr, hsig⟩ := h.records id hid
  obtain ⟨r₁, r', hr₁, hr', hsig'⟩ := h'.records id hid
  obtain rfl := Option.some.inj (hr₀.symm.trans hr₁)
  exact ⟨r, r', hr, hr', hsig'.trans hsig.symm⟩

/-- The first of two such worlds is the same as itself. -/
theorem self (h : Same known w w') : Same known w w := by
  refine ⟨rfl, rfl, h.within, fun id hid => ?_⟩
  obtain ⟨r, -, hr, -⟩ := h.records id hid
  exact ⟨r, r, hr, hr, rfl⟩

/-- Only the stores of both change. -/
theorem both (h : Same known w w') (hu : w.Follows u) (hu' : w'.Follows u') : Same known u u' :=
  (h.self.follows hu).common (h.follows hu')

end World.Same

/-- The kinds of the values that only woven code makes. -/
def OperandKind.tracked : OperandKind → Bool
  | .point | .record => true
  | .any | .int | .reference => false

/-- The kind of what a local of woven code holds. -/
def LocalUse.kind : LocalUse → OperandKind
  | .point _ | .merge _ => .point
  | .record _ | .own => .record

theorem LocalUse.tracked_kind (u : LocalUse) : u.kind.tracked = true := by
  cases u <;> rfl

theorem LocalUse.holds_iff {u : LocalUse} {x : Value} : u.Holds x ↔ u.kind.Admits x := by
  cases u <;> rfl

/-- Two stacks with values of these kinds on top and the same operands of the program below. -/
inductive Stack.Abreast (known : Nat → Prop) :
    List OperandKind → List Value → List Value → Prop where
  | operands {S : List Value} (hS : ∀ x ∈ S, x.Within known) : Abreast known [] S S
  | tracked {k : OperandKind} {kinds : List OperandKind} {x x' : Value} {S S' : List Value}
      (hx : k.Admits x ∧ k.Admits x') (h : Abreast known kinds S S') :
      Abreast known (k :: kinds) (x :: S) (x' :: S')

namespace Stack

variable {kinds kinds' : List OperandKind}

/-- What lies on top, pair by pair. -/
theorem Abreast.split : ∀ {kinds : List OperandKind} {S S' : List Value},
    Abreast known (kinds ++ kinds') S S' → ∃ (es : List (Value × Value)) (T T' : List Value),
      S = es.map Prod.fst ++ T ∧ S' = es.map Prod.snd ++ T' ∧
      List.Forall₂ (fun k e => k.Admits e.1 ∧ k.Admits e.2) kinds es ∧ Abreast known kinds' T T'
  | [], S, S', h => ⟨[], S, S', rfl, rfl, .nil, h⟩
  | _ :: _, x :: _, x' :: _, .tracked hx h =>
    let ⟨es, T, T', hS, hS', hes, hT⟩ := h.split
    ⟨(x, x') :: es, T, T', congrArg (x :: ·) hS, congrArg (x' :: ·) hS', .cons hx hes, hT⟩

theorem Abreast.append {T T' : List Value} (h : Abreast known kinds' T T') :
    ∀ {kinds : List OperandKind} {xs xs' : List Value}, List.Forall₂ OperandKind.Admits kinds xs →
      List.Forall₂ OperandKind.Admits kinds xs' →
      Abreast known (kinds ++ kinds') (xs ++ T) (xs' ++ T')
  | [], _, _, .nil, .nil => h
  | _ :: _, _, _, .cons hx hxs, .cons hx' hxs' => .tracked ⟨hx, hx'⟩ (h.append hxs hxs')

end Stack

/-- Two benches of a woven method, with values of these kinds on top. -/
structure Woven.Abreast (v : Woven) (known : Nat → Prop) (kinds : List OperandKind) (b b' : Bench) :
    Prop where
  world : World.Same known b.world b'.world
  locals : ∃ L, v.Beside known L b.locals ∧ v.Beside known L b'.locals
  stack : Stack.Abreast known kinds b.stack b'.stack

/-! ## 2. Work that comes to the same -/

/-- Two results as described, or a failure in the same words, in worlds that are the same. -/
inductive Alongside (known : Nat → Prop) (Q : α → α → Bench → Bench → Prop) :
    Except RunError α × Bench → Except RunError α × Bench → Prop where
  | ok {a a' : α} {b b' : Bench} (h : Q a a' b b') : Alongside known Q (.ok a, b) (.ok a', b')
  | failed (e : RunError) {b b' : Bench} (h : World.Same known b.world b'.world) :
      Alongside known Q (.error e, b) (.error e, b')

namespace Woven

/-- Two pieces of work that, from benches with values of some kinds on top, come to results that are
related and leave values of other kinds. -/
def Together (v : Woven) (known : Nat → Prop) (kinds : List OperandKind) (R : α → α → Prop)
    (kinds' : List OperandKind) (x x' : Work α) : Prop :=
  ∀ b b', v.Abreast known kinds b b' →
    Alongside known (fun a a' b b' => R a a' ∧ v.Abreast known kinds' b b') (x.outcome b)
    (x'.outcome b')

variable {v : Woven} {kinds kinds' kinds'' : List OperandKind} {R : α → α → Prop}
    {R' : β → β → Prop}
  {k : OperandKind} {b b' : Bench}

/-- Two actions that cannot fail. -/
theorem alongside_of_wp {x x' : Work α} {P P' : α → Bench → Prop} {Q : α → α → Bench → Bench → Prop}
    (h : Wp x P (fun _ _ => False) b) (h' : Wp x' P' (fun _ _ => False) b')
    (hQ : ∀ a t a' t', P a t → P' a' t' → Q a a' t t') :
    Alongside known Q (x.outcome b) (x'.outcome b') := by
  unfold Wp at h h'
  generalize x.outcome b = r at h ⊢
  generalize x'.outcome b' = r' at h' ⊢
  obtain ⟨_ | a, t⟩ := r
  · exact False.elim h
  obtain ⟨_ | a', t'⟩ := r'
  · exact False.elim h'
  exact .ok (hQ a t a' t' h h')

/-- Two actions that fail as something does that is the same for both. -/
theorem alongside_of_exact {x x' : Work α} {y : Except RunError β} {P P' : β → α → Bench → Prop}
    {Q : α → α → Bench → Bench → Prop} (hw : World.Same known b.world b'.world)
    (h : Wp x (fun a t => ∃ z, y = .ok z ∧ P z a t)
      (fun e t => y = .error e ∧ b.world.Follows t.world) b)
    (h' : Wp x' (fun a t => ∃ z, y = .ok z ∧ P' z a t)
      (fun e t => y = .error e ∧ b'.world.Follows t.world) b')
    (hQ : ∀ z a t a' t', y = .ok z → P z a t → P' z a' t' → Q a a' t t') :
    Alongside known Q (x.outcome b) (x'.outcome b') := by
  unfold Wp at h h'
  generalize x.outcome b = r at h ⊢
  generalize x'.outcome b' = r' at h' ⊢
  obtain ⟨r, t⟩ := r
  obtain ⟨r', t'⟩ := r'
  cases y with
  | ok z =>
    cases r with
    | error e => exact absurd h.1 (by simp)
    | ok a =>
      cases r' with
      | error e => exact absurd h'.1 (by simp)
      | ok a' =>
        obtain ⟨z₁, hz₁, hP⟩ := h
        obtain ⟨z₂, hz₂, hP'⟩ := h'
        rw [← Except.ok.inj hz₁] at hP
        rw [← Except.ok.inj hz₂] at hP'
        exact .ok (hQ z a t a' t' rfl hP hP')
  | error e =>
    cases r with
    | ok a => exact absurd h (by simp)
    | error e₁ =>
      cases r' with
      | ok a' => exact absurd h' (by simp)
      | error e₂ =>
        rw [← Except.error.inj h.1, ← Except.error.inj h'.1]
        exact .failed e (hw.both h.2 h'.2)

/-- Benches on which hooks have left values of some kinds, and changed only the stores. -/
theorem Abreast.left {S S' : List Value} {xs xs' : List Value} {t t' : Bench}
    (h : v.Abreast known kinds b b') (hS : Stack.Abreast known kinds' S S')
    (hxs : Stack.Abreast known kinds' S S' → Stack.Abreast known kinds'' (xs ++ S) (xs' ++ S'))
    (ht : Work.Left b.world b.locals xs S t) (ht' : Work.Left b'.world b'.locals xs' S' t') :
    v.Abreast known kinds'' t t' :=
  ⟨h.world.both ht.world ht'.world, ht.locals ▸ ht'.locals ▸ h.locals,
    ht.stack ▸ ht'.stack ▸ hxs hS⟩

/-- Benches of which only the stores were told something. -/
theorem Abreast.told {t t' : Bench} (h : v.Abreast known kinds b b')
    (ht : Work.Left b.world b.locals [] b.stack t)
    (ht' : Work.Left b'.world b'.locals [] b'.stack t') :
    v.Abreast known kinds t t' := by
  refine ⟨h.world.both ht.world ht'.world, ht.locals ▸ ht'.locals ▸ h.locals, ?_⟩
  rw [ht.stack, ht'.stack]
  exact h.stack

namespace Together

theorem pure {a a' : α} (h : R a a') :
    v.Together known kinds R kinds (Pure.pure a : Work α) (Pure.pure a' : Work α) :=
  fun _ _ hb => .ok ⟨h, hb⟩

theorem throw (e : RunError) : v.Together known kinds R kinds' (MonadExcept.throw e : Work α)
    (MonadExcept.throw e) := fun _ _ hb => .failed e hb.world

theorem bind {x x' : Work α} {f f' : α → Work β} (hx : v.Together known kinds R kinds' x x')
    (hf : ∀ a a', R a a' → v.Together known kinds' R' kinds'' (f a) (f' a')) :
    v.Together known kinds R' kinds'' (x >>= f) (x' >>= f') := by
  intro b b' hb
  rw [Action.outcome_bind, Action.outcome_bind]
  have h := hx b b' hb
  generalize x.outcome b = r at h ⊢
  generalize x'.outcome b' = r' at h ⊢
  cases h with
  | ok h => exact hf _ _ h.1 _ _ h.2
  | failed e h => exact .failed e h

/-- After the same result in both. -/
theorem follow {P : α → Prop} {x x' : Work α} {f f' : α → Work β}
    (hx : v.Together known kinds (fun a a' => a' = a ∧ P a) kinds' x x')
    (hf : ∀ a, P a → v.Together known kinds' R' kinds'' (f a) (f' a)) :
    v.Together known kinds R' kinds'' (x >>= f) (x' >>= f') :=
  hx.bind fun a a' ha => by
    obtain ⟨rfl, ha⟩ := ha
    exact hf a' ha

/-- After results of which nothing is known. -/
theorem whatever {x x' : Work α} {f f' : α → Work β}
    (hx : v.Together known kinds (fun _ _ => True) kinds' x x')
    (hf : ∀ a a', v.Together known kinds' R' kinds'' (f a) (f' a')) :
    v.Together known kinds R' kinds'' (x >>= f) (x' >>= f') :=
  hx.bind fun a a' _ => hf a a'

theorem mono {S : α → α → Prop} {x x' : Work α} (hx : v.Together known kinds R kinds' x x')
    (hRS : ∀ a a', R a a' → S a a') : v.Together known kinds S kinds' x x' := by
  intro b b' hb
  have h := hx b b' hb
  generalize x.outcome b = r at h ⊢
  generalize x'.outcome b' = r' at h ⊢
  cases h with
  | ok h => exact .ok ⟨hRS _ _ h.1, h.2⟩
  | failed e h => exact .failed e h

/-! ### The stack -/

theorem pop_tracked (u : RunError) : v.Together known (k :: kinds)
    (fun x x' => k.Admits x ∧ k.Admits x') kinds (Work.pop u) (Work.pop u) := by
  rintro ⟨w, L, S⟩ ⟨w', L', S'⟩ ⟨hw, hL, hS⟩
  cases hS with
  | tracked hx hS => exact .ok ⟨hx, hw, hL, hS⟩

theorem pop_operand (u : RunError) : v.Together known []
    (fun x x' => x' = x ∧ x.Within known) [] (Work.pop u) (Work.pop u) := by
  rintro ⟨w, L, S⟩ ⟨w', L', S'⟩ ⟨hw, hL, hS⟩
  cases hS with
  | operands hS =>
    cases S with
    | nil => exact .failed u hw
    | cons x S =>
      obtain ⟨hx, hS⟩ := List.forall_mem_cons.mp hS
      exact .ok ⟨⟨rfl, hx⟩, hw, hL, .operands hS⟩

theorem popMany_operands (u : RunError) (n : Nat) : v.Together known []
    (fun xs xs' => xs' = xs ∧ ∀ x ∈ xs, x.Within known) [] (Work.popMany u n)
      (Work.popMany u n) := by
  rintro ⟨w, L, S⟩ ⟨w', L', S'⟩ ⟨hw, hL, hS⟩
  cases hS with
  | operands hS =>
    unfold Action.outcome Work.popMany
    simp only
    split
    · exact .failed u hw
    · refine .ok ⟨⟨rfl, fun x hx => ?_⟩, hw, hL,
        .operands fun x hx => hS x (List.mem_of_mem_drop hx)⟩
      exact hS x (List.mem_of_mem_take (List.mem_reverse.mp hx))

theorem popMany_tracked (u : RunError) (n : Nat) :
    v.Together known (List.replicate n k ++ kinds)
      (fun xs xs' => ∃ es : List (Value × Value), xs = es.map Prod.fst ∧ xs' = es.map Prod.snd ∧
        ∀ e ∈ es, k.Admits e.1 ∧ k.Admits e.2) kinds (Work.popMany u n) (Work.popMany u n) := by
  rintro ⟨w, L, S⟩ ⟨w', L', S'⟩ ⟨hw, hL, hS⟩
  obtain ⟨es, T, T', rfl, rfl, hes, hT⟩ := hS.split
  have hn : es.length = n := by rw [← hes.length_eq, List.length_replicate]
  have hpop {w : World} {L : Array Value} {xs T : List Value} (hn : xs.length = n) :
      (Work.popMany u n).outcome ⟨w, L, xs ++ T⟩ = (.ok xs.reverse, ⟨w, L, T⟩) := by
    unfold Action.outcome Work.popMany
    simp [← hn]
  rw [hpop (by rw [List.length_map, hn]), hpop (by rw [List.length_map, hn])]
  refine .ok
    ⟨⟨es.reverse, List.map_reverse.symm, List.map_reverse.symm, fun e he => ?_⟩, hw, hL, hT⟩
  obtain ⟨i, hi, rfl⟩ := List.mem_iff_getElem.mp (List.mem_reverse.mp he)
  have := hes.get (i := i) (by simpa [← hn] using hi) hi
  simpa using this

theorem push_tracked {x x' : Value} (hx : k.Admits x ∧ k.Admits x') :
    v.Together known kinds (fun _ _ => True) (k :: kinds) (Work.push x) (Work.push x') :=
  fun _ _ h => .ok ⟨trivial, h.world, h.locals, .tracked hx h.stack⟩

theorem push_operand {x : Value} (hx : x.Within known) :
    v.Together known [] (fun _ _ => True) [] (Work.push x) (Work.push x) := by
  rintro ⟨w, L, S⟩ ⟨w', L', S'⟩ ⟨hw, hL, hS⟩
  cases hS with
  | operands hS => exact .ok ⟨trivial, hw, hL, .operands (List.forall_mem_cons.mpr ⟨hx, hS⟩)⟩

/-! ### The heap and the store -/

theorem fromHeap {P : α → Prop} {f : Heap → Except RunError α}
    (hf : ∀ h : Heap, h.Within known → ∀ a, f h = .ok a → P a) :
    v.Together known kinds (fun a a' => a' = a ∧ P a) kinds (Work.fromHeap f)
      (Work.fromHeap f) := by
  intro b b' hb
  show Alongside known _ (f b.world.heap, b) (f b'.world.heap, b')
  rw [hb.world.heap]
  cases hr : f b.world.heap with
  | ok a => exact .ok ⟨⟨rfl, hf _ hb.world.within a hr⟩, hb⟩
  | error e => exact .failed e hb.world

theorem look (f : Heap → Except RunError α) :
    v.Together known kinds (fun a a' => a' = a ∧ True) kinds (Work.fromHeap f) (Work.fromHeap f) :=
  fromHeap fun _ _ _ _ => trivial

theorem onHeap {f : Heap → α × Heap} (hf : ∀ h : Heap, h.Within known → (f h).2.Within known) :
    v.Together known kinds (fun a a' => a' = a ∧ True) kinds (Work.onHeap f) (Work.onHeap f) := by
  intro b b' hb
  show Alongside known _ (.ok (f b.world.heap).1, { b with world.heap := (f b.world.heap).2 })
    (.ok (f b'.world.heap).1, { b' with world.heap := (f b'.world.heap).2 })
  rw [hb.world.heap]
  exact .ok ⟨⟨rfl, trivial⟩, hb.world.withHeap (hf _ hb.world.within), hb.locals, hb.stack⟩

theorem silent {x x' : Work α} (hx : Work.Silent x) (hx' : Work.Silent x') :
    v.Together known kinds (fun _ _ => True) kinds x x' := fun b b' hb =>
  alongside_of_wp (hx b) (hx' b') fun _ _ _ _ ht ht' =>
    ⟨trivial, hb.told ht ht'⟩

/-- Work that comes to a certain value, whatever it tells the store. -/
theorem settled {x x' : Work Value} {y : Value}
    (hx : ∀ b, Wp x (fun r t => r = y ∧ Work.Left b.world b.locals [] b.stack t)
      (fun _ _ => False) b)
    (hx' : ∀ b, Wp x' (fun r t => r = y ∧ Work.Left b.world b.locals [] b.stack t)
      (fun _ _ => False) b) :
    v.Together known kinds (fun r r' => r' = r ∧ r = y) kinds x x' := fun b b' hb =>
  alongside_of_wp (hx b) (hx' b') fun _ _ _ _ ht ht' =>
    ⟨⟨ht'.1.trans ht.1.symm, ht.1⟩, hb.told ht.2 ht'.2⟩

theorem point {x x' : Value} (hx : OperandKind.point.Admits x ∧ OperandKind.point.Admits x') :
    v.Together known kinds (fun _ _ => True) kinds (Work.fromHeap fun h => h.point x)
      (Work.fromHeap fun h => h.point x') := by
  obtain ⟨⟨p, rfl⟩, p', rfl⟩ := hx
  have hsilent (p : Option Point) : Work.Silent (Work.fromHeap fun h => h.point (.ofPoint p)) := by
    intro b
    rw [Work.wp_fromHeap, Work.point_ofPoint]
    exact ⟨.refl _, rfl, rfl⟩
  exact silent (hsilent p) (hsilent p')

theorem popInt (u : RunError) :
    v.Together known [] (fun n n' => n' = n ∧ True) [] (Work.popInt u) (Work.popInt u) :=
  (pop_operand u).follow fun _ _ => look _

theorem popTarget (u : RunError) (context : String) :
    v.Together known [] (fun o o' => o' = o ∧ True) [] (Work.popTarget u context)
      (Work.popTarget u context) :=
  (pop_operand u).follow fun _ _ => look _

/-! ### What hooks are made of -/

open Work

theorem storeElement {o : ObjectId} {index : Int32} {x : Value} (hx : x.Within known) :
    v.Together known kinds (fun _ _ => True) kinds (storeElement o index x)
      (storeElement o index x) := by
  unfold Work.storeElement
  refine (look _).follow fun i _ => ?_
  exact (onHeap (f := fun h => ((), h.putElement o i x)) fun _ hh => hh.putElement hx).mono
    fun _ _ _ => trivial

theorem changeHeap {f : Heap → Except RunError Heap}
    (hf : ∀ h h' : Heap, h.Within known → f h = .ok h' → h'.Within known) :
    v.Together known kinds (fun _ _ => True) kinds (changeHeap f) (changeHeap f) :=
  (fromHeap fun h hh h' => hf h h' hh).follow fun h hh =>
    (onHeap (f := fun _ => ((), h)) fun _ _ => hh).mono fun _ _ _ => trivial

theorem allocate {x : HeapObject} (hx : x.Within known) :
    v.Together known kinds (fun o o' => o' = o ∧ True) kinds (allocate x) (allocate x) :=
  onHeap fun _ hh => hh.allocate hx

/-- The world as it is, to show values in. -/
theorem world : v.Together known kinds (World.Same known) kinds
    (Action.inspect fun b => .ok b.world) (Action.inspect fun b => .ok b.world) :=
  fun _ _ hb => .ok ⟨hb.world, hb⟩

theorem elementPoint (o : Value) (index : Int32) :
    v.Together known kinds (fun _ _ => True) kinds (elementPoint inUse o index)
      (elementPoint inUse' o index) := by
  unfold Work.elementPoint Work.elementPointBy
  refine (look _).follow fun target _ => ?_
  cases target with
  | none => exact pure trivial
  | some o =>
    by_cases hindex : index < 0
    · simp only [hindex, if_true]
      exact pure trivial
    · simp only [hindex, if_false]
      exact silent (pointAt_silent o _) (pointAt_silent o _)

theorem storeWithPoint : v.Together known [.point] (fun _ _ => True) [] (storeWithPoint inUse)
    (storeWithPoint inUse') := by
  unfold Work.storeWithPoint Work.storeWithPointBy
  refine (pop_tracked _).bind fun p p' hp => (pop_operand _).follow fun x hx => ?_
  refine (popInt _).follow fun index _ => (popTarget _ _).follow fun array _ => ?_
  refine (storeElement hx).whatever fun _ _ => (point hp).whatever fun q q' => ?_
  exact (silent (setSource_silent array _ _ _ _) (setSource_silent array _ _ _ _)).whatever
    fun _ _ => pure trivial

theorem copyArray (args : List Value) : v.Together known kinds (fun _ _ => True) kinds
    (copyArray inUse args) (copyArray inUse' args) := by
  unfold Work.copyArray Work.copyArrayBy
  split
  · refine (look _).follow fun source _ => (look _).follow fun target _ => ?_
    refine (look _).follow fun position _ => (look _).follow fun start _ => ?_
    refine (look _).follow fun length _ => ?_
    refine (changeHeap fun _ _ hh => hh.copyRange).whatever fun _ _ => ?_
    refine (silent (trackerOf_silent source) (trackerOf_silent source)).whatever fun _ _ => ?_
    exact (silent (setSource_silent target _ _ _ _) (setSource_silent target _ _ _ _)).whatever
      fun _ _ => pure trivial
  · exact throw _

theorem copyLiteral (classId offset : Nat) (o : ObjectId) :
    v.Together known kinds (fun x x' => x' = x ∧ x.Within known) kinds
      (copyLiteral inUse classId offset o) (copyLiteral inUse' classId offset o) := by
  unfold Work.copyLiteral Work.copyLiteralBy
  refine (look _).follow fun text _ => ?_
  refine (allocate (HeapObject.within_ofText text)).follow fun copy _ => ?_
  -- the table may be there in one run only
  have hkept (b : Bench) : Wp (Pure.pure (.ref copy) : Work Value)
      (fun x t => x = .ref copy ∧ Left b.world b.locals [] b.stack t) (fun _ _ => False) b :=
    ⟨rfl, .refl _, rfl, rfl⟩
  have hpointed (inUse : Thunk (List Value)) (table : ConstantTable) (b : Bench) :
      Wp (do literalSource inUse copy text.toList table.tracker offset; return Value.ref copy)
        (fun x t => x = .ref copy ∧ Left b.world b.locals [] b.stack t) (fun _ _ => False) b := by
    rw [Action.wp_bind]
    exact (literalSource_silent copy _ _ _ b).mono (fun _ t ht => ⟨rfl, ht⟩) fun _ _ h => h
  have href : ∀ x x' : Value, x' = x ∧ x = .ref copy → x' = x ∧ x.Within known := by
    rintro _ x ⟨rfl, rfl⟩
    exact ⟨rfl, trivial⟩
  have htable : Silent (onStore fun s => (s.table classId, s)) := fun _ => ⟨.refl _, rfl, rfl⟩
  refine (silent htable htable).whatever fun table table' => ?_
  cases table with
  | error _ =>
    cases table' with
    | error _ => exact (settled hkept hkept).mono href
    | ok table' => exact (settled hkept (hpointed _ table')).mono href
  | ok table =>
    cases table' with
    | error _ => exact (settled (hpointed _ table) hkept).mono href
    | ok table' => exact (settled (hpointed _ table) (hpointed _ table')).mono href

/-- The text of operands is the same in both runs, whatever its sources are. -/
theorem joinTracked :
    ∀ (operands : List (Ty × Value)) (marks : List Char) (points : List (Value × Value))
    (start : Nat), (∀ e ∈ operands, e.2.Within known) →
    (∀ e ∈ points, OperandKind.point.Admits e.1 ∧ OperandKind.point.Admits e.2) →
    v.Together known kinds (fun r r' => r'.1 = r.1) kinds
      (joinTracked inUse start operands marks (points.map Prod.fst))
      (joinTracked inUse' start operands marks (points.map Prod.snd))
  | [], _, _, _, _, _ => pure rfl
  | _ :: _, [], _, _, _, _ => pure rfl
  | (t, x) :: operands, mark :: marks, points, start, hwithin, hpoints => by
    obtain ⟨hx, hwithin⟩ := List.forall_mem_cons.mp hwithin
    have hrest (text : List Char) (source source' : Option TextSource)
          (points : List (Value × Value))
        (hpoints : ∀ e ∈ points, OperandKind.point.Admits e.1 ∧ OperandKind.point.Admits e.2) :
        v.Together known kinds (fun r r' => r'.1 = r.1) kinds
          (do
            let rest ← Work.joinTracked inUse (start + text.length) operands marks
              (points.map Prod.fst)
            return (text ++ rest.1, source.toList ++ rest.2))
          (do
            let rest ← Work.joinTracked inUse' (start + text.length) operands marks
              (points.map Prod.snd)
            return (text ++ rest.1, source'.toList ++ rest.2)) :=
      (joinTracked operands marks points _ hwithin hpoints).bind fun r r' hr =>
        pure (congrArg (text ++ ·) hr)
    unfold Work.joinTracked
    refine world.bind fun w w' hw => ?_
    rw [hw.render t hx]
    by_cases hmark : mark = 'T'
    · simp only [hmark, if_true]
      cases points with
      | nil =>
        simp only [List.map_nil, pure_bind]
        exact hrest _ _ _ [] (by simp)
      | cons p points =>
        obtain ⟨hp, hpoints⟩ := List.forall_mem_cons.mp hpoints
        simp only [List.map_cons, pure_bind]
        exact (point hp).whatever fun _ _ => hrest _ _ _ points hpoints
    · simp only [hmark, if_false]
      cases x.object? with
      | none =>
        simp only [pure_bind]
        exact hrest _ _ _ points hpoints
      | some o =>
        simp only [pure_bind]
        exact (silent (trackerOf_silent o) (trackerOf_silent o)).whatever
          fun _ _ => hrest _ _ _ _ hpoints

theorem concatenate {args : List Ty} {mask : String} {values : List Value}
    {points : List (Value × Value)} (hvalues : ∀ x ∈ values, x.Within known)
    (hpoints : ∀ e ∈ points, OperandKind.point.Admits e.1 ∧ OperandKind.point.Admits e.2) :
    v.Together known kinds (fun x x' => x' = x ∧ x.Within known) kinds
      (concatenate inUse args mask values (points.map Prod.fst))
      (concatenate inUse' args mask values (points.map Prod.snd)) := by
  unfold Work.concatenate Work.concatenateBy
  refine (joinTracked _ _ _ 0 (fun e he => hvalues e.2 (List.of_mem_zip he).2) hpoints).bind
    fun r r' hr => ?_
  obtain ⟨text, sources⟩ := r
  obtain ⟨text', sources'⟩ := r'
  obtain rfl : text' = text := hr
  have hstring : (HeapObject.string text'.toArray).Within known := by
    simp [HeapObject.Within, HeapObject.contents]
  refine (allocate hstring).follow fun o _ => ?_
  exact (silent (recordSources_silent o sources) (recordSources_silent o sources')).whatever
    fun _ _ => pure ⟨rfl, trivial⟩

end Together

end Woven

/-! ## 3. Hooks -/

namespace Hook

/-- The points and records that a hook takes from the top. -/
def takes (h : Hook) : List OperandKind := h.operands.filter OperandKind.tracked

/-- The points and records that it leaves. -/
def leaves (h : Hook) : List OperandKind := h.results.filter OperandKind.tracked

/-- A hook that takes and leaves nothing else, and so never looks at an operand of the program. -/
def OnTop (h : Hook) : Prop := ∀ k ∈ h.operands ++ h.results, k.tracked = true

end Hook

namespace Woven

open Work

variable {v : Woven} {kinds : List OperandKind}

/-- A hook that looks at points and records only. -/
theorem together_on_top {h : Hook} (taken left : List OperandKind)
    (hwp : ∀ (inUse : Thunk (List Value)) (w : World) (L : Array Value) (xs S : List Value),
      List.Forall₂ OperandKind.Admits taken xs →
      Wp (hook inUse h) (fun _ t => ∃ ys, List.Forall₂ OperandKind.Admits left ys ∧ Left w L ys S t)
        (fun _ _ => False) ⟨w, L, xs ++ S⟩) :
    v.Together known (taken ++ kinds) (fun _ _ => True) (left ++ kinds) (hook inUse h)
      (hook inUse' h) := by
  rintro ⟨w, L, S⟩ ⟨w', L', S'⟩ hb
  obtain ⟨es, T, T', rfl, rfl, hes, hT⟩ := hb.stack.split
  have hfst : List.Forall₂ OperandKind.Admits taken (es.map Prod.fst) :=
    List.forall₂_map_right_iff.mpr (hes.imp fun _ _ h => h.1)
  have hsnd : List.Forall₂ OperandKind.Admits taken (es.map Prod.snd) :=
    List.forall₂_map_right_iff.mpr (hes.imp fun _ _ h => h.2)
  refine alongside_of_wp (hwp inUse w L _ T hfst) (hwp inUse' w' L' _ T' hsnd)
    fun _ t _ t' ht ht' => ⟨trivial, ?_⟩
  obtain ⟨ys, hys, hleft⟩ := ht
  obtain ⟨ys', hys', hleft'⟩ := ht'
  exact hb.left hT (fun hT => hT.append hys hys') hleft hleft'

/-- **A hook that finds what it expects** comes to the same in both runs. -/
theorem hook_together (h : Hook) (hkinds : h.OnTop ∨ kinds = []) :
    v.Together known (h.takes ++ kinds) (fun _ _ => True) (h.leaves ++ kinds) (hook inUse h)
      (hook inUse' h) := by
  have hbelow : ¬h.OnTop → kinds = [] := hkinds.resolve_left
  have hpoint {w : World} {L : Array Value} {S : List Value} {t : Bench} (h : LeftPoint w L S t) :
      ∃ ys, List.Forall₂ OperandKind.Admits [.point] ys ∧ Left w L ys S t :=
    let ⟨p, hleft⟩ := h
    ⟨_, .cons ⟨p, rfl⟩ .nil, hleft⟩
  have hrecord {w : World} {L : Array Value} {S : List Value} {t : Bench} (h : LeftRecord w L S t) :
      ∃ ys, List.Forall₂ OperandKind.Admits [.record] ys ∧ Left w L ys S t :=
    let ⟨r, hleft⟩ := h
    ⟨_, .cons ⟨r, rfl⟩ .nil, hleft⟩
  cases h with
  | constantPoint c =>
    refine together_on_top [] [.point] fun inUse w L xs S hxs => ?_
    obtain _ | _ := hxs
    exact (wp_constantPoint c).mono (fun _ _ ht => hpoint ht) fun _ _ he => he
  | elementPoint =>
    obtain rfl := hbelow (by simp [Hook.OnTop, Hook.operands, OperandKind.tracked])
    refine (Together.popInt _).follow fun index _ => (Together.pop_operand _).follow fun o _ => ?_
    exact (Together.elementPoint o index).whatever fun p p' =>
      Together.push_tracked ⟨⟨p, rfl⟩, p', rfl⟩
  | arrayStoreWithPoint elem =>
    obtain rfl := hbelow (by simp [Hook.OnTop, Hook.operands, OperandKind.tracked])
    exact Together.storeWithPoint
  | fieldPoint key =>
    obtain rfl := hbelow (by simp [Hook.OnTop, Hook.operands, OperandKind.tracked])
    refine (Together.pop_operand _).follow fun x _ => (Together.look _).follow fun target _ => ?_
    cases target with
    | none => exact Together.push_tracked ⟨⟨none, rfl⟩, none, rfl⟩
    | some o =>
      have hread : Silent (onStore fun s => (s.fieldPoint o key, s)) := fun _ => ⟨.refl _, rfl, rfl⟩
      exact (Together.silent hread hread).whatever fun p p' =>
        Together.push_tracked ⟨⟨p, rfl⟩, p', rfl⟩
  | setFieldPoint key =>
    obtain rfl := hbelow (by simp [Hook.OnTop, Hook.operands, OperandKind.tracked])
    refine (Together.pop_tracked _).bind fun p p' hp =>
      (Together.pop_operand _).follow fun x _ => ?_
    refine (Together.look _).follow fun target _ => ?_
    cases target with
    | none => exact Together.pure trivial
    | some o =>
      have hwrite (q : Option Point) : Silent (onStore fun s => ((), s.setFieldPoint o key q)) :=
        fun b => left_withStore
        (Store.remembers_of_records (b.world.store.setFieldPoint_records o key q))
          rfl
      exact (Together.point hp).whatever fun q q' => Together.silent (hwrite q) (hwrite q')
  | invocationCreate signature =>
    refine together_on_top [] [.record] fun inUse w L xs S hxs => ?_
    obtain _ | _ := hxs
    exact (wp_invocationCreate signature).mono (fun _ _ ht => hrecord ht) fun _ _ he => he
  | invocationSetArg slot =>
    refine together_on_top [.point, .record] [.record] fun inUse w L xs S hxs => ?_
    obtain _ | ⟨⟨p, rfl⟩, _ | ⟨⟨r, rfl⟩, _ | _⟩⟩ := hxs
    exact (wp_invocationSetArg slot p r).mono (fun _ _ ht => hrecord ⟨r, ht⟩) fun _ _ he => he
  | invocationCalling =>
    refine together_on_top [.record] [.record] fun inUse w L xs S hxs => ?_
    obtain _ | ⟨⟨r, rfl⟩, _ | _⟩ := hxs
    exact (wp_invocationCalling r).mono (fun _ _ ht => hrecord ⟨r, ht⟩) fun _ _ he => he
  | invocationStart signature =>
    refine together_on_top [] [.record] fun inUse w L xs S hxs => ?_
    obtain _ | _ := hxs
    exact (wp_invocationStart signature).mono (fun _ _ ht => hrecord ht) fun _ _ he => he
  | invocationArgPoint slot =>
    refine together_on_top [.record] [.point] fun inUse w L xs S hxs => ?_
    obtain _ | ⟨⟨r, rfl⟩, _ | _⟩ := hxs
    exact (wp_invocationArgPoint slot r).mono (fun _ _ ht => hpoint ht) fun _ _ he => he
  | invocationReturnPoint =>
    refine together_on_top [.record] [.point] fun inUse w L xs S hxs => ?_
    obtain _ | ⟨⟨r, rfl⟩, _ | _⟩ := hxs
    exact (wp_invocationReturnPoint r).mono (fun _ _ ht => hpoint ht) fun _ _ he => he
  | invocationReturning =>
    refine together_on_top [.point, .record] [] fun inUse w L xs S hxs => ?_
    obtain _ | ⟨⟨p, rfl⟩, _ | ⟨⟨r, rfl⟩, _ | _⟩⟩ := hxs
    exact (wp_invocationReturning p r).mono (fun _ _ ht => ⟨[], .nil, ht⟩) fun _ _ he => he
  | stringEquals =>
    obtain rfl := hbelow (by simp [Hook.OnTop, Hook.operands, OperandKind.tracked])
    refine (Together.pop_operand _).follow fun y _ => (Together.pop_operand _).follow fun x _ => ?_
    exact (Together.look _).follow fun same _ => Together.push_operand trivial
  | concatWithPoints args mask =>
    obtain rfl := hbelow (by simp [Hook.OnTop, Hook.results, OperandKind.tracked])
    have htakes : (Hook.concatWithPoints args mask).takes =
        List.replicate (markedCount mask) .point := by
      simp [Hook.takes, Hook.operands, OperandKind.tracked]
    rw [htakes]
    refine (Together.popMany_tracked _ _).bind fun xs xs' hxs => ?_
    obtain ⟨es, rfl, rfl, hes⟩ := hxs
    refine (Together.popMany_operands _ _).follow fun values hvalues => ?_
    exact (Together.concatenate hvalues hes).follow fun x hx => Together.push_operand hx
  | constantString classId offset =>
    obtain rfl := hbelow (by simp [Hook.OnTop, Hook.operands, OperandKind.tracked])
    refine (Together.pop_operand _).follow fun x _ => (Together.look _).follow fun target _ => ?_
    cases target with
    | none => exact Together.push_operand trivial
    | some o =>
      exact (Together.copyLiteral classId offset o).follow fun x hx => Together.push_operand hx
  | arrayCopy =>
    obtain rfl := hbelow (by simp [Hook.OnTop, Hook.operands, OperandKind.tracked])
    exact (Together.popMany_operands _ 5).follow fun args _ => Together.copyArray args
  | arrayClone =>
    obtain rfl := hbelow (by simp [Hook.OnTop, Hook.operands, OperandKind.tracked])
    rintro ⟨w, L, S⟩ ⟨w', L', S'⟩ ⟨hw, hL, hS⟩
    obtain ⟨hS⟩ := hS
    cases S with
    | nil => exact .failed _ hw
    | cons x S =>
      have hheap : w'.heap = w.heap := hw.heap
      have hwp' := @wp_arrayClone w' L' S inUse' x
      rw [hheap] at hwp'
      refine alongside_of_exact hw (wp_arrayClone x) hwp' fun z _ t _ t' hz ht ht' => ⟨trivial, ?_⟩
      obtain ⟨o, -, hdup⟩ := Heap.bind_eq_ok.mp hz
      have hsame := hw.withHeap (hw.within.allocate (hw.within.duplicate hdup))
      refine ⟨hsame.both ht.world ht'.world, ht.locals ▸ ht'.locals ▸ hL, ?_⟩
      rw [ht.stack, ht'.stack]
      exact .operands (List.forall_mem_cons.mpr ⟨trivial, (List.forall_mem_cons.mp hS).2⟩)

/-! ## 4. Instructions -/

/-- How an instruction of woven code changes what lies on top: the woven code's own, and the
operands of the program below. -/
inductive Turns (v : Woven) : Insn → List OperandKind → List OperandKind → Prop where
  /-- An instruction of the program, which finds none of what woven code keeps. -/
  | program {i : Insn} (hhook : ∀ h, i ≠ .hook h)
      (hlocal : ∀ l, i.local? = some l → l < v.method.maxLocals) : Turns v i [] []
  | hook {h : Hook} {kinds : List OperandKind} (hkinds : h.OnTop ∨ kinds = []) :
      Turns v (.hook h) (h.takes ++ kinds) (h.leaves ++ kinds)
  | null {k : OperandKind} (kinds : List OperandKind) (hk : k.tracked = true) :
      Turns v (.const .null) kinds (k :: kinds)
  | load {u : LocalUse} {l : Nat} (hl : v.plan.localOf u = some l) (kinds : List OperandKind) :
      Turns v (.load l) kinds (u.kind :: kinds)
  | store {k : OperandKind} {l : Nat} (hl : v.method.maxLocals ≤ l ∧ l < v.plan.nextLocal)
      (hk : ∀ u, v.plan.localOf u = some l → u.kind = k) (kinds : List OperandKind) :
      Turns v (.store l) (k :: kinds) kinds
  | drop (k : OperandKind) (kinds : List OperandKind) : Turns v .pop (k :: kinds) kinds

/-- **An instruction of the program** finds the same in both runs. -/
theorem program_together {i : Insn} (hhook : ∀ h, i ≠ .hook h)
    (hlocal : ∀ l, i.local? = some l → l < v.method.maxLocals) (method : String) (u : RunError)
    (inUse inUse' : Thunk (List Value)) :
    v.Together known [] (fun t t' => t' = t ∧ t.Within known) [] (perform method u inUse i)
      (perform method u inUse' i) := by
  rintro ⟨w, L, S⟩ ⟨w', L', S'⟩ ⟨hw, ⟨L₀, hL, hL'⟩, hS⟩
  obtain ⟨hS⟩ := hS
  -- both do what it would do without the locals of woven code
  obtain ⟨extra, halike, htyped⟩ :=
    (show v.Mirrors known [] ⟨w, L₀, S⟩ ⟨w, L, S⟩ from ⟨hw.self, hL, rfl, hS⟩).alike
  obtain ⟨extra', halike', htyped'⟩ :=
    (show v.Mirrors known [] ⟨w, L₀, S⟩ ⟨w', L', S⟩ from ⟨hw, hL', rfl, hS⟩).alike
  have hdone := perform_matched method method (u := u) rfl inUse inUse hhook
    (fun l hl => .inl (hlocal l hl)) _ _ halike
  have hdone' := perform_matched method method (u := u) rfl inUse inUse' hhook
    (fun l hl => .inl (hlocal l hl)) _ _ halike'
  have hfails {e e' : RunError} {c c' : Bench}
      (h : (perform method u inUse i).outcome ⟨w, L, S⟩ = (.error e, c))
      (h' : (perform method u inUse' i).outcome ⟨w', L', S⟩ = (.error e', c')) : e' = e :=
    perform_fails_alike hhook ⟨hw.heap, hw.literals, rfl⟩ h h'
  generalize (perform method u inUse i).outcome ⟨w, L₀, S⟩ = r₀ at hdone hdone'
  generalize (perform method u inUse i).outcome ⟨w, L, S⟩ = r at hdone hfails ⊢
  generalize (perform method u inUse' i).outcome ⟨w', L', S⟩ = r' at hdone' hfails ⊢
  cases hdone with
  | @ok t b₀ b ht h =>
    cases hdone' with
    | @ok _ _ b' _ h' =>
      have hm := mirrors_of_alike h htyped
      have hm' := mirrors_of_alike h' htyped'
      refine .ok ⟨⟨rfl, ht⟩, hm.world.common hm'.world, ⟨_, hm.locals, hm'.locals⟩, ?_⟩
      rw [hm.stack, hm'.stack]
      exact .operands hm.within
  | @failed e₀ e b₀ b _ h =>
    cases hdone' with
    | @failed _ e' _ b' _ h' =>
      rw [hfails rfl rfl]
      exact .failed e (h.world.common h'.world)

/-- **An instruction of woven code** comes to the same in both runs, or fails in the same words. -/
theorem perform_together {kinds' : List OperandKind} {i : Insn} (hi : v.Turns i kinds kinds')
    (method : String) (u : RunError) (inUse inUse' : Thunk (List Value)) :
    v.Together known kinds (fun t t' => t' = t ∧ t.Within known) kinds' (perform method u inUse i)
      (perform method u inUse' i) := by
  cases hi with
  | program hhook hlocal => exact program_together hhook hlocal method u inUse inUse'
  | hook hkinds =>
    unfold perform
    exact (hook_together _ hkinds).whatever fun _ _ => Together.pure ⟨rfl, trivial⟩
  | @null k kinds hk =>
    have hnull : k.Admits .null := by
      cases k <;> simp [OperandKind.tracked] at hk
      · exact ⟨none, rfl⟩
      · exact ⟨none, rfl⟩
    exact fun _ _ hb => .ok ⟨⟨rfl, trivial⟩, hb.world, hb.locals, .tracked ⟨hnull, hnull⟩ hb.stack⟩
  | @load use l hl =>
    rintro ⟨w, L, S⟩ ⟨w', L', S'⟩ ⟨hw, ⟨L₀, hL, hL'⟩, hS⟩
    obtain ⟨x, hx, hholds⟩ := hL.holds hl
    obtain ⟨x', hx', hholds'⟩ := hL'.holds hl
    have hload {w : World} {L : Array Value} {S : List Value} {x : Value} (hx : L[l]? = some x)
        (inUse : Thunk (List Value)) : Wp (perform method u inUse (.load l))
          (fun t b => t = .next ∧ b = ⟨w, L, x :: S⟩) (fun _ _ => False) ⟨w, L, S⟩ := by
      simp only [perform, Action.wp_bind, wp_loadLocal, hx, wp_push, Action.wp_pure, and_self]
    refine alongside_of_wp (hload hx inUse) (hload hx' inUse') fun t b t' b' ht ht' => ?_
    obtain ⟨rfl, rfl⟩ := ht
    obtain ⟨rfl, rfl⟩ := ht'
    exact ⟨⟨rfl, trivial⟩, hw, ⟨L₀, hL, hL'⟩, .tracked ⟨LocalUse.holds_iff.mp hholds,
      LocalUse.holds_iff.mp hholds'⟩ hS⟩
  | @store k l hl hk =>
    rintro ⟨w, L, S⟩ ⟨w', L', S'⟩ ⟨hw, ⟨L₀, hL, hL'⟩, hS⟩
    obtain _ | ⟨hx, hS⟩ := hS
    have hstore {w : World} {L : Array Value} {S : List Value} {x : Value}
        (hsize : L.size = v.plan.nextLocal) (inUse : Thunk (List Value)) :
        Wp (perform method u inUse (.store l))
          (fun t b => t = .next ∧ b = ⟨w, L.setIfInBounds l x, S⟩) (fun _ _ => False)
              ⟨w, L, x :: S⟩ := by
      have hlt : l < L.size := by omega
      simp only [perform, Action.wp_bind, wp_pop_cons, wp_storeLocal, hlt, if_true, Action.wp_pure,
        and_self]
    refine alongside_of_wp (hstore hL.size_woven inUse) (hstore hL'.size_woven inUse')
      fun t b t' b' ht ht' => ?_
    obtain ⟨rfl, rfl⟩ := ht
    obtain ⟨rfl, rfl⟩ := ht'
    refine ⟨⟨rfl, trivial⟩, hw,
      ⟨L₀, hL.store hl.1 fun u hu => ?_, hL'.store hl.1 fun u hu => ?_⟩, hS⟩
    · exact LocalUse.holds_iff.mpr (hk u hu ▸ hx.1)
    · exact LocalUse.holds_iff.mpr (hk u hu ▸ hx.2)
  | drop k =>
    exact (Together.pop_tracked u).bind fun _ _ _ => Together.pure ⟨rfl, trivial⟩

end Woven

end Provenance
