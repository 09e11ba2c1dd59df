/-
# Woven code beside the original

`Woven.Mirrors` compares the bench of a woven method with that of the original: the same world but
for provenance, the same locals with those of the woven code above them, and on the stack what
woven code has pushed so far (`top`) above the same operands.  The locals of woven code hold what
they are for: points, or call records (`LocalUse.Holds`).

With that, none of the code that weaving puts in gets in the way.  Most pieces cannot fail at all
(`Woven.Quiet`); the readers in front of a read and the code in front of a store to a field fail
only on operands on which the read or the store fails in the same kind of way.
-/
import Provenance.Proofs.Replacing
import Provenance.Proofs.Weaving

namespace Provenance

/-- What a local of woven code holds. -/
def LocalUse.Holds : LocalUse → Value → Prop
  | .point _, x | .merge _, x => ∃ point, x = .ofPoint point
  | .record _, x | .own, x => ∃ record, x = .ofRecord record

theorem LocalUse.holds_null (u : LocalUse) : u.Holds .null := by
  cases u <;> exact ⟨none, rfl⟩

namespace Woven

open Work (Through Left LeftPoint LeftRecord)
open Provenance.Action (Wp)

/-- The values of the locals of woven code. -/
structure Typed (v : Woven) (extra : List Value) : Prop where
  length : extra.length = v.plan.nextLocal - v.method.maxLocals
  holds : ∀ u l, v.plan.localOf u = some l → ∀ x, extra[l - v.method.maxLocals]? = some x →
    u.Holds x

/-- The locals of the original and those of the woven method. -/
structure Beside (v : Woven) (known : Nat → Prop) (L L' : Array Value) : Prop where
  split : ∃ extra, L'.toList = L.toList ++ extra ∧ v.Typed extra
  size : L.size = v.method.maxLocals
  within : ∀ x ∈ L.toList, x.Within known

/-- The bench of the original and that of the woven method, which has more on its stack. -/
structure Mirrors (v : Woven) (known : Nat → Prop) (top : List Value) (b b' : Bench) : Prop where
  world : World.Same known b.world b'.world
  locals : v.Beside known b.locals b'.locals
  stack : b'.stack = top ++ b.stack
  within : ∀ x ∈ b.stack, x.Within known

variable {v : Woven} {known : Nat → Prop} {top : List Value} {b b' b'' : Bench}

/-! ## 1. Locals -/

/-- The locals of woven code lie above those of the method. -/
theorem above (v : Woven) {u : LocalUse} {l : Nat} (hl : v.plan.localOf u = some l) :
    v.method.maxLocals ≤ l ∧ l < v.plan.nextLocal := v.planned.above u l hl

theorem room (v : Woven) : v.method.maxLocals ≤ v.plan.nextLocal := v.planned.room

/-- A local of woven code holds what it is for. -/
theorem Beside.holds {L L' : Array Value} (h : v.Beside known L L') {u : LocalUse} {l : Nat}
    (hl : v.plan.localOf u = some l) : ∃ x, L'[l]? = some x ∧ u.Holds x := by
  obtain ⟨extra, hsplit, htyped⟩ := h.split
  have habove := v.above hl
  have hlt : l - v.method.maxLocals < extra.length := by
    rw [htyped.length]
    omega
  refine ⟨extra[l - v.method.maxLocals], ?_, htyped.holds u l hl _ (List.getElem?_eq_getElem hlt)⟩
  rw [← Array.getElem?_toList, hsplit, List.getElem?_append_right, Array.length_toList, h.size,
    List.getElem?_eq_getElem hlt]
  rw [Array.length_toList, h.size]
  exact habove.1

theorem Beside.size_woven {L L' : Array Value} (h : v.Beside known L L') :
    L'.size = v.plan.nextLocal := by
  obtain ⟨extra, hsplit, htyped⟩ := h.split
  have hroom := v.room
  rw [← Array.length_toList, hsplit, List.length_append, Array.length_toList, h.size, htyped.length]
  omega

/-- Storing in a local of woven code what it is for. -/
theorem Beside.store {L L' : Array Value} (h : v.Beside known L L') {l : Nat}
    (hl : v.method.maxLocals ≤ l) {x : Value} (hx : ∀ u, v.plan.localOf u = some l → u.Holds x) :
    v.Beside known L (L'.setIfInBounds l x) := by
  obtain ⟨extra, hsplit, htyped⟩ := h.split
  refine ⟨⟨extra.set (l - v.method.maxLocals) x, ?_, ?_, fun u l' hl' y hy => ?_⟩, h.size, h.within⟩
  · rw [Array.toList_setIfInBounds, hsplit, List.set_append_right, Array.length_toList, h.size]
    rwa [Array.length_toList, h.size]
  · rw [List.length_set, htyped.length]
  · rw [List.getElem?_set] at hy
    have habove := v.above hl'
    split at hy
    · rename_i heq
      have hsame : l' = l := by omega
      split at hy
      · rw [← Option.some.inj hy]
        exact hx u (hsame ▸ hl')
      · exact absurd hy (by simp)
    · exact htyped.holds u l' hl' y hy

/-- Benches of a woven method and its original are alike for the instructions of the original. -/
theorem Mirrors.alike (h : v.Mirrors known [] b b') :
    ∃ extra, Bench.Alike known v.method.maxLocals extra b b' ∧ v.Typed extra := by
  obtain ⟨extra, hsplit, htyped⟩ := h.locals.split
  exact ⟨extra, ⟨h.world, hsplit, h.locals.size, h.stack, h.locals.within, h.within⟩, htyped⟩

theorem mirrors_of_alike {extra : List Value}
    (h : Bench.Alike known v.method.maxLocals extra b b') (htyped : v.Typed extra) :
    v.Mirrors known [] b b' :=
  ⟨h.world, ⟨⟨extra, h.locals, htyped⟩, h.size, h.localsWithin⟩, h.stack, h.stackWithin⟩

/-- After a hook that changed only the store and the top of the stack. -/
theorem Mirrors.left (h : v.Mirrors known top b b') {values : List Value} (top' : List Value)
    (hb : Left b'.world b'.locals values (top' ++ b.stack) b'') :
    v.Mirrors known (values ++ top') b b'' :=
  ⟨h.world.follows hb.world, hb.locals ▸ h.locals, by rw [hb.stack, List.append_assoc], h.within⟩

/-! ## 2. Single instructions -/

variable {E : RunError → Bench → Prop} {P : Bench → Prop} {rest : List Insn}

theorem through_hook {h : Hook}
    (hwp : ∀ inUse, Wp (Work.hook inUse h) (fun _ b => Through E rest P b) E b') :
    Through E (.hook h :: rest) P b' := by
  intro method pc inUse
  unfold Work.perform
  rw [Action.wp_bind]
  exact (hwp inUse).mono (fun _ _ hb => ⟨rfl, hb⟩) fun _ _ he => he

theorem through_null (hm : v.Mirrors known top b b')
    (hrest : ∀ b'', v.Mirrors known (.null :: top) b b'' → Through E rest P b'') :
    Through E (.const .null :: rest) P b' := by
  intro method pc inUse
  refine ⟨rfl, hrest _ ⟨hm.world, hm.locals, ?_, hm.within⟩⟩
  exact congrArg (Value.null :: ·) hm.stack

theorem through_load {u : LocalUse} {l : Nat} (hl : v.plan.localOf u = some l)
    (hm : v.Mirrors known top b b')
    (hrest : ∀ x b'', u.Holds x → v.Mirrors known (x :: top) b b'' → Through E rest P b'') :
    Through E (.load l :: rest) P b' := by
  intro method pc inUse
  obtain ⟨x, hx, hholds⟩ := hm.locals.holds hl
  simp only [Work.perform, Action.wp_bind, Work.wp_loadLocal, hx, Work.wp_push, Action.wp_pure]
  refine ⟨trivial, hrest x _ hholds ⟨hm.world, hm.locals, ?_, hm.within⟩⟩
  exact congrArg (x :: ·) hm.stack

theorem through_store {l : Nat} (hl : v.method.maxLocals ≤ l ∧ l < v.plan.nextLocal) {x : Value}
    (hx : ∀ u, v.plan.localOf u = some l → u.Holds x) (hm : v.Mirrors known (x :: top) b b')
    (hrest : ∀ b'', v.Mirrors known top b b'' → Through E rest P b'') :
    Through E (.store l :: rest) P b' := by
  intro method pc inUse
  have hsize := hm.locals.size_woven
  have hin : l < b'.locals.size := by omega
  obtain ⟨w, L, S⟩ := b'
  obtain rfl : S = x :: (top ++ b.stack) := hm.stack
  simp only [Work.perform, Action.wp_bind, Work.wp_pop_cons, Work.wp_storeLocal, hin, if_true,
    Action.wp_pure]
  exact ⟨trivial, hrest _ ⟨hm.world, hm.locals.store hl.1 hx, rfl, hm.within⟩⟩

/-- Storing in a local what it is for. -/
theorem through_storeFor {u : LocalUse} {l : Nat} (hl : v.plan.localOf u = some l) {x : Value}
    (hx : u.Holds x) (hm : v.Mirrors known (x :: top) b b')
    (hrest : ∀ b'', v.Mirrors known top b b'' → Through E rest P b'') :
    Through E (.store l :: rest) P b' := by
  refine through_store (v.above hl) (fun u' hl' => ?_) hm hrest
  rwa [v.planned.apart u' u l hl' hl]

/-! ## 3. Points -/

/-- A hook that leaves a point. -/
theorem through_pointHook {h : Hook} (args : List Value)
    (hm : v.Mirrors known (args ++ top) b b')
    (hwp : ∀ (inUse : Thunk (List Value)) (w : World) (L : Array Value) (S : List Value),
      Wp (Work.hook inUse h) (fun _ => LeftPoint w L S) (fun _ _ => False) ⟨w, L, args ++ S⟩)
    (hrest : ∀ point b'', v.Mirrors known (.ofPoint point :: top) b b'' → Through E rest P b'') :
    Through E (.hook h :: rest) P b' := by
  obtain ⟨w, L, S⟩ := b'
  obtain rfl : S = args ++ top ++ b.stack := hm.stack
  refine through_hook fun inUse => ?_
  rw [List.append_assoc]
  refine (hwp inUse w L (top ++ b.stack)).mono (fun _ b'' hb => ?_) fun _ _ he => he.elim
  obtain ⟨point, hleft⟩ := hb
  exact hrest point b'' (hm.left top hleft)

/-- **Pushing the point of a value** cannot fail. -/
theorem through_loading {code : List Insn} (h : v.plan.Loading code)
    (hm : v.Mirrors known top b b')
    (hrest : ∀ point b'', v.Mirrors known (.ofPoint point :: top) b b'' → Through E rest P b'') :
    Through E (code ++ rest) P b' := by
  cases h with
  | constant place =>
    exact through_pointHook [] hm (fun _ _ _ _ => Work.wp_constantPoint place) hrest
  | null => exact through_null hm fun b'' hb => hrest none b'' hb
  | read hl =>
    refine through_load hl hm fun x b'' hx hb => ?_
    obtain ⟨point, rfl⟩ := hx
    exact hrest point b'' hb
  | merge hl =>
    refine through_load hl hm fun x b'' hx hb => ?_
    obtain ⟨point, rfl⟩ := hx
    exact hrest point b'' hb
  | result hl =>
    refine through_load hl hm fun x b'' hx hb => ?_
    obtain ⟨record, rfl⟩ := hx
    exact through_pointHook [.ofRecord record] hb
      (fun _ _ _ _ => Work.wp_invocationReturnPoint record) hrest
  | argument n hl =>
    refine through_load hl hm fun x b'' hx hb => ?_
    obtain ⟨record, rfl⟩ := hx
    exact through_pointHook [.ofRecord record] hb
      (fun _ _ _ _ => Work.wp_invocationArgPoint n record) hrest

/-! ## 4. Code that cannot fail -/

/-- Code that keeps the benches as they are, but for what woven code keeps to itself. -/
def Quiet (v : Woven) (known : Nat → Prop) (code : List Insn) : Prop :=
  ∀ b b', v.Mirrors known [] b b' → Through (fun _ _ => False) code (v.Mirrors known [] b) b'

theorem quiet_nil : v.Quiet known [] := fun _ _ hm => hm

theorem Quiet.append {code : List Insn} (h : v.Quiet known code) (hrest : v.Quiet known rest) :
    v.Quiet known (code ++ rest) :=
  fun b b' hm => (h b b' hm).append fun b'' hm => hrest b b'' hm

theorem quiet_flatMap {α : Type} {f : α → List Insn} {l : List α}
    (h : ∀ a ∈ l, v.Quiet known (f a)) : v.Quiet known (l.flatMap f) :=
  fun b _ hm => Work.through_flatMap (fun a ha b'' hm => h a ha b b'' hm) hm

theorem quiet_codeAt {k : Nat} {edits : List (Nat × List Insn)}
    (h : ∀ e ∈ edits, e.1 = k → v.Quiet known e.2) : v.Quiet known (Plan.codeAt k edits) := by
  refine quiet_flatMap fun e he => ?_
  obtain ⟨j, code⟩ := e
  simp only
  split
  · rename_i hj
    exact h _ he hj
  · exact quiet_nil

/-- Noting the point of a member. -/
theorem quiet_stash {code : List Insn} {slot : MergeSlot} {l : Nat} (hcode : v.plan.Loading code)
    (hl : v.plan.localOf (.merge slot) = some l) : v.Quiet known (code ++ [.store l]) :=
  fun _ _ hm => through_loading hcode hm fun point _ hb =>
    through_storeFor hl ⟨point, rfl⟩ hb fun _ hb => hb

/-- Handing the point of the result to the caller. -/
theorem quiet_returning {code : List Insn} {l : Nat} (hcode : v.plan.Loading code)
    (hl : v.plan.localOf .own = some l) :
    v.Quiet known (.load l :: code ++ [.hook .invocationReturning]) := by
  intro b b' hm
  refine through_load hl hm fun x b₁ hx hb => ?_
  obtain ⟨record, rfl⟩ := hx
  refine through_loading hcode hb fun point b₂ hb => ?_
  obtain ⟨w, L, S⟩ := b₂
  obtain rfl : S = .ofPoint point :: .ofRecord record :: b.stack := hb.stack
  refine through_hook fun inUse => ?_
  refine (Work.wp_invocationReturning point record).mono (fun _ b'' hleft => ?_) fun _ _ he => he
  exact hb.left [] hleft

/-- The code that gives a call its record. -/
theorem quiet_recordCode {k : Nat} {i : Insn} (hi : v.method.insns[k]? = some i) :
    v.Quiet known (v.plan.recordCode k i) := by
  rcases Plan.recordCode_cases v.planned hi with hnone | ⟨m, put, rfl, -, hput, hcode⟩
  · rw [hnone]
    exact quiet_nil
  · rw [hcode]
    intro b b' hm
    refine through_hook fun inUse => ?_
    obtain ⟨w, L, S⟩ := b'
    obtain rfl : S = b.stack := hm.stack
    refine (Work.wp_invocationCreate m.signature).mono (fun _ b₁ hb => ?_) fun _ _ he => he
    obtain ⟨record, hleft⟩ := hb
    have hm₁ : v.Mirrors known [.ofRecord record] b b₁ := hm.left [] hleft
    refine Work.Through.append (Work.through_flatMap (P := v.Mirrors known [.ofRecord record] b)
      (fun e he b₂ hm => ?_) hm₁) fun b₃ hm => ?_
    · obtain ⟨_, _, _, _, _, hcode⟩ := (v.planned.arguments e (List.mem_filter.mp he).1).call
      refine through_loading (Plan.loading_of_loadPoint hcode) hm fun point b₃ hb => ?_
      obtain ⟨w, L, S⟩ := b₃
      obtain rfl : S = .ofPoint point :: .ofRecord record :: b.stack := hb.stack
      refine through_hook fun inUse => ?_
      refine (Work.wp_invocationSetArg _ point record).mono (fun _ b'' hleft => ?_)
        fun _ _ he => he
      exact hb.left [] hleft
    · obtain ⟨w, L, S⟩ := b₃
      obtain rfl : S = .ofRecord record :: b.stack := hm.stack
      refine through_hook fun inUse => ?_
      refine (Work.wp_invocationCalling record).mono (fun _ b₄ hleft => ?_) fun _ _ he => he
      have hm₄ : v.Mirrors known [.ofRecord record] b b₄ := hm.left [] hleft
      cases hput with
      | kept hl => exact through_storeFor hl ⟨record, rfl⟩ hm₄ fun _ hb => hb
      | dropped =>
        intro method pc inUse
        obtain ⟨w, L, S⟩ := b₄
        obtain rfl : S = .ofRecord record :: b.stack := hm₄.stack
        exact ⟨rfl, hm₄.world, hm₄.locals, rfl, hm₄.within⟩

/-- The prologue. -/
theorem quiet_prologue (v : Woven) : v.Quiet known (v.plan.prologue v.method) := by
  unfold Plan.prologue
  refine Quiet.append (quiet_flatMap fun l hl b b' hm => ?_) ?_
  · exact through_null hm fun b'' hb =>
      through_store (v.planned.nulls l hl) (fun u _ => u.holds_null) hb fun _ hb => hb
  · cases hown : v.plan.ownRecord with
    | none => exact quiet_nil
    | some l =>
      intro b b' hm
      obtain ⟨w, L, S⟩ := b'
      obtain rfl : S = b.stack := hm.stack
      refine through_hook fun inUse => ?_
      refine (Work.wp_invocationStart v.method.signature).mono (fun _ b₁ hb => ?_) fun _ _ he => he
      obtain ⟨record, hleft⟩ := hb
      exact through_storeFor (u := .own) hown ⟨record, rfl⟩ (hm.left [] hleft)
        fun _ hb => hb

/-- The code behind an instruction that is no string literal that becomes an instance of its own. -/
theorem quiet_behind {k : Nat} (hliteral : ∀ text, v.method.insns[k]? = some (.const (.str text)) →
    ⟨k, .stringLiteral text⟩ ∉ v.sites) : v.Quiet known (v.plan.behind k) := by
  refine quiet_codeAt fun e he hk => ?_
  obtain ⟨j, code⟩ := e
  obtain rfl : j = k := hk
  have hpiece := v.planned.after _ he
  simp only at hpiece
  cases hpiece with
  | member hl _ _ _ hcode => exact quiet_stash (Plan.loading_of_loadPoint hcode) hl
  | literal hsite hi => exact absurd hsite (hliteral _ hi)

/-! ## 5. Code that fails where the instruction fails -/

/-- The instructions that read an element. -/
def Reads (i : Insn) : Prop :=
  (∃ t, i = .arrayLoad t) ∨ ∃ m, i = .invoke m ∧ Carrier.isCharAt m = true

/-- Operands on which an instruction cannot be done. -/
inductive Refused (b : Bench) (e : RunError) : Insn → Prop where
  | index {i : Insn} {index array : Value} {S : List Value} (hi : Reads i)
      (hs : b.stack = index :: array :: S) (h : b.world.heap.int index = .error e) : Refused b e i
  | array {i : Insn} {index array : Value} {S : List Value} {n : Int32} (hi : Reads i)
      (hs : b.stack = index :: array :: S) (hn : b.world.heap.int index = .ok n)
      (h : b.world.heap.reference array = .error e) : Refused b e i
  | field {f : FieldRef} {o : Value} {S : List Value} (hs : b.stack = o :: S)
      (h : b.world.heap.reference o = .error e) : Refused b e (.getField f)
  | fieldStore {f : FieldRef} {x o : Value} {S : List Value} (hs : b.stack = x :: o :: S)
      (h : b.world.heap.reference o = .error e) : Refused b e (.putField f)

theorem exists_cons_cons {α : Type} {l : List α} (h : 2 ≤ l.length) :
    ∃ a b rest, l = a :: b :: rest := by
  match l, h with
  | a :: b :: rest, _ => exact ⟨a, b, rest, rfl⟩

/-- **The code before an instruction** fails only on operands on which the instruction fails. -/
theorem through_before {k : Nat} {i : Insn} {code : List Insn}
    (hi : v.method.insns[k]? = some i) (hheight : i.pops ≤ b.stack.length)
    (hread : Reads i → i.pops = 2) (hpiece : Plan.BeforePiece v.context v.plan k code)
    (hm : v.Mirrors known [] b b')
    (hE : ∀ e b'', Refused b e i → World.Same known b.world b''.world → E e b'') :
    Through E code (v.Mirrors known [] b) b' := by
  have hquiet {code : List Insn} (h : v.Quiet known code) :
      Through E code (v.Mirrors known [] b) b' :=
    (h b b' hm).mono (fun _ h => h) fun _ _ he => he.elim
  cases hpiece with
  | join hl _ _ hcode => exact hquiet (quiet_stash (Plan.loading_of_loadPoint hcode) hl)
  | returning _ _ _ hl hcode => exact hquiet (quiet_returning (Plan.loading_of_loadPoint hcode) hl)
  | element hl hreads =>
    have hreads' : Reads i := by
      rcases hreads with ⟨t, ht⟩ | ⟨m, hm, hchar⟩
      · exact Or.inl ⟨t, Option.some.inj (hi.symm.trans ht)⟩
      · exact Or.inr ⟨m, Option.some.inj (hi.symm.trans hm), hchar⟩
    obtain ⟨index, array, S, hs⟩ := exists_cons_cons (hread hreads' ▸ hheight)
    have hstack : b'.stack = index :: array :: S := hm.stack.trans hs
    intro method pc inUse
    obtain ⟨w, L, _⟩ := b'
    subst hstack
    simp only [Work.perform, Action.wp_bind, Work.wp_pop_cons, Work.wp_push, Action.wp_pure]
    refine ⟨trivial, through_hook fun inUse => ?_⟩
    refine (Work.wp_elementPoint (E := E) index array ?_ ?_).mono (fun _ b₁ hb => ?_)
      fun _ _ he => he
    · intro e b'' he hw
      exact hE e b'' (.index hreads' hs (hm.world.heap ▸ he)) (hm.world.follows hw)
    · intro n e b'' hn he hw
      exact hE e b'' (.array hreads' hs (hm.world.heap ▸ hn) (hm.world.heap ▸ he))
        (hm.world.follows hw)
    · obtain ⟨point, hleft⟩ := hb
      have hm₁ : v.Mirrors known [.ofPoint point] b b₁ :=
        hm.left [] (hs ▸ hleft)
      exact through_storeFor (u := .point k) hl ⟨point, rfl⟩ hm₁ fun _ hb => hb
  | @field l fd hl hget =>
    obtain rfl : i = .getField fd := Option.some.inj (hi.symm.trans hget)
    obtain ⟨o, S, hs⟩ : ∃ o S, b.stack = o :: S := List.exists_cons_of_length_pos hheight
    have hstack : b'.stack = o :: S := hm.stack.trans hs
    intro method pc inUse
    obtain ⟨w, L, _⟩ := b'
    subst hstack
    simp only [Work.perform, Action.wp_bind, Work.wp_pop_cons, Work.wp_push, Action.wp_pure]
    refine ⟨trivial, through_hook fun inUse => ?_⟩
    refine (Work.wp_fieldPoint (E := E) fd.key o ?_).mono (fun _ b₁ hb => ?_) fun _ _ he => he
    · intro e b'' he hw
      exact hE e b'' (.field hs (hm.world.heap ▸ he)) (hm.world.follows hw)
    · obtain ⟨point, hleft⟩ := hb
      have hm₁ : v.Mirrors known [.ofPoint point] b b₁ :=
        hm.left [] (hs ▸ hleft)
      exact through_storeFor (u := .point k) hl ⟨point, rfl⟩ hm₁ fun _ hb => hb
  | @fieldStore f fd code hput hf hcode =>
    obtain rfl : i = .putField fd := Option.some.inj (hi.symm.trans hput)
    obtain ⟨x, o, S, hs⟩ := exists_cons_cons hheight
    have hstack : b'.stack = x :: o :: S := hm.stack.trans hs
    intro method pc inUse
    obtain ⟨w, L, _⟩ := b'
    subst hstack
    simp only [Work.perform, Action.wp_bind, Work.wp_pop_cons, Work.wp_push, Action.wp_pure]
    refine ⟨trivial, fun method pc inUse => ⟨rfl, ?_⟩⟩
    have hm₁ : v.Mirrors known [o] b ⟨w, L, o :: x :: o :: S⟩ :=
      ⟨hm.world, hm.locals, by rw [hs]; rfl, hm.within⟩
    refine through_loading (Plan.loading_of_pointCode hcode) hm₁ fun point b₂ hb => ?_
    obtain ⟨w₂, L₂, S₂⟩ := b₂
    obtain rfl : S₂ = .ofPoint point :: o :: b.stack := hb.stack
    refine through_hook fun inUse => ?_
    refine (Work.wp_setFieldPoint (E := E) fd.key point o ?_).mono (fun _ b₃ hleft => ?_)
      fun _ _ he => he
    · intro e b'' he hw
      exact hE e b'' (.fieldStore hs (hb.world.heap ▸ he)) (hb.world.follows hw)
    · exact hb.left [] hleft

/-- **All code in front of an instruction.** -/
theorem through_ahead {k : Nat} {i : Insn} (hi : v.method.insns[k]? = some i)
    (hheight : i.pops ≤ b.stack.length) (hread : Reads i → i.pops = 2)
    (hm : v.Mirrors known [] b b')
    (hE : ∀ e b'', Refused b e i → World.Same known b.world b''.world → E e b'') :
    Through E (v.plan.ahead k i) (v.Mirrors known [] b) b' := by
  unfold Plan.ahead
  refine Work.Through.append (P := v.Mirrors known [] b) ?_ fun b'' hm =>
    (quiet_recordCode hi b b'' hm).mono (fun _ h => h) fun _ _ he => he.elim
  refine Work.through_flatMap (fun e he b'' hm => ?_) hm
  obtain ⟨j, code⟩ := e
  simp only
  split
  · rename_i hj
    have hpiece := v.planned.before _ he
    rw [show (j, code).1 = k from hj] at hpiece
    exact through_before hi hheight hread hpiece hm hE
  · exact hm

/-- At a label it cannot fail. -/
theorem quiet_ahead_label {k l : Nat} (hi : v.method.insns[k]? = some (.label l)) :
    v.Quiet known (v.plan.ahead k (.label l)) := by
  intro b b' hm
  refine through_ahead hi (Nat.zero_le _) ?_ hm ?_
  · rintro (⟨t, ht⟩ | ⟨m, hm, -⟩)
    · exact absurd ht (by simp)
    · exact absurd hm (by simp)
  · rintro e b'' (⟨⟨t, ht⟩ | ⟨m, hm, -⟩, -, -⟩ | ⟨⟨t, ht⟩ | ⟨m, hm, -⟩, -, -, -⟩) -
    · exact absurd ht (by simp)
    · exact absurd hm (by simp)
    · exact absurd ht (by simp)
    · exact absurd hm (by simp)

end Woven

end Provenance
