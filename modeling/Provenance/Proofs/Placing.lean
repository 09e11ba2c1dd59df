/-
# Where a literal stands does not matter to planning

Woven code names a literal by its place in the table of its class, and the places depend on what was
registered before.  Nothing else does: planned with two tables that can be written to, a method gets
the same code but for the places (`Plan.planSites_alike`), or fails with the same error, and the
depth that the code needs is the same (`requiredStack_unplaced`).
-/
import Provenance.Flow.Height
import Provenance.Proofs.Planned
import Provenance.Proofs.Registering

namespace Provenance

/-! ## 1. Code without the places of literals -/

/-- An instruction without the place of the literal it names. -/
def Insn.unplaced : Insn → Insn
  | .hook (.constantPoint _) => .hook (.constantPoint ⟨0, 0, 0⟩)
  | .hook (.constantString _ _) => .hook (.constantString 0 0)
  | i => i

/-- Code without the places of literals. -/
def unplaced (code : List Insn) : List Insn := code.map Insn.unplaced

/-- A method without the places of literals. -/
def Method.unplaced (m : Method) : Method := { m with insns := Provenance.unplaced m.insns }

@[simp] theorem unplaced_nil : unplaced [] = [] := rfl

@[simp] theorem unplaced_cons (i : Insn) (code : List Insn) :
    unplaced (i :: code) = i.unplaced :: unplaced code := rfl

@[simp] theorem unplaced_append (code code' : List Insn) :
    unplaced (code ++ code') = unplaced code ++ unplaced code' := List.map_append

@[simp] theorem length_unplaced (code : List Insn) : (unplaced code).length = code.length :=
  List.length_map _

@[simp] theorem unplaced_getElem? (code : List Insn) (k : Nat) :
    (unplaced code)[k]? = code[k]?.map Insn.unplaced := List.getElem?_map

theorem unplaced_flatMap {α : Type} (f : α → List Insn) (l : List α) :
    unplaced (l.flatMap f) = l.flatMap fun a => unplaced (f a) := List.map_flatMap

namespace Insn

variable (i : Insn)

@[simp] theorem label?_unplaced : i.unplaced.label? = i.label? := by
  unfold unplaced
  split <;> rfl

@[simp] theorem jumpTarget?_unplaced : i.unplaced.jumpTarget? = i.jumpTarget? := by
  unfold unplaced
  split <;> rfl

@[simp] theorem fallsThrough_unplaced : i.unplaced.fallsThrough = i.fallsThrough := by
  unfold unplaced
  split <;> rfl

@[simp] theorem local?_unplaced : i.unplaced.local? = i.local? := by
  unfold unplaced
  split <;> rfl

@[simp] theorem effect_unplaced : i.unplaced.effect = i.effect := by
  unfold unplaced
  split <;> rfl

@[simp] theorem pops_unplaced : i.unplaced.pops = i.pops := by simp [pops]

@[simp] theorem pushes_unplaced : i.unplaced.pushes = i.pushes := by simp [pushes]

end Insn

/-! ## 2. The depth that code needs -/

section Depth

variable (m : Method)

theorem Method.labelAt?_unplaced (l : Nat) : m.unplaced.labelAt? l = m.labelAt? l := by
  unfold labelAt? unplaced Provenance.unplaced
  rw [List.findIdx?_map]
  congr 1
  funext i
  simp

theorem Method.repeatedLabel?_unplaced : m.unplaced.repeatedLabel? = m.repeatedLabel? := by
  have hfrom : ∀ (code : List Insn) (seen : List Nat) (index : Nat),
      repeatedFrom seen index (Provenance.unplaced code) = repeatedFrom seen index code := by
    intro code
    induction code with
    | nil => exact fun _ _ => rfl
    | cons i rest ih =>
      intro seen index
      simp only [unplaced_cons, repeatedFrom, Insn.label?_unplaced, ih]
  exact hfrom m.insns [] 0

theorem FlowGraph.successorsOf_unplaced (index : Nat) (i : Insn) :
    successorsOf m.unplaced index i.unplaced = successorsOf m index i := by
  simp only [successorsOf, Insn.fallsThrough_unplaced, Insn.jumpTarget?_unplaced,
    m.labelAt?_unplaced, show m.unplaced.insns.length = m.insns.length from length_unplaced _]

theorem FlowGraph.edgesFrom_unplaced : ∀ (code : List Insn) (index : Nat),
    edgesFrom m.unplaced index (unplaced code) = edgesFrom m index code
  | [], _ => rfl
  | i :: rest, index => by
    simp only [unplaced_cons, edgesFrom, successorsOf_unplaced, edgesFrom_unplaced rest]

theorem FlowGraph.openEnd_unplaced : openEnd m.unplaced = openEnd m := by
  unfold openEnd Method.unplaced Provenance.unplaced
  simp only [List.getLast?_map]
  cases m.insns.getLast? with
  | none => rfl
  | some i => exact i.fallsThrough_unplaced

theorem FlowGraph.ofMethod_unplaced : ofMethod m.unplaced = ofMethod m := by
  have hempty : (Provenance.unplaced m.insns).isEmpty = m.insns.isEmpty := List.isEmpty_map
  simp only [ofMethod, hempty, m.repeatedLabel?_unplaced, openEnd_unplaced,
    show m.unplaced.insns = Provenance.unplaced m.insns from rfl, edgesFrom_unplaced,
    length_unplaced]

theorem HeightSearch.visit_unplaced (g : FlowGraph) (s : HeightSearch) (index : Nat) :
    visit m.unplaced g s index = visit m g s index := by
  have hinsn : m.unplaced.insns[index]? = m.insns[index]?.map Insn.unplaced := unplaced_getElem? _ _
  unfold visit
  rw [hinsn]
  cases m.insns[index]? with
  | none => rfl
  | some i =>
    simp only [Option.map_some, heightAfter, Insn.local?_unplaced, Insn.pops_unplaced,
      Insn.pushes_unplaced]
    rfl

theorem HeightSearch.run_unplaced (g : FlowGraph) : ∀ (fuel : Nat) (s : HeightSearch),
    run m.unplaced g fuel s = run m g fuel s
  | 0, _ => rfl
  | fuel + 1, s => by
    unfold run
    split
    · rfl
    · rw [visit_unplaced]
      split
      · rfl
      · exact run_unplaced g fuel _

/-- **The depth that code needs** has nothing to do with the places of literals. -/
theorem requiredStack_unplaced : requiredStack m.unplaced = requiredStack m := by
  simp only [requiredStack, stackHeights, FlowGraph.ofMethod_unplaced, HeightSearch.run_unplaced,
    show m.unplaced.insns.length = m.insns.length from length_unplaced _]

end Depth

/-! ## 3. Planning, with two tables -/

/-- Pieces of code without the places of literals. -/
def unplacedEdits (edits : List (Nat × List Insn)) : List (Nat × List Insn) :=
  edits.map fun e => (e.1, unplaced e.2)

theorem unplaced_codeAt (k : Nat) (edits : List (Nat × List Insn)) :
    unplaced (Plan.codeAt k edits) = Plan.codeAt k (unplacedEdits edits) := by
  unfold Plan.codeAt unplacedEdits
  rw [unplaced_flatMap, List.flatMap_map]
  congr 1
  funext e
  obtain ⟨j, code⟩ := e
  simp only
  split <;> rfl

/-- Plans that differ in the places of literals at most, and in the tables they came from. -/
structure Plan.Alike (p q : Plan) : Prop where
  usable : p.pool.Usable
  usable' : q.pool.Usable
  before : unplacedEdits p.before = unplacedEdits q.before
  after : unplacedEdits p.after = unplacedEdits q.after
  replaced : unplacedEdits p.replaced = unplacedEdits q.replaced
  arguments : (p.arguments.map fun e => (e.1, e.2.1, unplaced e.2.2)) =
    q.arguments.map fun e => (e.1, e.2.1, unplaced e.2.2)
  kept : p.kept = q.kept
  nullLocals : p.nullLocals = q.nullLocals
  nextLocal : p.nextLocal = q.nextLocal
  maxStack : p.maxStack = q.maxStack
  ownRecord : p.ownRecord = q.ownRecord
  pointLocals : p.pointLocals = q.pointLocals
  constants : p.constants.map Prod.fst = q.constants.map Prod.fst
  mergeLocals : p.mergeLocals = q.mergeLocals
  memo : p.memo = q.memo

namespace Planning

variable {α β : Type} {R : α → α → Prop} {R' : β → β → Prop}

/-- What planning gives from two plans that are alike: the same error, or results that belong
together. -/
inductive Outcome (R : α → α → Prop) :
    Except WeaveError α × Plan → Except WeaveError α × Plan → Prop where
  | ok {a b : α} {p q : Plan} (hr : R a b) (hp : p.Alike q) : Outcome R (.ok a, p) (.ok b, q)
  | error {p q : Plan} (e : WeaveError) (hp : p.Alike q) : Outcome R (.error e, p) (.error e, q)

/-- Two plannings do the same but for the places of literals. -/
def Alike (R : α → α → Prop) (x y : Planning α) : Prop :=
  ∀ p q, p.Alike q → Outcome R (x.run.run p) (y.run.run q)

theorem Alike.pure {a b : α} (h : R a b) : Alike R (pure a) (pure b) := fun _ _ hp => .ok h hp

theorem Alike.throw (e : WeaveError) : Alike R (throw e : Planning α) (throw e) :=
  fun _ _ hp => .error e hp

theorem run_bind (x : Planning α) (f : α → Planning β) (p : Plan) : (x >>= f).run.run p =
    match x.run.run p with
    | (.ok a, p') => (f a).run.run p'
    | (.error e, p') => (.error e, p') := by
  simp only [ExceptT.run_bind, StateT.run_bind]
  show (match x.run.run p with | (r, p') => _) = _
  rcases x.run.run p with ⟨r, p'⟩
  cases r <;> rfl

theorem Alike.bind {x y : Planning α} {f g : α → Planning β} (h : Alike R x y)
    (hf : ∀ a b, R a b → Alike R' (f a) (g b)) : Alike R' (x >>= f) (y >>= g) := by
  intro p q hp
  rw [run_bind, run_bind]
  have hxy := h p q hp
  generalize x.run.run p = r at hxy ⊢
  generalize y.run.run q = r' at hxy ⊢
  cases hxy with
  | ok hr hp' => exact hf _ _ hr _ _ hp'
  | error e hp' => exact .error e hp'

/-- What is planned from the plan so far. -/
theorem Alike.read {f g : Plan → Planning β} (h : ∀ p q, p.Alike q → Alike R' (f p) (g q)) :
    Alike R' (do let p ← get; f p) (do let p ← get; g p) := by
  intro p q hp
  exact h p q hp p q hp

/-- One step after another, whatever the first gives. -/
theorem Alike.andThen {x y : Planning PUnit} {x' y' : Planning β}
    (h : Alike (fun _ _ => True) x y) (h' : Alike R' x' y') :
    Alike R' (do x; x') (do y; y') := h.bind fun _ _ _ => h'

theorem Alike.modify {f g : Plan → Plan} (h : ∀ p q, p.Alike q → (f p).Alike (g q)) :
    Alike (fun _ _ => True) (modify f : Planning PUnit) (modify g) :=
  fun p q hp => .ok trivial (h p q hp)

/-- A plan that is read, changed and put back. -/
theorem Alike.setting {p q : Plan} {x y : Planning β} (hp : p.Alike q) (h : Alike R' x y) :
    Alike R' (do set p; x) (do set q; y) := by
  refine Alike.andThen (x := set p) (y := set q) (fun _ _ _ => ?_) h
  exact .ok trivial hp

end Planning

namespace Plan

open Planning (Alike)

variable (c : PlanContext)

theorem stackBefore_alike (k : Nat) : Planning.Alike Eq (stackBefore c k) (stackBefore c k) := by
  unfold stackBefore
  split
  · exact .pure rfl
  · exact .throw _

theorem stackAfter_alike (k : Nat) : Planning.Alike Eq (stackAfter c k) (stackAfter c k) := by
  refine (stackBefore_alike c k).bind ?_
  rintro height _ rfl
  split <;> exact .pure rfl

/-- Room for what is about to be pushed. -/
theorem room_alike {x : Planning Nat} (h : Planning.Alike Eq x x) (room : Nat) :
    Planning.Alike (fun _ _ => True) (do requireStack ((← x) + room))
      (do requireStack ((← x) + room)) := by
  refine h.bind ?_
  rintro height _ rfl
  exact .modify fun p q hp => { hp with maxStack := by simp only [hp.maxStack] }

theorem newLocal_alike : Planning.Alike Eq newLocal newLocal := by
  refine .read fun p q hp => .setting ?_ (.pure hp.nextLocal)
  exact { hp with nextLocal := by simp only [hp.nextLocal] }

theorem newNullLocal_alike : Planning.Alike Eq newNullLocal newNullLocal := by
  refine newLocal_alike.bind ?_
  rintro l _ rfl
  refine .andThen (.modify fun p q hp => ?_) (.pure rfl)
  exact { hp with nullLocals := by simp only [hp.nullLocals] }

theorem insertBefore_alike (k : Nat) {code code' : List Insn} (h : unplaced code = unplaced code') :
    Planning.Alike (fun _ _ => True) (insertBefore k code) (insertBefore k code') := by
  refine .modify fun p q hp => { hp with before := ?_ }
  show (p.before ++ [(k, code)]).map _ = (q.before ++ [(k, code')]).map _
  rw [List.map_append, List.map_append]
  exact congrArg₂ _ hp.before (by simp [h])

theorem insertAfter_alike (k : Nat) {code code' : List Insn} (h : unplaced code = unplaced code') :
    Planning.Alike (fun _ _ => True) (insertAfter k code) (insertAfter k code') := by
  refine .modify fun p q hp => { hp with after := ?_ }
  show (p.after ++ [(k, code)]).map _ = (q.after ++ [(k, code')]).map _
  rw [List.map_append, List.map_append]
  exact congrArg₂ _ hp.after (by simp [h])

theorem replaceWith_alike (k : Nat) {code code' : List Insn} (h : unplaced code = unplaced code') :
    Planning.Alike (fun _ _ => True) (replaceWith k code) (replaceWith k code') := by
  refine .modify fun p q hp => { hp with replaced := ?_ }
  show (k, unplaced code) :: unplacedEdits p.replaced =
    (k, unplaced code') :: unplacedEdits q.replaced
  rw [h, hp.replaced]

theorem addArgument_alike (k arg : Nat) {code code' : List Insn}
    (h : unplaced code = unplaced code') :
    Planning.Alike (fun _ _ => True) (addArgument k arg code) (addArgument k arg code') := by
  refine .modify fun p q hp => { hp with arguments := ?_ }
  show (p.arguments ++ [(k, arg, code)]).map _ = (q.arguments ++ [(k, arg, code')]).map _
  rw [List.map_append, List.map_append]
  exact congrArg₂ _ hp.arguments (by simp [h])

theorem isTrackable_alike (v : FlowValue) :
    Planning.Alike Eq (isTrackable c v) (isTrackable c v) := by
  refine .read fun p q hp => ?_
  rw [hp.memo]
  refine .setting ?_ (.pure rfl)
  exact { hp with memo := rfl }

theorem ensureStarted_alike : Planning.Alike Eq ensureStarted ensureStarted := by
  refine .read fun p q hp => ?_
  rw [hp.ownRecord]
  split
  · exact .pure rfl
  · refine newLocal_alike.bind ?_
    rintro l _ rfl
    refine .andThen (.modify fun p q hp => ?_) (.andThen (.modify fun p q hp => ?_) (.pure rfl))
    · exact { hp with ownRecord := rfl }
    · exact { hp with maxStack := by simp only [hp.maxStack] }

/-- A literal is registered in either table, at whatever place. -/
theorem trackConstant_alike (value : Int64) :
    Planning.Alike (fun _ _ => True) (trackConstant c value) (trackConstant c value) := by
  refine .read fun p q hp => ?_
  obtain ⟨place, pool, hplace, hpool⟩ := LiteralPool.constant_isOk hp.usable c.method value
  obtain ⟨place', pool', hplace', hpool'⟩ := LiteralPool.constant_isOk hp.usable' c.method value
  simp only [hplace, hplace']
  refine .setting ?_ (.pure trivial)
  exact { hp with usable := hpool, usable' := hpool' }

theorem trackString_alike (text : String) :
    Planning.Alike (fun _ _ => True) (trackString c text) (trackString c text) := by
  refine .read fun p q hp => ?_
  obtain ⟨place, pool, hplace, hpool⟩ := LiteralPool.string_isOk hp.usable c.method text
  obtain ⟨place', pool', hplace', hpool'⟩ := LiteralPool.string_isOk hp.usable' c.method text
  simp only [hplace, hplace']
  refine .setting ?_ (.pure trivial)
  exact { hp with usable := hpool, usable' := hpool' }

/-- Two lists with the same keys find something for the same ones. -/
theorem lookup_isNone_of_keys {α : Type} :
    ∀ {l l' : List (Nat × α)}, l.map Prod.fst = l'.map Prod.fst →
    ∀ k, (l.lookup k).isNone = (l'.lookup k).isNone
  | [], [], _, _ => rfl
  | [], _ :: _, h, _ => nomatch h
  | _ :: _, [], h, _ => nomatch h
  | (j, a) :: l, (j', a') :: l', h, k => by
    obtain ⟨hj, h⟩ := List.cons_eq_cons.mp h
    rw [lookup_cons_if, lookup_cons_if, show j = j' from hj]
    split
    · rfl
    · exact lookup_isNone_of_keys h k

/-- **The code for a point** differs in the place of a literal at most. -/
theorem loadPoint_alike {p q : Plan} (h : p.Alike q) (v : FlowValue) :
    (∃ code code', p.loadPoint v = .ok code ∧ q.loadPoint v = .ok code' ∧
      unplaced code = unplaced code') ∨
    ∃ e, p.loadPoint v = .error e ∧ q.loadPoint v = .error e := by
  have hsame : ∀ {r : Except WeaveError (List Insn)},
      (∃ code code', r = .ok code ∧ r = .ok code' ∧ unplaced code = unplaced code') ∨
        ∃ e, r = .error e ∧ r = .error e := by
    intro r
    cases r with
    | ok code => exact .inl ⟨code, code, rfl, rfl, rfl⟩
    | error e => exact .inr ⟨e, rfl, rfl⟩
  unfold loadPoint
  simp only [h.pointLocals, h.kept, h.ownRecord, h.mergeLocals]
  split
  · rename_i k _ _
    have hkey := lookup_isNone_of_keys h.constants k
    cases hp : p.constants.lookup k <;> cases hq : q.constants.lookup k <;> rw [hp, hq] at hkey
    · exact .inr ⟨_, rfl, rfl⟩
    · simp at hkey
    · simp at hkey
    · exact .inl ⟨_, _, rfl, rfl, rfl⟩
  all_goals exact hsame

theorem pointCode_alike (v : FlowValue) :
    Planning.Alike (fun code code' => unplaced code = unplaced code') (pointCode v)
      (pointCode v) := by
  refine .read fun p q hp => ?_
  rcases loadPoint_alike hp v with ⟨code, code', hcode, hcode', hsame⟩ | ⟨e, he, he'⟩
  · simp only [hcode, hcode']
    exact .pure hsame
  · simp only [he, he']
    exact .throw e

theorem ensurePointLocal_alike (k room : Nat) (take : List Insn) :
    Planning.Alike (fun _ _ => True) (ensurePointLocal c k room take)
      (ensurePointLocal c k room take) := by
  refine .read fun p q hp => ?_
  rw [hp.pointLocals]
  split
  · refine newNullLocal_alike.bind ?_
    rintro l _ rfl
    refine .andThen (.modify fun p q hp => ?_)
      (.andThen (insertBefore_alike k rfl) (room_alike (stackBefore_alike c k) room))
    exact { hp with pointLocals := by simp only [hp.pointLocals] }
  · exact .pure trivial

theorem stashMember_alike (slot : MergeSlot) (l : Nat) (member : FlowValue) :
    Planning.Alike (fun _ _ => True) (stashMember c slot l member)
      (stashMember c slot l member) := by
  refine (pointCode_alike member).bind fun code code' hcode => ?_
  have hstash : unplaced (code ++ [.store l]) = unplaced (code' ++ [.store l]) := by simp [hcode]
  simp only
  split
  · rename_i t inner
    refine (stackBefore_alike c inner.insn).bind ?_
    rintro height _ rfl
    refine .andThen (.modify fun p q hp => ?_) (insertBefore_alike _ hstash)
    exact { hp with maxStack := by simp only [hp.maxStack] }
  · split
    · exact .throw _
    · rename_i created _
      refine (stackAfter_alike c created).bind ?_
      rintro height _ rfl
      refine .andThen (.modify fun p q hp => ?_) (insertAfter_alike _ hstash)
      exact { hp with maxStack := by simp only [hp.maxStack] }

/-! ## 4. Values and sites -/

theorem forEach_alike {f : FlowValue → Planning Unit}
    (h : ∀ v, Planning.Alike (fun _ _ => True) (f v) (f v)) : ∀ vs : List FlowValue,
    Planning.Alike (fun _ _ => True) (forEach f vs) (forEach f vs)
  | [] => .pure trivial
  | v :: vs => .andThen (h v) (forEach_alike h vs)

/-- **Whatever the point of a value needs** is planned alike. -/
theorem ensureTrackedFrom_alike (fuel : Nat) : ∀ v : FlowValue,
    Planning.Alike (fun _ _ => True) (ensureTrackedFrom c fuel v) (ensureTrackedFrom c fuel v) := by
  induction fuel using Nat.strongRecOn with
  | ind fuel ih =>
    intro v
    unfold ensureTrackedFrom
    split
    · exact .pure trivial
    · rename_i t k value _
      refine .read fun p q hp => ?_
      rw [lookup_isNone_of_keys hp.constants k]
      split
      · refine (trackConstant_alike c value).bind fun place place' _ => .modify fun p q hp => ?_
        exact { hp with constants := by simp only [List.map_cons, hp.constants] }
      · exact .pure trivial
    · exact ensurePointLocal_alike c _ _ _
    · exact ensurePointLocal_alike c _ _ _
    · rename_i t k _
      refine .read fun p q hp => ?_
      rw [hp.kept]
      split
      · refine newNullLocal_alike.bind ?_
        rintro l _ rfl
        refine .andThen (.modify fun p q hp => ?_) (room_alike (stackBefore_alike c k) 1)
        exact { hp with kept := by simp only [hp.kept] }
      · exact .pure trivial
    · exact ensureStarted_alike.bind fun _ _ _ => .pure trivial
    · rename_i t slot _
      refine .read fun p q hp => ?_
      rw [hp.mergeLocals]
      split
      · exact .pure trivial
      · refine (isTrackable_alike c _).bind ?_
        rintro followed _ rfl
        split
        · exact .modify fun p q hp => { hp with mergeLocals := by simp only [hp.mergeLocals] }
        · cases fuel with
          | zero => exact .throw _
          | succ fuel =>
            refine newNullLocal_alike.bind ?_
            rintro l _ rfl
            refine .andThen (.modify fun p q hp => ?_) (forEach_alike (fun member => ?_) _)
            · exact { hp with mergeLocals := by simp only [hp.mergeLocals] }
            · exact .andThen (ih fuel (Nat.lt_succ_self fuel) member)
                (stashMember_alike c slot l member)
    · exact .pure trivial

theorem ensureTracked_alike (v : FlowValue) :
    Planning.Alike (fun _ _ => True) (ensureTracked c v) (ensureTracked c v) :=
  ensureTrackedFrom_alike c _ v

theorem pointOrNull_alike (v : FlowValue) :
    Planning.Alike (fun code code' => unplaced code = unplaced code') (pointOrNull c v)
      (pointOrNull c v) := by
  refine (isTrackable_alike c v).bind ?_
  rintro followed _ rfl
  split
  · exact .andThen (ensureTracked_alike c v) (pointCode_alike v)
  · exact .pure rfl

theorem recordArguments_alike (k : Nat) : ∀ (args : List (Option FlowValue)) (arg : Nat),
    Planning.Alike Eq (recordArguments c k arg args) (recordArguments c k arg args)
  | [], _ => .pure rfl
  | none :: rest, arg => recordArguments_alike k rest (arg + 1)
  | some v :: rest, arg => by
    refine (isTrackable_alike c v).bind ?_
    rintro followed _ rfl
    split
    · refine .andThen (ensureTracked_alike c v)
        ((pointCode_alike v).bind fun code code' hcode => ?_)
      refine .andThen (addArgument_alike k arg hcode) ?_
      exact (recordArguments_alike k rest (arg + 1)).bind fun _ _ _ => .pure rfl
    · exact recordArguments_alike k rest (arg + 1)

theorem concatPoints_alike : ∀ (ts : List Ty) (vs : List FlowValue),
    Planning.Alike (fun r r' => r.1 = r'.1 ∧ unplaced r.2 = unplaced r'.2) (concatPoints c ts vs)
      (concatPoints c ts vs)
  | [], _ => .pure ⟨rfl, rfl⟩
  | _ :: _, [] => .pure ⟨rfl, rfl⟩
  | t :: ts, v :: vs => by
    have hunmarked : Planning.Alike (fun r r' => r.1 = r'.1 ∧ unplaced r.2 = unplaced r'.2)
        (concatPoints c ts vs >>= fun r => pure ('.' :: r.1, r.2))
        (concatPoints c ts vs >>= fun r => pure ('.' :: r.1, r.2)) :=
      (concatPoints_alike ts vs).bind fun r r' hr => .pure ⟨congrArg ('.' :: ·) hr.1, hr.2⟩
    unfold concatPoints
    split
    · refine (isTrackable_alike c v).bind ?_
      rintro followed _ rfl
      beta_reduce
      split
      · refine .andThen (ensureTracked_alike c v)
          ((pointCode_alike v).bind fun code code' hcode => ?_)
        refine (concatPoints_alike ts vs).bind fun r r' hr => .pure ⟨congrArg ('T' :: ·) hr.1, ?_⟩
        rw [unplaced_append, unplaced_append, hcode, hr.2]
      · exact hunmarked
    · exact hunmarked

/-- Room, and then a piece of code. -/
theorem room_then_alike (k room : Nat) {x y : Planning Unit}
    (h : Planning.Alike (fun _ _ => True) x y) :
    Planning.Alike (fun _ _ => True) (do requireStack ((← stackBefore c k) + room); x)
      (do requireStack ((← stackBefore c k) + room); y) := by
  refine (stackBefore_alike c k).bind ?_
  rintro height _ rfl
  refine .andThen (.modify fun p q hp => ?_) h
  exact { hp with maxStack := by simp only [hp.maxStack] }

/-- **One site** is planned alike. -/
theorem planSite_alike (s : Site) :
    Planning.Alike (fun _ _ => True) (planSite c s) (planSite c s) := by
  unfold planSite
  simp only
  split
  · refine (pointOrNull_alike c _).bind fun code code' hcode => ?_
    exact room_then_alike c _ _ (replaceWith_alike _ (by simp [hcode]))
  · refine (pointOrNull_alike c _).bind fun code code' hcode => ?_
    exact room_then_alike c _ _ (insertBefore_alike _ (by simp [hcode]))
  · refine (recordArguments_alike c _ _ _).bind ?_
    rintro recorded _ rfl
    split
    · exact room_alike (stackBefore_alike c _) 2
    · exact .pure trivial
  · refine (isTrackable_alike c _).bind ?_
    rintro followed _ rfl
    split
    · refine .andThen (ensureTracked_alike c _) (ensureStarted_alike.bind ?_)
      rintro l _ rfl
      refine (pointCode_alike _).bind fun code code' hcode => ?_
      exact room_then_alike c _ _ (insertBefore_alike _ (by simp [hcode]))
    · exact .pure trivial
  · refine (concatPoints_alike c _ _).bind ?_
    rintro ⟨mask, loads⟩ ⟨_, loads'⟩ ⟨rfl, hloads⟩
    simp only
    split
    · exact room_then_alike c _ _ (replaceWith_alike _ (by
        rw [unplaced_append, unplaced_append]
        exact congrArg (· ++ _) hloads))
    · exact .pure trivial
  · exact replaceWith_alike _ rfl
  · exact (trackString_alike c _).bind fun _ _ _ => insertAfter_alike _ rfl
  · exact replaceWith_alike _ rfl
  · exact replaceWith_alike _ rfl

/-- **The sites of a method** are planned alike, whatever the table. -/
theorem planSites_alike : ∀ sites : List Site,
    Planning.Alike (fun _ _ => True) (planSites c sites) (planSites c sites)
  | [] => .pure trivial
  | s :: ss => .andThen (planSite_alike c s) (planSites_alike ss)

theorem start_alike {pool pool' : LiteralPool} (h : pool.Usable) (h' : pool'.Usable) :
    (start c pool).Alike (start c pool') :=
  ⟨h, h', rfl, rfl, rfl, rfl, rfl, rfl, rfl, rfl, rfl, rfl, rfl, rfl, rfl⟩

/-! ## 5. The woven body -/

namespace Alike

variable {p q : Plan} (h : p.Alike q)

include h

theorem hasEdits_eq : p.hasEdits = q.hasEdits := by
  have hempty : ∀ {l l' : List (Nat × List Insn)}, unplacedEdits l = unplacedEdits l' →
      l.isEmpty = l'.isEmpty := by
    intro l l' hl
    have hl' := congrArg List.isEmpty hl
    simpa [unplacedEdits] using hl'
  have harguments := congrArg List.isEmpty h.arguments
  simp only [List.isEmpty_map] at harguments
  simp only [hasEdits, hempty h.before, hempty h.after, hempty h.replaced, harguments, h.kept]

theorem replaced_eq (k : Nat) (i : Insn) :
    unplaced ((p.replaced.lookup k).getD [i]) = unplaced ((q.replaced.lookup k).getD [i]) := by
  have hlookup : ∀ l : List (Nat × List Insn),
      (unplacedEdits l).lookup k = (l.lookup k).map unplaced := by
    intro l
    induction l with
    | nil => rfl
    | cons e l ih =>
      obtain ⟨j, code⟩ := e
      show List.lookup k ((j, unplaced code) :: unplacedEdits l) = _
      rw [lookup_cons_if, lookup_cons_if, ih]
      split <;> rfl
  have hsame := (hlookup p.replaced).symm.trans ((congrArg _ h.replaced).trans (hlookup q.replaced))
  rw [← Option.getD_map unplaced, ← Option.getD_map unplaced, hsame]

theorem recordCode_eq (k : Nat) (i : Insn) :
    unplaced (p.recordCode k i) = unplaced (q.recordCode k i) := by
  have hset : ∀ l : List (Nat × Nat × List Insn),
      unplaced ((l.filter fun e => e.1 = k).flatMap fun e =>
        e.2.2 ++ [.hook (.invocationSetArg e.2.1)]) =
      ((l.map fun e => (e.1, e.2.1, unplaced e.2.2)).filter fun e => e.1 = k).flatMap fun e =>
        e.2.2 ++ [.hook (.invocationSetArg e.2.1)] := by
    intro l
    rw [unplaced_flatMap, List.filter_map, List.flatMap_map]
    congr 1
    funext e
    simp [Insn.unplaced]
  have hempty : ∀ l : List (Nat × Nat × List Insn), (l.filter fun e => e.1 = k).isEmpty =
      ((l.map fun e => (e.1, e.2.1, unplaced e.2.2)).filter fun e => e.1 = k).isEmpty := by
    intro l
    rw [List.filter_map, List.isEmpty_map]
    rfl
  have hsame : (p.arguments.filter fun e => e.1 = k).isEmpty =
      (q.arguments.filter fun e => e.1 = k).isEmpty := by
    rw [hempty p.arguments, hempty q.arguments, h.arguments]
  unfold recordCode
  simp only [hsame, h.kept]
  split
  · rfl
  · have harguments := hset p.arguments
    rw [h.arguments, ← hset q.arguments] at harguments
    simp only [unplaced_append]
    exact congrArg₂ _ (congrArg₂ _ rfl harguments) rfl

theorem block_eq (k : Nat) (i : Insn) : unplaced (p.block k i) = unplaced (q.block k i) := by
  have hahead : unplaced (codeAt k p.before ++ p.recordCode k i) =
      unplaced (codeAt k q.before ++ q.recordCode k i) := by
    simp only [unplaced_append, unplaced_codeAt, h.before, h.recordCode_eq]
  have hbehind : unplaced (codeAt k p.after) = unplaced (codeAt k q.after) := by
    simp only [unplaced_codeAt, h.after]
  have hreplaced := h.replaced_eq k i
  unfold block
  split
  · simp only [List.cons_append, unplaced_cons, unplaced_append] at hahead ⊢
    rw [hahead, hbehind]
  · simp only [unplaced_append] at hahead ⊢
    rw [hahead, hbehind, hreplaced]

theorem blocks_eq : ∀ (code : List Insn) (k : Nat),
    unplaced (p.blocks k code) = unplaced (q.blocks k code)
  | [], _ => rfl
  | i :: rest, k => by
    simp only [blocks, unplaced_append, h.block_eq k i, blocks_eq rest]

/-- **The woven method** is the same but for the places of literals. -/
theorem woven_eq (m : Method) : (p.woven m).unplaced = (q.woven m).unplaced := by
  have hprologue : p.prologue m = q.prologue m := by
    simp only [prologue, h.nullLocals, h.ownRecord]
  unfold woven Method.unplaced
  simp only [unplaced_append, hprologue, h.blocks_eq, h.nullLocals, h.maxStack, h.nextLocal]

end Alike

end Plan

end Provenance
