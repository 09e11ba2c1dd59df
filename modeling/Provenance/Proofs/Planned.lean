/-
# What a plan is made of

A plan grows step by step, and only in a few ways.  This file names every piece of code that can
stand in a plan and says what it is good for: a reader in front of an element or field read, a
note of a member of a merge, the code of a store site (`BeforePiece`, `AfterPiece`,
`ReplacedPiece`, `ArgumentPiece`).  A plan is `Sound` if it holds nothing else, if the locals it
hands out lie above those of the method and no two purposes share one, and if every local for the
point of a read is filled in front of that read.

`Plan.Leads` says that a step of planning keeps a plan sound and takes nothing back; section 5 shows
it of each small step.
-/
import Provenance.Proofs.FixedPoint
import Provenance.Weave.Plan

namespace Provenance

/-! ## 1. Planning, step by step -/

namespace Planning

variable {α β : Type}

/-- Planning goes well from one plan and leads to another. -/
def Gives (x : Planning α) (p : Plan) (a : α) (q : Plan) : Prop := x.run.run p = (.ok a, q)

theorem gives_pure {a b : α} {p q : Plan} : Gives (pure a) p b q ↔ a = b ∧ p = q := by
  constructor
  · intro h
    cases h
    exact ⟨rfl, rfl⟩
  · rintro ⟨rfl, rfl⟩
    rfl

theorem gives_throw {e : WeaveError} {p q : Plan} {b : α} : ¬ Gives (throw e) p b q := by
  intro h
  cases h

/-- A composed planning goes well through its parts. -/
theorem gives_bind {x : Planning α} {f : α → Planning β} {p q : Plan} {b : β} :
    Gives (x >>= f) p b q ↔ ∃ a p', Gives x p a p' ∧ Gives (f a) p' b q := by
  have hrun : (x >>= f).run.run p =
      match x.run.run p with
      | (.ok a, p') => (f a).run.run p'
      | (.error e, p') => (.error e, p') := by
    simp only [ExceptT.run_bind, StateT.run_bind]
    show (match x.run.run p with | (r, p') => _) = _
    rcases x.run.run p with ⟨r, p'⟩
    cases r <;> rfl
  unfold Gives
  rw [hrun]
  constructor
  · intro h
    rcases hx : x.run.run p with ⟨r, p'⟩
    rw [hx] at h
    cases r with
    | error e => cases h
    | ok a => exact ⟨a, p', rfl, h⟩
  · rintro ⟨a, p', hx, h⟩
    rw [hx]
    exact h

theorem gives_get {a p q : Plan} : Gives (get : Planning Plan) p a q ↔ p = a ∧ p = q := by
  constructor
  · intro h
    cases h
    exact ⟨rfl, rfl⟩
  · rintro ⟨rfl, rfl⟩
    rfl

/-- What is planned from the plan so far. -/
theorem gives_read {f : Plan → Planning β} {p q : Plan} {b : β} :
    Gives (do let p ← get; f p) p b q ↔ Gives (f p) p b q := by
  simp [gives_bind, gives_get]

theorem gives_set {a : PUnit} {s p q : Plan} :
    Gives (set s : Planning PUnit) p a q ↔ q = s := by
  constructor
  · intro h
    cases h
    rfl
  · rintro rfl
    rfl

theorem gives_modify {f : Plan → Plan} {a : PUnit} {p q : Plan} :
    Gives (modify f : Planning PUnit) p a q ↔ q = f p := by
  constructor
  · intro h
    cases h
    rfl
  · rintro rfl
    rfl

theorem gives_stackBefore {c : PlanContext} {k height : Nat} {p q : Plan}
    (h : Gives (Plan.stackBefore c k) p height q) : q = p := by
  unfold Plan.stackBefore at h
  split at h
  · exact (gives_pure.mp h).2.symm
  · exact absurd h gives_throw

theorem gives_stackAfter {c : PlanContext} {k height : Nat} {p q : Plan}
    (h : Gives (Plan.stackAfter c k) p height q) : q = p := by
  unfold Plan.stackAfter at h
  obtain ⟨before, p', hbefore, h⟩ := gives_bind.mp h
  rw [gives_stackBefore hbefore] at h
  split at h
  · exact (gives_pure.mp h).2.symm
  · exact (gives_pure.mp h).2.symm

theorem gives_requireStack {depth : Nat} {p q : Plan}
    (h : Gives (Plan.requireStack depth) p () q) :
    q = { p with maxStack := max p.maxStack depth } :=
  gives_modify.mp h

theorem gives_newNullLocal {l : Nat} {p q : Plan} (h : Gives Plan.newNullLocal p l q) :
    l = p.nextLocal ∧
      q = { p with nextLocal := p.nextLocal + 1, nullLocals := p.nullLocals ++ [l] } := by
  simp only [Plan.newNullLocal, Plan.newLocal, gives_bind, gives_get, gives_set, gives_pure,
    gives_modify] at h
  obtain ⟨_, _, ⟨_, _, ⟨rfl, rfl⟩, _, _, rfl, rfl, rfl⟩, _, _, rfl, rfl, rfl⟩ := h
  exact ⟨rfl, rfl⟩

theorem gives_pointCode {v : FlowValue} {code : List Insn} {p q : Plan}
    (h : Gives (Plan.pointCode v) p code q) : p.loadPoint v = .ok code ∧ p = q := by
  simp only [Plan.pointCode, gives_bind, gives_get] at h
  obtain ⟨_, _, ⟨rfl, rfl⟩, h⟩ := h
  split at h
  · rename_i code' hload
    obtain ⟨rfl, rfl⟩ := gives_pure.mp h
    exact ⟨hload, rfl⟩
  · exact absurd h gives_throw

theorem gives_isTrackable {c : PlanContext} {v : FlowValue} {b : Bool} {p q : Plan}
    (h : Gives (Plan.isTrackable c v) p b q) :
    b = (c.analysis.merges.trackable v p.memo).1 ∧
      q = { p with memo := (c.analysis.merges.trackable v p.memo).2 } := by
  simp only [Plan.isTrackable, gives_bind, gives_get, gives_set, gives_pure] at h
  obtain ⟨_, _, ⟨rfl, rfl⟩, _, _, rfl, rfl, rfl⟩ := h
  exact ⟨rfl, rfl⟩

theorem gives_trackConstant {c : PlanContext} {value : Int64} {place : ClassConstant} {p q : Plan}
    (h : Gives (Plan.trackConstant c value) p place q) :
    ∃ pool, p.pool.constant c.method value = .ok (place, pool) ∧ q = { p with pool } := by
  replace h := gives_read.mp h
  split at h
  · exact absurd h gives_throw
  · rename_i hplace
    simp only [gives_bind, gives_set, gives_pure] at h
    obtain ⟨_, _, rfl, rfl, rfl⟩ := h
    exact ⟨_, hplace, rfl⟩

theorem gives_trackString {c : PlanContext} {text : String} {place : Nat × Nat} {p q : Plan}
    (h : Gives (Plan.trackString c text) p place q) :
    ∃ pool, p.pool.string c.method text = .ok (place, pool) ∧ q = { p with pool } := by
  replace h := gives_read.mp h
  split at h
  · exact absurd h gives_throw
  · rename_i hplace
    simp only [gives_bind, gives_set, gives_pure] at h
    obtain ⟨_, _, rfl, rfl, rfl⟩ := h
    exact ⟨_, hplace, rfl⟩

end Planning

/-! ## 2. The pieces -/

/-- What a local of woven code is for. -/
inductive LocalUse where
  /-- The point of the element or field that an instruction reads. -/
  | point (insn : Nat)
  /-- The record of a call whose result is followed. -/
  | record (insn : Nat)
  /-- The point of the member of a merge that was made last. -/
  | merge (slot : MergeSlot)
  /-- The method's own call record. -/
  | own
  deriving DecidableEq, Repr

namespace Plan

/-- The local that serves a purpose. -/
def localOf (p : Plan) : LocalUse → Option Nat
  | .point k => p.pointLocals.lookup k
  | .record k => p.kept.lookup k
  | .merge slot => (p.mergeLocals.lookup slot).join
  | .own => p.ownRecord

/-- Code that pushes the point of a value, or null where nothing defines it. -/
def PointCode (p : Plan) (v : FlowValue) (code : List Insn) : Prop :=
  p.loadPoint v = .ok code ∨ (v.definition? = none ∧ code = [.const .null])

/-- The element reads: out of an array, and out of a string. -/
def ReadsElement (m : Method) (k : Nat) : Prop :=
  (∃ t, m.insns[k]? = some (.arrayLoad t)) ∨
    ∃ target, m.insns[k]? = some (.invoke target) ∧ Carrier.isCharAt target = true

/-- Code that stands before an instruction. -/
inductive BeforePiece (c : PlanContext) (p : Plan) (k : Nat) : List Insn → Prop where
  | element {l : Nat} (hl : p.localOf (.point k) = some l) (hi : ReadsElement c.method k) :
      BeforePiece c p k [.dup2, .hook .elementPoint, .store l]
  | field {l : Nat} {fd : FieldRef} (hl : p.localOf (.point k) = some l)
      (hi : c.method.insns[k]? = some (.getField fd)) :
      BeforePiece c p k [.dup, .hook (.fieldPoint fd.key), .store l]
  /-- A merge that is a member of another one is there once its join is entered. -/
  | join {slot inner : MergeSlot} {l : Nat} {t : Ty} {code : List Insn}
      (hl : p.localOf (.merge slot) = some l)
      (hmember : .merged t inner ∈ c.analysis.merges.members slot) (hk : inner.insn = k)
      (hcode : p.loadPoint (.merged t inner) = .ok code) :
      BeforePiece c p k (code ++ [.store l])
  | fieldStore {f : Frame} {fd : FieldRef} {code : List Insn}
      (hi : c.method.insns[k]? = some (.putField fd)) (hf : c.analysis.frame? k = some f)
      (hcode : p.PointCode (f.top 0) code) :
      BeforePiece c p k ([.dup2, .pop] ++ code ++ [.hook (.setFieldPoint fd.key)])
  | returning {f : Frame} {t : Ty} {l : Nat} {code : List Insn}
      (hi : c.method.insns[k]? = some (.ret t)) (ht : t ≠ .void)
      (hf : c.analysis.frame? k = some f) (hl : p.localOf .own = some l)
      (hcode : p.loadPoint (f.top 0) = .ok code) :
      BeforePiece c p k (.load l :: code ++ [.hook .invocationReturning])

/-- Code that stands after an instruction. -/
inductive AfterPiece (c : PlanContext) (S : List Site) (p : Plan) (k : Nat) : List Insn → Prop where
  | member {slot : MergeSlot} {l : Nat} {v : FlowValue} {code : List Insn}
      (hl : p.localOf (.merge slot) = some l) (hmember : v ∈ c.analysis.merges.members slot)
      (hmerged : ∀ t inner, v ≠ .merged t inner) (hk : v.creation? = some k)
      (hcode : p.loadPoint v = .ok code) :
      AfterPiece c S p k (code ++ [.store l])
  | literal {text : String} {classId offset : Nat} (hsite : ⟨k, .stringLiteral text⟩ ∈ S)
      (hi : c.method.insns[k]? = some (.const (.str text))) :
      AfterPiece c S p k [.hook (.constantString classId offset)]

/-- The mask of a concatenation, with the code for the points of the marked operands. -/
inductive Marked (p : Plan) : List Ty → List FlowValue → List Char → List Insn → Prop where
  | done : Marked p [] [] [] []
  | marked {v : FlowValue} {ts : List Ty} {vs : List FlowValue} {mask : List Char}
      {code loads : List Insn} (hcode : p.loadPoint v = .ok code) (h : Marked p ts vs mask loads) :
      Marked p (.char :: ts) (v :: vs) ('T' :: mask) (code ++ loads)
  | unmarked {t : Ty} {v : FlowValue} {ts : List Ty} {vs : List FlowValue} {mask : List Char}
      {loads : List Insn} (h : Marked p ts vs mask loads) :
      Marked p (t :: ts) (v :: vs) ('.' :: mask) loads

/-- Code that stands in place of an instruction. -/
inductive ReplacedPiece (c : PlanContext) (S : List Site) (p : Plan) (k : Nat) :
    List Insn → Prop where
  | arrayStore {f : Frame} {elem : Ty} {code : List Insn}
      (hi : c.method.insns[k]? = some (.arrayStore elem)) (hf : c.analysis.frame? k = some f)
      (hcode : p.PointCode (f.top 0) code) :
      ReplacedPiece c S p k (code ++ [.hook (.arrayStoreWithPoint elem)])
  | concat {f : Frame} {args : List Ty} {mask : List Char} {loads : List Insn}
      (hi : c.method.insns[k]? = some (.concat args)) (hf : c.analysis.frame? k = some f)
      (hmarked : p.Marked args ((List.range args.length).reverse.map f.top) mask loads) :
      ReplacedPiece c S p k (loads ++ [.hook (.concatWithPoints args (String.ofList mask))])
  | stringComparison {equal : Bool} {target : Nat}
      (hi : c.method.insns[k]? = some (if equal then .ifRefEq target else .ifRefNe target))
      (hsite : ⟨k, .stringComparison equal target⟩ ∈ S) :
      ReplacedPiece c S p k
        [.hook .stringEquals, .ifZero (if equal then .ne else .eq) target]
  | arrayCopy {target : MethodRef} (hi : c.method.insns[k]? = some (.invoke target))
      (hcopy : Carrier.isArrayCopy target = true) :
      ReplacedPiece c S p k [.hook .arrayCopy]
  | arrayClone {target : MethodRef} (hi : c.method.insns[k]? = some (.invoke target))
      (hcopy : Carrier.isArrayCopy target = false)
      (hclone : (Carrier.clonedArray? target).isSome) :
      ReplacedPiece c S p k [.hook .arrayClone]

/-- A call that gets a record. -/
def Recorded (c : PlanContext) (k : Nat) (target : MethodRef) : Prop :=
  c.method.insns[k]? = some (.invoke target) ∧ Carrier.isArrayCopy target = false ∧
    Carrier.clonedArray? target = none

/-- Code for the point of an argument of a call. -/
structure ArgumentPiece (c : PlanContext) (p : Plan) (k arg : Nat) (code : List Insn) : Prop where
  call : ∃ target f, Recorded c k target ∧ arg < target.desc.params.length ∧
    c.analysis.frame? k = some f ∧
    p.loadPoint (f.top (target.desc.params.length - 1 - arg)) = .ok code

/-! ## 3. Plans that grow -/

/-- An entry stays when one is put in front for which there was none. -/
theorem lookup_of_free {α β : Type} [DecidableEq α] {entries : List (α × β)} {a k : α} {b v : β}
    (hfree : entries.lookup a = none) (h : entries.lookup k = some v) :
    ((a, b) :: entries).lookup k = some v := by
  rw [lookup_cons_if, if_neg]
  · exact h
  · rintro rfl
    simp [hfree] at h

/-- What was decided stays decided. -/
structure Extends (p q : Plan) : Prop where
  localOf : ∀ u l, p.localOf u = some l → q.localOf u = some l
  untracked : ∀ slot, p.mergeLocals.lookup slot = some none → q.mergeLocals.lookup slot = some none
  constants : ∀ k place, p.constants.lookup k = some place → q.constants.lookup k = some place
  before : ∀ e ∈ p.before, e ∈ q.before
  after : ∀ e ∈ p.after, e ∈ q.after
  replaced : ∀ e ∈ p.replaced, e ∈ q.replaced

theorem Extends.refl (p : Plan) : p.Extends p :=
  ⟨fun _ _ h => h, fun _ h => h, fun _ _ h => h, fun _ h => h, fun _ h => h, fun _ h => h⟩

theorem Extends.trans {p q r : Plan} (h : p.Extends q) (h' : q.Extends r) : p.Extends r :=
  ⟨fun u l hl => h'.localOf u l (h.localOf u l hl), fun s hs => h'.untracked s (h.untracked s hs),
    fun k c hc => h'.constants k c (h.constants k c hc), fun e he => h'.before e (h.before e he),
    fun e he => h'.after e (h.after e he), fun e he => h'.replaced e (h.replaced e he)⟩

/-- **The code for a point stays the same** while the plan grows. -/
theorem Extends.loadPoint {p q : Plan} (h : p.Extends q) {v : FlowValue} {code : List Insn}
    (hv : p.loadPoint v = .ok code) : q.loadPoint v = .ok code := by
  unfold Plan.loadPoint at hv ⊢
  simp only at hv ⊢
  split at hv
  · rename_i k _ hb
    cases hk : p.constants.lookup k with
    | none => simp [hk] at hv
    | some place => simpa [h.constants k place hk, hk] using hv
  · rename_i k hb
    cases hk : p.pointLocals.lookup k with
    | none => simp [hk] at hv
    | some l =>
      have hq : q.pointLocals.lookup k = some l := h.localOf (.point k) l hk
      simpa [hq, hk] using hv
  · rename_i k _ hb
    cases hk : p.pointLocals.lookup k with
    | none => simp [hk] at hv
    | some l =>
      have hq : q.pointLocals.lookup k = some l := h.localOf (.point k) l hk
      simpa [hq, hk] using hv
  · rename_i k hb
    cases hk : p.kept.lookup k with
    | none => simp [hk] at hv
    | some l =>
      have hq : q.kept.lookup k = some l := h.localOf (.record k) l hk
      simpa [hq, hk] using hv
  · cases hk : p.ownRecord with
    | none => simp [hk] at hv
    | some l =>
      have hq : q.ownRecord = some l := h.localOf .own l hk
      simpa [hq, hk] using hv
  · rename_i slot hb
    cases hk : p.mergeLocals.lookup slot with
    | none => simp [hk] at hv
    | some r =>
      cases r with
      | none => simpa [h.untracked slot hk, hk] using hv
      | some l =>
        have hq : q.localOf (.merge slot) = some l :=
          h.localOf (.merge slot) l (by simp [Plan.localOf, hk])
        have hq' : q.mergeLocals.lookup slot = some (some l) := by
          unfold Plan.localOf at hq
          simpa [Option.join_eq_some_iff] using hq
        simpa [hq', hk] using hv
  · simpa using hv

theorem PointCode.extend {p q : Plan} (h : p.Extends q) {v : FlowValue} {code : List Insn}
    (hv : p.PointCode v code) : q.PointCode v code :=
  hv.imp_left h.loadPoint

theorem BeforePiece.extend {c : PlanContext} {p q : Plan} (h : p.Extends q) {k : Nat}
    {code : List Insn} (hp : BeforePiece c p k code) : BeforePiece c q k code := by
  cases hp with
  | element hl hi => exact .element (h.localOf _ _ hl) hi
  | field hl hi => exact .field (h.localOf _ _ hl) hi
  | join hl hmember hk hcode => exact .join (h.localOf _ _ hl) hmember hk (h.loadPoint hcode)
  | fieldStore hi hf hcode => exact .fieldStore hi hf (hcode.extend h)
  | returning hi ht hf hl hcode =>
    exact .returning hi ht hf (h.localOf _ _ hl) (h.loadPoint hcode)

theorem AfterPiece.extend {c : PlanContext} {S : List Site} {p q : Plan} (h : p.Extends q)
    {k : Nat} {code : List Insn} (hp : AfterPiece c S p k code) : AfterPiece c S q k code := by
  cases hp with
  | member hl hmember hmerged hk hcode =>
    exact .member (h.localOf _ _ hl) hmember hmerged hk (h.loadPoint hcode)
  | literal hsite hi => exact .literal hsite hi

theorem Marked.extend {p q : Plan} (h : p.Extends q) {ts : List Ty} {vs : List FlowValue}
    {mask : List Char} {loads : List Insn} (hm : p.Marked ts vs mask loads) :
    q.Marked ts vs mask loads := by
  induction hm with
  | done => exact .done
  | marked hcode _ ih => exact .marked (h.loadPoint hcode) ih
  | unmarked _ ih => exact .unmarked ih

theorem ReplacedPiece.extend {c : PlanContext} {S : List Site} {p q : Plan} (h : p.Extends q)
    {k : Nat} {code : List Insn} (hp : ReplacedPiece c S p k code) :
    ReplacedPiece c S q k code := by
  cases hp with
  | arrayStore hi hf hcode => exact .arrayStore hi hf (hcode.extend h)
  | concat hi hf hmarked => exact .concat hi hf (hmarked.extend h)
  | stringComparison hi hsite => exact .stringComparison hi hsite
  | arrayCopy hi hcopy => exact .arrayCopy hi hcopy
  | arrayClone hi hcopy hclone => exact .arrayClone hi hcopy hclone

theorem ArgumentPiece.extend {c : PlanContext} {p q : Plan} (h : p.Extends q) {k arg : Nat}
    {code : List Insn} (hp : ArgumentPiece c p k arg code) : ArgumentPiece c q k arg code := by
  obtain ⟨target, f, hcall, harg, hf, hcode⟩ := hp.call
  exact ⟨target, f, hcall, harg, hf, h.loadPoint hcode⟩

/-! ## 4. Sound plans -/

/-- What a local needs besides being there: the point of a read is taken in front of the read, and
only a call keeps a record. -/
def Served (c : PlanContext) (p : Plan) : LocalUse → Nat → Prop
  | .point k, l =>
    (ReadsElement c.method k ∧ (k, [.dup2, .hook .elementPoint, .store l]) ∈ p.before) ∨
      ∃ fd, c.method.insns[k]? = some (.getField fd) ∧
        (k, [.dup, .hook (.fieldPoint fd.key), .store l]) ∈ p.before
  | .record k, _ => ∃ target, Recorded c k target
  | _, _ => True

theorem Served.extend {c : PlanContext} {p q : Plan} (h : p.Extends q) {u : LocalUse} {l : Nat}
    (hs : Served c p u l) : Served c q u l := by
  cases u with
  | point k =>
    rcases hs with ⟨hr, hm⟩ | ⟨fd, hi, hm⟩
    · exact Or.inl ⟨hr, h.before _ hm⟩
    · exact Or.inr ⟨fd, hi, h.before _ hm⟩
  | _ => exact hs

/-- A plan that holds nothing but the pieces above. -/
structure Sound (c : PlanContext) (S : List Site) (p : Plan) : Prop where
  before : ∀ e ∈ p.before, BeforePiece c p e.1 e.2
  after : ∀ e ∈ p.after, AfterPiece c S p e.1 e.2
  replaced : ∀ e ∈ p.replaced, ReplacedPiece c S p e.1 e.2
  arguments : ∀ e ∈ p.arguments, ArgumentPiece c p e.1 e.2.1 e.2.2
  served : ∀ u l, p.localOf u = some l → Served c p u l
  above : ∀ u l, p.localOf u = some l → c.method.maxLocals ≤ l ∧ l < p.nextLocal
  apart : ∀ u u' l, p.localOf u = some l → p.localOf u' = some l → u = u'
  nulls : ∀ l ∈ p.nullLocals, c.method.maxLocals ≤ l ∧ l < p.nextLocal
  room : c.method.maxLocals ≤ p.nextLocal

/-- One plan grew out of another one and is sound if that one was. -/
def Leads (c : PlanContext) (S : List Site) (p q : Plan) : Prop :=
  p.Sound c S → q.Sound c S ∧ p.Extends q

variable {c : PlanContext} {S : List Site}

theorem Leads.refl (p : Plan) : p.Leads c S p := fun h => ⟨h, .refl p⟩

theorem Leads.trans {p q r : Plan} (h : p.Leads c S q) (h' : q.Leads c S r) :
    p.Leads c S r := by
  intro hp
  obtain ⟨hq, hpq⟩ := h hp
  obtain ⟨hr, hqr⟩ := h' hq
  exact ⟨hr, hpq.trans hqr⟩

/-- Sound plans are kept by whatever adds only pieces and does not touch the locals. -/
theorem leads_of_same_locals {p q : Plan} (hlocal : ∀ u, q.localOf u = p.localOf u)
    (hnext : q.nextLocal = p.nextLocal) (hnull : q.nullLocals = p.nullLocals)
    (hext : p.Extends q)
    (hbefore : ∀ e ∈ q.before, e ∈ p.before ∨ BeforePiece c q e.1 e.2)
    (hafter : ∀ e ∈ q.after, e ∈ p.after ∨ AfterPiece c S q e.1 e.2)
    (hreplaced : ∀ e ∈ q.replaced, e ∈ p.replaced ∨ ReplacedPiece c S q e.1 e.2)
    (harguments : ∀ e ∈ q.arguments, e ∈ p.arguments ∨ ArgumentPiece c q e.1 e.2.1 e.2.2) :
    p.Leads c S q := by
  intro hp
  refine ⟨⟨?_, ?_, ?_, ?_, ?_, ?_, ?_, ?_, ?_⟩, hext⟩
  · exact fun e he => (hbefore e he).elim (fun h => (hp.before e h).extend hext) id
  · exact fun e he => (hafter e he).elim (fun h => (hp.after e h).extend hext) id
  · exact fun e he => (hreplaced e he).elim (fun h => (hp.replaced e h).extend hext) id
  · exact fun e he => (harguments e he).elim (fun h => (hp.arguments e h).extend hext) id
  · intro u l hl
    exact (hp.served u l (hlocal u ▸ hl)).extend hext
  · intro u l hl
    rw [hnext]
    exact hp.above u l (hlocal u ▸ hl)
  · intro u u' l hl hl'
    exact hp.apart u u' l (hlocal u ▸ hl) (hlocal u' ▸ hl')
  · rw [hnull, hnext]
    exact hp.nulls
  · rw [hnext]
    exact hp.room

/-- Sound plans are kept by handing out the next local for a purpose that has none. -/
theorem leads_of_new_local {p q : Plan} {v : LocalUse} (hfree : p.localOf v = none)
    (hlocal : ∀ u, q.localOf u = if u = v then some p.nextLocal else p.localOf u)
    (hnext : q.nextLocal = p.nextLocal + 1)
    (hnull : ∀ l ∈ q.nullLocals, l ∈ p.nullLocals ∨ l = p.nextLocal)
    (huntracked : ∀ slot, p.mergeLocals.lookup slot = some none →
      q.mergeLocals.lookup slot = some none)
    (hconstants : q.constants = p.constants) (hsub : ∀ e ∈ p.before, e ∈ q.before)
    (hbefore : ∀ e ∈ q.before, e ∈ p.before ∨ BeforePiece c q e.1 e.2) (hafter : q.after = p.after)
    (hreplaced : q.replaced = p.replaced) (harguments : q.arguments = p.arguments)
    (hserved : Served c q v p.nextLocal) : p.Leads c S q := by
  intro hp
  have hext : p.Extends q := by
    refine ⟨fun u l hl => ?_, huntracked, fun k place h => hconstants ▸ h, hsub,
      fun e he => hafter ▸ he, fun e he => hreplaced ▸ he⟩
    rw [hlocal, if_neg]
    · exact hl
    · rintro rfl
      simp [hfree] at hl
  have hcases : ∀ u l, q.localOf u = some l → (u = v ∧ l = p.nextLocal) ∨ p.localOf u = some l := by
    intro u l hl
    rw [hlocal] at hl
    split at hl
    · rename_i hu
      exact Or.inl ⟨hu, (Option.some.inj hl).symm⟩
    · exact Or.inr hl
  refine ⟨⟨?_, ?_, ?_, ?_, ?_, ?_, ?_, ?_, ?_⟩, hext⟩
  · exact fun e he => (hbefore e he).elim (fun h => (hp.before e h).extend hext) id
  · exact fun e he => (hp.after e (hafter ▸ he)).extend hext
  · exact fun e he => (hp.replaced e (hreplaced ▸ he)).extend hext
  · exact fun e he => (hp.arguments e (harguments ▸ he)).extend hext
  · intro u l hl
    rcases hcases u l hl with ⟨rfl, rfl⟩ | hl
    · exact hserved
    · exact (hp.served u l hl).extend hext
  · intro u l hl
    have hroom := hp.room
    rcases hcases u l hl with ⟨-, hl⟩ | hl
    · omega
    · have := hp.above u l hl
      omega
  · intro u u' l hl hl'
    rcases hcases u l hl with ⟨hu, hnew⟩ | hl <;> rcases hcases u' l hl' with ⟨hu', hnew'⟩ | hl'
    · exact hu.trans hu'.symm
    · have := hp.above _ _ hl'
      omega
    · have := hp.above _ _ hl
      omega
    · exact hp.apart u u' l hl hl'
  · intro l hl
    have hroom := hp.room
    rcases hnull l hl with hl | hl
    · have := hp.nulls l hl
      omega
    · omega
  · have := hp.room
    omega

/-! ## 5. Each step of planning -/

/-- A step that touches neither the pieces nor the locals. -/
theorem leads_of_same_pieces {p q : Plan} (hlocal : ∀ u, q.localOf u = p.localOf u)
    (hnext : q.nextLocal = p.nextLocal) (hnull : q.nullLocals = p.nullLocals)
    (huntracked : ∀ slot, p.mergeLocals.lookup slot = some none →
      q.mergeLocals.lookup slot = some none)
    (hconstants : ∀ k place, p.constants.lookup k = some place → q.constants.lookup k = some place)
    (hbefore : q.before = p.before) (hafter : q.after = p.after)
    (hreplaced : q.replaced = p.replaced) (harguments : q.arguments = p.arguments) :
    p.Leads c S q :=
  leads_of_same_locals hlocal hnext hnull
    ⟨fun u _ hl => (hlocal u).trans hl, huntracked, hconstants, fun _ he => hbefore ▸ he,
      fun _ he => hafter ▸ he, fun _ he => hreplaced ▸ he⟩
    (fun _ he => Or.inl (hbefore ▸ he)) (fun _ he => Or.inl (hafter ▸ he))
    (fun _ he => Or.inl (hreplaced ▸ he)) fun _ he => Or.inl (harguments ▸ he)

theorem leads_memo (p : Plan) (memo : TrackMemo) : p.Leads c S { p with memo } :=
  leads_of_same_pieces (fun u => by cases u <;> rfl) rfl rfl (fun _ h => h) (fun _ _ h => h) rfl rfl
    rfl rfl

theorem leads_requireStack {depth : Nat} {p q : Plan}
    (h : Planning.Gives (requireStack depth) p () q) : p.Leads c S q := by
  rw [Planning.gives_requireStack h]
  exact leads_of_same_pieces (fun u => by cases u <;> rfl) rfl rfl (fun _ h => h) (fun _ _ h => h)
    rfl rfl rfl rfl

theorem leads_insertBefore {k : Nat} {code : List Insn} {p q : Plan}
    (h : Planning.Gives (insertBefore k code) p () q) (hpiece : BeforePiece c p k code) :
    p.Leads c S q ∧ (k, code) ∈ q.before := by
  obtain rfl := Planning.gives_modify.mp h
  have hlocal (u : LocalUse) :
      Plan.localOf { p with before := p.before ++ [(k, code)] } u = p.localOf u := by
    cases u <;> rfl
  have hext : p.Extends { p with before := p.before ++ [(k, code)] } :=
    ⟨fun u _ hl => (hlocal u).trans hl, fun _ h => h, fun _ _ h => h,
      fun _ he => List.mem_append_left _ he, fun _ he => he, fun _ he => he⟩
  refine ⟨leads_of_same_locals hlocal rfl rfl hext (fun e he => ?_) (fun _ he => Or.inl he)
    (fun _ he => Or.inl he) (fun _ he => Or.inl he), by simp⟩
  rcases List.mem_append.mp he with he | he
  · exact Or.inl he
  · rw [List.mem_singleton.mp he]
    exact Or.inr (hpiece.extend hext)

theorem leads_insertAfter {k : Nat} {code : List Insn} {p q : Plan}
    (h : Planning.Gives (insertAfter k code) p () q) (hpiece : AfterPiece c S p k code) :
    p.Leads c S q ∧ (k, code) ∈ q.after := by
  obtain rfl := Planning.gives_modify.mp h
  have hlocal (u : LocalUse) :
      Plan.localOf { p with after := p.after ++ [(k, code)] } u = p.localOf u := by
    cases u <;> rfl
  have hext : p.Extends { p with after := p.after ++ [(k, code)] } :=
    ⟨fun u _ hl => (hlocal u).trans hl, fun _ h => h, fun _ _ h => h, fun _ he => he,
      fun _ he => List.mem_append_left _ he, fun _ he => he⟩
  refine ⟨leads_of_same_locals hlocal rfl rfl hext (fun _ he => Or.inl he) (fun e he => ?_)
    (fun _ he => Or.inl he) (fun _ he => Or.inl he), by simp⟩
  rcases List.mem_append.mp he with he | he
  · exact Or.inl he
  · rw [List.mem_singleton.mp he]
    exact Or.inr (hpiece.extend hext)

theorem leads_replaceWith {k : Nat} {code : List Insn} {p q : Plan}
    (h : Planning.Gives (replaceWith k code) p () q) (hpiece : ReplacedPiece c S p k code) :
    p.Leads c S q := by
  obtain rfl := Planning.gives_modify.mp h
  have hlocal (u : LocalUse) :
      Plan.localOf { p with replaced := (k, code) :: p.replaced } u = p.localOf u := by
    cases u <;> rfl
  have hext : p.Extends { p with replaced := (k, code) :: p.replaced } :=
    ⟨fun u _ hl => (hlocal u).trans hl, fun _ h => h, fun _ _ h => h, fun _ he => he,
      fun _ he => he, fun _ he => List.mem_cons_of_mem _ he⟩
  refine leads_of_same_locals hlocal rfl rfl hext (fun _ he => Or.inl he) (fun _ he => Or.inl he)
    (fun e he => ?_) (fun _ he => Or.inl he)
  rcases List.mem_cons.mp he with he | he
  · rw [he]
    exact Or.inr (hpiece.extend hext)
  · exact Or.inl he

theorem leads_addArgument {k arg : Nat} {code : List Insn} {p q : Plan}
    (h : Planning.Gives (addArgument k arg code) p () q) (hpiece : ArgumentPiece c p k arg code) :
    p.Leads c S q := by
  obtain rfl := Planning.gives_modify.mp h
  have hlocal (u : LocalUse) :
      Plan.localOf { p with arguments := p.arguments ++ [(k, arg, code)] } u = p.localOf u := by
    cases u <;> rfl
  have hext : p.Extends { p with arguments := p.arguments ++ [(k, arg, code)] } :=
    ⟨fun u _ hl => (hlocal u).trans hl, fun _ h => h, fun _ _ h => h, fun _ he => he,
      fun _ he => he, fun _ he => he⟩
  refine leads_of_same_locals hlocal rfl rfl hext (fun _ he => Or.inl he) (fun _ he => Or.inl he)
    (fun _ he => Or.inl he) (fun e he => ?_)
  rcases List.mem_append.mp he with he | he
  · exact Or.inl he
  · rw [List.mem_singleton.mp he]
    exact Or.inr (hpiece.extend hext)

/-- A literal that gets its place. -/
theorem leads_constant {p : Plan} {k : Nat} (hfree : p.constants.lookup k = none)
    (pool : LiteralPool) (place : ClassConstant) :
    p.Leads c S { p with pool, constants := (k, place) :: p.constants } := by
  exact leads_of_same_pieces (fun u => by cases u <;> rfl) rfl rfl (fun _ h => h)
    (fun _ _ => lookup_of_free hfree) rfl rfl rfl rfl

/-- A merge that cannot be followed. -/
theorem leads_untracked {p : Plan} {slot : MergeSlot} (hfree : p.mergeLocals.lookup slot = none) :
    p.Leads c S { p with mergeLocals := (slot, none) :: p.mergeLocals } := by
  refine leads_of_same_pieces (fun u => ?_) rfl rfl (fun s hs => ?_) (fun _ _ h => h)
    rfl rfl rfl rfl
  · cases u with
    | merge s =>
      show (((slot, none) :: p.mergeLocals).lookup s).join = (p.mergeLocals.lookup s).join
      rw [lookup_cons_if]
      split
      · rename_i hs
        simp [hs, hfree]
      · rfl
    | _ => rfl
  · exact lookup_of_free hfree hs

/-- A merge that gets a local. -/
theorem leads_newMerge {p : Plan} {slot : MergeSlot} (hfree : p.mergeLocals.lookup slot = none) :
    p.Leads c S { p with
      nextLocal := p.nextLocal + 1, nullLocals := p.nullLocals ++ [p.nextLocal]
      mergeLocals := (slot, some p.nextLocal) :: p.mergeLocals } := by
  refine leads_of_new_local (v := .merge slot) ?_ (fun u => ?_) rfl (fun l hl => by simpa using hl)
    (fun s hs => ?_) rfl (fun _ h => h) (fun _ h => Or.inl h) rfl rfl rfl trivial
  · simp [localOf, hfree]
  · cases u with
    | merge s =>
      show (((slot, some p.nextLocal) :: p.mergeLocals).lookup s).join = _
      rw [lookup_cons_if]
      by_cases hs : s = slot
      · simp [hs]
      · simp [hs, localOf]
    | _ => rfl
  · exact lookup_of_free hfree hs

end Plan

end Provenance
