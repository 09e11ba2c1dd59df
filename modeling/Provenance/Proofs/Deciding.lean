/-
# Steps of planning

Whatever the functions of the planner do, they do in steps of a few kinds: `Plan.Step` for what the
point of a value needs, `Plan.SiteStep` for the rest of a site.  What each step keeps is kept by all
of planning; here it is shown that a plan stays sound, and that every merge that gets a local has
all its members noted, or is open (`Plan.AllNoted`).

While the members of a merge are planned for, other merges may be opened, and all of them are closed
again before the merge itself is.  So a step takes place below a list of open merges, the innermost
one first.
-/
import Mathlib.Logic.Relation
import Provenance.Proofs.Planned

namespace Provenance

namespace Plan

variable {c : PlanContext} {S : List Site}

/-! ## 1. Members are noted -/

/-- The code that notes the point of a member in the local of its merge is in the plan. -/
def Stashed (p : Plan) (l : Nat) (v : FlowValue) : Prop :=
  ∃ code, p.loadPoint v = .ok code ∧
    ((∃ t inner, v = .merged t inner ∧ (inner.insn, code ++ [.store l]) ∈ p.before) ∨
      ∃ k, (∀ t inner, v ≠ .merged t inner) ∧ v.creation? = some k ∧
        (k, code ++ [.store l]) ∈ p.after)

theorem Stashed.extend {p q : Plan} (h : p.Extends q) {l : Nat} {v : FlowValue}
    (hs : p.Stashed l v) : q.Stashed l v := by
  obtain ⟨code, hcode, ⟨t, inner, hv, hm⟩ | ⟨k, hv, hk, hm⟩⟩ := hs
  · exact ⟨code, h.loadPoint hcode, Or.inl ⟨t, inner, hv, h.before _ hm⟩⟩
  · exact ⟨code, h.loadPoint hcode, Or.inr ⟨k, hv, hk, h.after _ hm⟩⟩

/-- All members of a merge are noted in its local. -/
def Noted (c : PlanContext) (p : Plan) (slot : MergeSlot) : Prop :=
  ∃ l, p.localOf (.merge slot) = some l ∧ ∀ v ∈ c.analysis.merges.members slot, p.Stashed l v

theorem Noted.extend {p q : Plan} (h : p.Extends q) {slot : MergeSlot} (hn : Noted c p slot) :
    Noted c q slot := by
  obtain ⟨l, hl, hv⟩ := hn
  exact ⟨l, h.localOf _ _ hl, fun v hm => (hv v hm).extend h⟩

/-! ## 2. What the point of a value needs -/

/-- Code that takes the point of what an instruction reads. -/
inductive TakesPoint (c : PlanContext) (k : Nat) : List Insn → Prop where
  | element (hi : ReadsElement c.method k) : TakesPoint c k [.dup2, .hook .elementPoint]
  | field {fd : FieldRef} (hi : c.method.insns[k]? = some (.getField fd)) :
      TakesPoint c k [.dup, .hook (.fieldPoint fd.key)]

theorem TakesPoint.piece {p : Plan} {k l : Nat} {take : List Insn} (h : TakesPoint c k take)
    (hl : p.localOf (.point k) = some l) : BeforePiece c p k (take ++ [.store l]) := by
  cases h with
  | element hi => exact .element hl hi
  | field hi => exact .field hl hi

theorem TakesPoint.served {p : Plan} {k l : Nat} {take : List Insn} (h : TakesPoint c k take)
    (hmem : (k, take ++ [.store l]) ∈ p.before) : Served c p (.point k) l := by
  cases h with
  | element hi => exact Or.inl ⟨hi, hmem⟩
  | field hi => exact Or.inr ⟨_, hi, hmem⟩

/-- One step of planning what the point of a value needs, below merges whose members are still
planned for, the innermost one first. -/
inductive Step (c : PlanContext) : List MergeSlot → Plan → List MergeSlot → Plan → Prop where
  /-- It was asked whether a value can be followed. -/
  | asked (V : List MergeSlot) (p : Plan) (v : FlowValue) :
      Step c V p V { p with memo := (c.analysis.merges.trackable v p.memo).2 }
  | room (V : List MergeSlot) (p : Plan) (depth : Nat) :
      Step c V p V { p with maxStack := max p.maxStack depth }
  /-- A number gets its place in the table of the class. -/
  | number {V : List MergeSlot} {p : Plan} {k : Nat} {n : Int32} {place : ClassConstant}
      {pool : LiteralPool} (hi : c.method.insns[k]? = some (.const (.int n)))
      (hfree : p.constants.lookup k = none)
      (hplace : p.pool.constant c.method n.toInt64 = .ok (place, pool)) :
      Step c V p V { p with pool, constants := (k, place) :: p.constants }
  /-- The point of a read gets a local, filled in front of the read. -/
  | point {V : List MergeSlot} {p : Plan} {k : Nat} {take : List Insn} (htake : TakesPoint c k take)
      (hfree : p.localOf (.point k) = none) :
      Step c V p V { p with
        nextLocal := p.nextLocal + 1, nullLocals := p.nullLocals ++ [p.nextLocal]
        pointLocals := (k, p.nextLocal) :: p.pointLocals
        before := p.before ++ [(k, take ++ [.store p.nextLocal])] }
  /-- The record of a call gets a local. -/
  | record {V : List MergeSlot} {p : Plan} {k : Nat} {target : MethodRef}
      (hcall : Recorded c k target) (hfree : p.localOf (.record k) = none) :
      Step c V p V { p with
        nextLocal := p.nextLocal + 1, nullLocals := p.nullLocals ++ [p.nextLocal]
        kept := (k, p.nextLocal) :: p.kept }
  /-- The method's own record gets a local. -/
  | own {V : List MergeSlot} {p : Plan} (hfree : p.localOf .own = none) :
      Step c V p V { p with nextLocal := p.nextLocal + 1, ownRecord := some p.nextLocal }
  /-- A merge gets no local. -/
  | dropped {V : List MergeSlot} {p : Plan} {slot : MergeSlot}
      (hfree : p.mergeLocals.lookup slot = none) :
      Step c V p V { p with mergeLocals := (slot, none) :: p.mergeLocals }
  /-- A merge that can be followed gets a local; it is a member of the innermost open one, if there
  is one, maybe moved or converted. -/
  | opened {V : List MergeSlot} {p : Plan} {t : Ty} {slot : MergeSlot}
      (hfree : p.mergeLocals.lookup slot = none)
      (hfollowed : (c.analysis.merges.trackable (.merged t slot) p.memo).1 = true)
      (hinner : ∀ s, V.head? = some s →
        ∃ u ∈ c.analysis.merges.members s, u.base = .merged t slot) :
      Step c V p (slot :: V) { p with
        memo := (c.analysis.merges.trackable (.merged t slot) p.memo).2
        nextLocal := p.nextLocal + 1, nullLocals := p.nullLocals ++ [p.nextLocal]
        mergeLocals := (slot, some p.nextLocal) :: p.mergeLocals }
  /-- A member of the innermost merge that is a merge itself is noted. -/
  | joined {V : List MergeSlot} {p : Plan} {slot inner : MergeSlot} {t : Ty} {l : Nat}
      {code : List Insn} (hl : p.localOf (.merge slot) = some l)
      (hmember : .merged t inner ∈ c.analysis.merges.members slot)
      (hcode : p.loadPoint (.merged t inner) = .ok code) :
      Step c (slot :: V) p (slot :: V) { p with
        before := p.before ++ [(inner.insn, code ++ [.store l])] }
  /-- Another member is noted. -/
  | made {V : List MergeSlot} {p : Plan} {slot : MergeSlot} {v : FlowValue} {k l : Nat}
      {code : List Insn} (hl : p.localOf (.merge slot) = some l)
      (hmember : v ∈ c.analysis.merges.members slot) (hmerged : ∀ t inner, v ≠ .merged t inner)
      (hk : v.creation? = some k) (hcode : p.loadPoint v = .ok code) :
      Step c (slot :: V) p (slot :: V) { p with after := p.after ++ [(k, code ++ [.store l])] }
  /-- All members of the innermost merge are noted. -/
  | closed {V : List MergeSlot} {p : Plan} {slot : MergeSlot} (hnoted : Noted c p slot) :
      Step c (slot :: V) p V p

/-- Steps, one after the other. -/
inductive Steps (c : PlanContext) (V : List MergeSlot) (p : Plan) :
    List MergeSlot → Plan → Prop where
  | refl : Steps c V p V p
  | tail {V' V'' : List MergeSlot} {p' q : Plan} (h : Steps c V p V' p') (hs : Step c V' p' V'' q) :
      Steps c V p V'' q

section Steps

variable {V V' V'' : List MergeSlot} {p q r : Plan}

theorem Steps.single (h : Step c V p V' q) : Steps c V p V' q := .tail .refl h

theorem Steps.trans (h : Steps c V p V' q) (h' : Steps c V' q V'' r) : Steps c V p V'' r := by
  induction h' with
  | refl => exact h
  | tail _ hs ih => exact .tail ih hs

/-- **What every step keeps**, steps keep. -/
theorem Steps.keeps {P : List MergeSlot → Plan → Prop}
    (hstep : ∀ {V p V' q}, Step c V p V' q → P V p → P V' q) (h : Steps c V p V' q)
    (hp : P V p) : P V' q := by
  induction h with
  | refl => exact hp
  | tail _ hs ih => exact hstep hs ih

end Steps

section Step

variable {V V' : List MergeSlot} {p q : Plan}

/-- A step takes nothing back. -/
theorem Step.extends (h : Step c V p V' q) : p.Extends q := by
  have hsame {q : Plan} (hlocal : ∀ u, q.localOf u = p.localOf u)
        (hmerges : q.mergeLocals = p.mergeLocals)
      (hconstants : q.constants = p.constants) (hbefore : ∀ e ∈ p.before, e ∈ q.before)
      (hafter : ∀ e ∈ p.after, e ∈ q.after) (hreplaced : q.replaced = p.replaced) : p.Extends q :=
    ⟨fun u _ hl => (hlocal u).trans hl, fun _ h => hmerges ▸ h, fun _ _ h => hconstants ▸ h,
      hbefore, hafter,
      fun _ he => hreplaced ▸ he⟩
  cases h with
  | asked | room =>
    exact hsame (fun u => by cases u <;> rfl) rfl rfl (fun _ => id) (fun _ => id) rfl
  | joined =>
    exact hsame (fun u => by cases u <;> rfl) rfl rfl (fun _ => List.mem_append_left _)
      (fun _ => id) rfl
  | made =>
    exact hsame (fun u => by cases u <;> rfl) rfl rfl (fun _ => id)
      (fun _ => List.mem_append_left _) rfl
  | closed => exact .refl p
  | number hi hfree hplace =>
    refine ⟨fun u l hl => ?_, fun _ => id, fun _ _ => lookup_of_free hfree,
      fun _ => id, fun _ => id,
      fun _ => id⟩
    cases u <;> exact hl
  | point htake hfree =>
    refine ⟨fun u l hl => ?_, fun _ => id, fun _ _ => id,
      fun _ => List.mem_append_left _, fun _ => id,
      fun _ => id⟩
    cases u with
    | point j => exact lookup_of_free hfree hl
    | _ => exact hl
  | record hcall hfree =>
    refine ⟨fun u l hl => ?_, fun _ => id, fun _ _ => id, fun _ => id, fun _ => id, fun _ => id⟩
    cases u with
    | record j => exact lookup_of_free hfree hl
    | _ => exact hl
  | own hfree =>
    refine ⟨fun u l hl => ?_, fun _ => id, fun _ _ => id, fun _ => id, fun _ => id, fun _ => id⟩
    cases u with
    | own => exact absurd (hfree.symm.trans hl) (by simp)
    | _ => exact hl
  | dropped hfree | opened hfree hfollowed hinner =>
    refine ⟨fun u l hl => ?_, fun _ => lookup_of_free hfree, fun _ _ => id,
      fun _ => id, fun _ => id,
      fun _ => id⟩
    cases u with
    | merge s =>
      exact Option.join_eq_some_iff.mpr (lookup_of_free hfree (Option.join_eq_some_iff.mp hl))
    | _ => exact hl

/-- **A step keeps a plan sound.** -/
theorem Step.sound (h : Step c V p V' q) : p.Sound c S → q.Sound c S := by
  have hleads : p.Leads c S q := by
    cases h with
    | asked => exact leads_memo p _
    | room => exact leads_requireStack (Planning.gives_modify.mpr rfl)
    | number hi hfree hplace => exact leads_constant hfree _ _
    | @point _ _ k take htake hfree =>
      refine leads_of_new_local (v := .point k) hfree (fun u => ?_) rfl
        (fun l hl => by simpa using hl) (fun _ => id) rfl (fun _ => List.mem_append_left _)
        (fun e he => ?_) rfl rfl rfl (htake.served (by simp))
      · cases u with
        | point j =>
          show ((k, p.nextLocal) :: p.pointLocals).lookup j = _
          rw [lookup_cons_if]
          simp [localOf]
        | _ => rfl
      · rcases List.mem_append.mp he with he | he
        · exact Or.inl he
        · rw [List.mem_singleton.mp he]
          refine Or.inr (htake.piece ?_)
          show ((k, p.nextLocal) :: p.pointLocals).lookup k = _
          simp
    | @record _ _ k target hcall hfree =>
      refine leads_of_new_local (v := .record k) hfree (fun u => ?_) rfl
        (fun l hl => by simpa using hl) (fun _ => id) rfl (fun _ => id) (fun _ => Or.inl) rfl rfl
        rfl ⟨target, hcall⟩
      cases u with
      | record j =>
        show ((k, p.nextLocal) :: p.kept).lookup j = _
        rw [lookup_cons_if]
        simp [localOf]
      | _ => rfl
    | own hfree =>
      refine leads_of_new_local (v := .own) hfree (fun u => ?_) rfl (fun _ => Or.inl)
        (fun _ => id) rfl (fun _ => id) (fun _ => Or.inl) rfl rfl rfl trivial
      cases u <;> rfl
    | dropped hfree => exact leads_untracked hfree
    | @opened _ _ t slot hfree hfollowed hinner =>
      let asked : Plan := { p with memo := (c.analysis.merges.trackable (.merged t slot) p.memo).2 }
      exact (leads_memo p asked.memo).trans (leads_newMerge (p := asked) hfree)
    | joined hl hmember hcode =>
      exact (leads_insertBefore (Planning.gives_modify.mpr rfl) (.join hl hmember rfl hcode)).1
    | made hl hmember hmerged hk hcode =>
      exact (leads_insertAfter (Planning.gives_modify.mpr rfl)
        (.member hl hmember hmerged hk hcode)).1
    | closed => exact .refl p
  exact fun hp => (hleads hp).1

theorem Steps.extends (h : Steps c V p V' q) : p.Extends q := by
  induction h with
  | refl => exact .refl p
  | tail _ hs ih => exact ih.trans hs.extends

theorem Steps.leads (h : Steps c V p V' q) : p.Leads c S q :=
  fun hp => ⟨h.keeps (P := fun _ p => p.Sound c S) Step.sound hp, h.extends⟩

/-- A merge that has a local is open or has all its members noted. -/
def AllNoted (c : PlanContext) (V : List MergeSlot) (p : Plan) : Prop :=
  ∀ slot l, p.localOf (.merge slot) = some l → slot ∈ V ∨ Noted c p slot

theorem Step.allNoted (h : Step c V p V' q) (hp : AllNoted c V p) : AllNoted c V' q := by
  have hold (slot : MergeSlot) (l : Nat) (hl : p.localOf (.merge slot) = some l) :
      slot ∈ V ∨ Noted c q slot := (hp slot l hl).imp_right (.extend h.extends)
  cases h with
  | @dropped _ _ slot hfree =>
    intro s l hl
    unfold localOf at hl
    simp only [lookup_cons_if] at hl
    split at hl
    · simp at hl
    · exact hold s l hl
  | @opened _ _ t slot hfree hfollowed hinner =>
    intro s l hl
    unfold localOf at hl
    simp only [lookup_cons_if] at hl
    split at hl
    · rename_i hs
      exact Or.inl (hs ▸ List.mem_cons_self)
    · exact (hold s l hl).imp_left (List.mem_cons_of_mem slot)
  | closed hnoted =>
    intro s l hl
    rcases hold s l hl with hs | hs
    · rcases List.mem_cons.mp hs with rfl | hs
      · exact Or.inr hnoted
      · exact Or.inl hs
    · exact Or.inr hs
  | _ => exact hold

end Step

end Plan

/-! ## 3. What a site needs -/

/-- Whether the code of a site takes the place of its instruction. -/
def SiteKind.replaces : SiteKind → Bool
  | arrayStore | concat | stringComparison | arrayCopy | arrayClone => true
  | fieldStore | callArguments | returnValue | stringLiteral => false

namespace Plan

variable {c : PlanContext} {S : List Site}

/-- One step of planning a site. -/
inductive SiteStep (c : PlanContext) (S : List Site) (s : Site) : Plan → Plan → Prop where
  /-- What the points of values need. -/
  | points {p q : Plan} (h : Steps c [] p [] q) : SiteStep c S s p q
  /-- The point of an argument is to be recorded. -/
  | argument {p : Plan} {arg : Nat} {code : List Insn}
      (hcall : ∃ args, s.action = .callArguments args)
      (hpiece : ArgumentPiece c p s.insn arg code) :
      SiteStep c S s p { p with arguments := p.arguments ++ [(s.insn, arg, code)] }
  /-- The point of a field that is written is recorded in front. -/
  | field {p : Plan} {f : Frame} {fd : FieldRef} {code : List Insn}
      (hi : c.method.insns[s.insn]? = some (.putField fd)) (hf : c.analysis.frame? s.insn = some f)
      (hcode : p.PointCode (f.top 0) code) :
      SiteStep c S s p { p with
        before := p.before ++ [(s.insn, [.dup2, .pop] ++ code ++ [.hook (.setFieldPoint fd.key)])] }
  /-- The point of the result is recorded in front. -/
  | result {p : Plan} {f : Frame} {t : Ty} {l : Nat} {code : List Insn}
      (hi : c.method.insns[s.insn]? = some (.ret t)) (ht : t ≠ .void)
      (hf : c.analysis.frame? s.insn = some f) (hl : p.localOf .own = some l)
      (hcode : p.loadPoint (f.top 0) = .ok code) :
      SiteStep c S s p { p with
        before := p.before ++ [(s.insn, .load l :: code ++ [.hook .invocationReturning])] }
  /-- The instruction gives way to others. -/
  | replaced {p : Plan} {code : List Insn} (hall : s ∈ S) (hkind : s.action.kind.replaces = true)
      (hpiece : ReplacedPiece c S p s.insn code) :
      SiteStep c S s p { p with replaced := (s.insn, code) :: p.replaced }

/-- **What planning a site comes to**: steps, or a text that is registered and copied behind its
literal. -/
inductive SitePlanned (c : PlanContext) (S : List Site) (s : Site) : Plan → Plan → Prop where
  | steps {p q : Plan} (h : Relation.ReflTransGen (SiteStep c S s) p q) : SitePlanned c S s p q
  | literal {p : Plan} {text : String} {classId offset : Nat} {pool : LiteralPool} (hall : s ∈ S)
      (hs : s.action = .stringLiteral text)
        (hi : c.method.insns[s.insn]? = some (.const (.str text)))
      (hplace : p.pool.string c.method text = .ok ((classId, offset), pool)) :
      SitePlanned c S s p { p with
        pool, after := p.after ++ [(s.insn, [.hook (.constantString classId offset)])] }

section Sites

variable {s : Site} {p q : Plan}

theorem SiteStep.leads (h : SiteStep c S s p q) : p.Leads c S q := by
  cases h with
  | points h => exact h.leads
  | argument _ hpiece => exact leads_addArgument (Planning.gives_modify.mpr rfl) hpiece
  | field hi hf hcode =>
    exact (leads_insertBefore (Planning.gives_modify.mpr rfl) (.fieldStore hi hf hcode)).1
  | result hi ht hf hl hcode =>
    exact (leads_insertBefore (Planning.gives_modify.mpr rfl) (.returning hi ht hf hl hcode)).1
  | replaced _ _ hpiece => exact leads_replaceWith (Planning.gives_modify.mpr rfl) hpiece

theorem leads_of_siteSteps (h : Relation.ReflTransGen (SiteStep c S s) p q) : p.Leads c S q := by
  induction h with
  | refl => exact .refl p
  | tail _ hs ih => exact ih.trans hs.leads

theorem SitePlanned.leads (h : SitePlanned c S s p q) : p.Leads c S q := by
  cases h with
  | steps h => exact leads_of_siteSteps h
  | literal hall hs hi _ =>
    obtain ⟨k, action⟩ := s
    obtain rfl := hs
    refine Leads.trans (q := { p with pool := _ }) ?_
      (leads_insertAfter (Planning.gives_modify.mpr rfl) (.literal hall hi)).1
    exact leads_of_same_pieces (fun u => by cases u <;> rfl) rfl rfl (fun _ => id)
      (fun _ _ => id) rfl rfl
      rfl rfl

theorem SiteStep.allNoted (h : SiteStep c S s p q) (hp : p.Sound c S) (hnoted : AllNoted c [] p) :
    AllNoted c [] q := by
  have hext := (h.leads hp).2
  cases h with
  | points h => exact h.keeps Step.allNoted hnoted
  | _ => exact fun slot l hl => (hnoted slot l hl).imp_right (.extend hext)

theorem SitePlanned.allNoted (h : SitePlanned c S s p q) (hp : p.Sound c S)
    (hnoted : AllNoted c [] p) :
    AllNoted c [] q := by
  have hext := (h.leads hp).2
  cases h with
  | literal => exact fun slot l hl => (hnoted slot l hl).imp_right (.extend hext)
  | steps h =>
    induction h with
    | refl => exact hnoted
    | tail h hs ih => exact hs.allNoted (leads_of_siteSteps h hp).1 (ih (leads_of_siteSteps h hp).2)

end Sites

end Plan

end Provenance
