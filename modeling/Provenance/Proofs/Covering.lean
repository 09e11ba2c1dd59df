/-
# Weaving passes over no site

A plan that was made for all sites of a method holds the code of each of them (`Plan.Covers`): what
is stored into an array, copied, cloned or compared is replaced, a field that is written has its
point recorded before, a literal becomes a copy after.  Only calls, returns and concatenations may
stay without code, where nothing can be followed.

A method that weaving leaves as it is has no site of the first kind.  So it too can be looked at as
woven, with a plan that adds nothing (`Weaver.Weaves.woven`), and statements about code that was
woven need no second case.
-/
import Provenance.Proofs.Planning
import Provenance.Proofs.Weaving

namespace Provenance

/-! ## 1. The code of a site -/

namespace Plan

variable {c : PlanContext} {S : List Site} {p q : Plan} {s : Site}

/-- The code of a site is there, if it is of a kind that always gets code. -/
def Covers (p : Plan) (s : Site) : Prop :=
  match s.action with
  | .arrayStore _ _ | .stringComparison _ _ | .arrayCopy | .arrayClone =>
    ∃ code, (s.insn, code) ∈ p.replaced
  | .fieldStore key _ =>
    ∃ code, (s.insn, [.dup2, .pop] ++ code ++ [.hook (.setFieldPoint key)]) ∈ p.before
  | .stringLiteral _ =>
    ∃ classId offset, (s.insn, [.hook (.constantString classId offset)]) ∈ p.after
  | .callArguments _ | .returnValue _ | .concat _ _ => True

/-- Code stays while a plan grows. -/
theorem Covers.extend (h : p.Covers s) (hext : p.Extends q) : q.Covers s := by
  obtain ⟨k, action⟩ := s
  cases action with
  | fieldStore key v =>
    obtain ⟨code, hmem⟩ := h
    exact ⟨code, hext.before _ hmem⟩
  | stringLiteral text =>
    obtain ⟨classId, offset, hmem⟩ := h
    exact ⟨classId, offset, hext.after _ hmem⟩
  | callArguments _ | returnValue _ | concat _ _ => trivial
  | arrayStore _ _ | stringComparison _ _ | arrayCopy | arrayClone =>
    obtain ⟨code, hmem⟩ := h
    exact ⟨code, hext.replaced _ hmem⟩

/-- An instruction for which code was planned that takes its place. -/
theorem covers_replaced {k : Nat} {code : List Insn}
    (h : Planning.Gives (replaceWith k code) p () q) :
    ∃ code, (k, code) ∈ q.replaced := by
  rw [Planning.gives_modify.mp h]
  exact ⟨code, List.mem_cons_self⟩

/-- **Planning for a site** covers it. -/
theorem planSite_covers (h : Planning.Gives (planSite c s) p () q) : q.Covers s := by
  obtain ⟨k, action⟩ := s
  cases action with
  | arrayStore elem v =>
    simp only [planSite, Planning.gives_bind] at h
    obtain ⟨code, p₁, -, height, p₂, -, _, p₃, -, hreplace⟩ := h
    exact covers_replaced hreplace
  | fieldStore key v =>
    simp only [planSite, Planning.gives_bind] at h
    obtain ⟨code, p₁, -, height, p₂, -, _, p₃, -, hinsert⟩ := h
    refine ⟨code, ?_⟩
    rw [Planning.gives_modify.mp hinsert]
    exact List.mem_append_right _ List.mem_cons_self
  | stringLiteral text =>
    simp only [planSite, Planning.gives_bind] at h
    obtain ⟨⟨classId, offset⟩, p₁, -, hinsert⟩ := h
    refine ⟨classId, offset, ?_⟩
    rw [Planning.gives_modify.mp hinsert]
    exact List.mem_append_right _ List.mem_cons_self
  | callArguments _ | returnValue _ | concat _ _ => trivial
  | stringComparison _ _ | arrayCopy | arrayClone => exact covers_replaced h

/-- **No site is passed over.** -/
theorem planSites_covers (hc : c.analysis.Sound c.method) {breakInterning : Bool}
    {sites : List Site} {p q : Plan}
    (hsites : ∀ s ∈ sites, SiteAt c.method c.analysis breakInterning s ∧ s ∈ S)
    (h : Planning.Gives (planSites c sites) p () q) (hp : p.Sound c S) :
    ∀ s ∈ sites, q.Covers s := by
  refine (planSites_keeps (P := fun done p => ∀ s ∈ done, p.Covers s) hc hsites
    (fun _ _ hp hs hplanned hdone t ht => ?_) hp (by simp) h).2
  rcases List.mem_append.mp ht with ht | ht
  · exact (hdone t ht).extend (hplanned.leads hp).2
  · obtain rfl := List.mem_singleton.mp ht
    exact planSite_covers hs

end Plan

/-! ## 2. Methods that went through weaving -/

/-- A woven method all of whose sites are covered. -/
structure Woven.Covering (v : Woven) (breakInterning : Bool) : Prop where
  covers : ∀ {k : Nat} {i : Insn} {f : Frame} {action : SiteAction},
    v.method.insns[k]? = some i → v.frame? k = some f →
    Site.action? v.method breakInterning f i = some action → v.plan.Covers ⟨k, action⟩

theorem Weaver.Plans.covering {w : Weaver} {breakInterning : Bool} {pool : LiteralPool} {m : Method}
    {a : Analysis} {p : Plan} (h : w.Plans breakInterning pool m a p) :
    h.woven.Covering breakInterning where
  covers hi hf haction :=
    Plan.planSites_covers (S := Site.find m a breakInterning) h.woven.analysed
      (fun _ hs => ⟨Plan.siteAt_of_find hs, hs⟩) h.planned (Plan.start_sound pool) _
      (Plan.mem_find hi hf haction)

namespace Plan

/-- A plan that adds nothing. -/
theorem start_block (c : PlanContext) (pool : LiteralPool) (k : Nat) (i : Insn) :
    (start c pool).block k i = [i] := by
  cases i <;> rfl

theorem start_blocks (c : PlanContext) (pool : LiteralPool) : ∀ (insns : List Insn) (k : Nat),
    (start c pool).blocks k insns = insns
  | [], _ => rfl
  | i :: insns, k => by
    rw [blocks, start_block, start_blocks c pool insns (k + 1)]
    rfl

theorem start_woven_insns (c : PlanContext) (pool : LiteralPool) (m : Method) :
    ((start c pool).woven m).insns = m.insns := start_blocks c pool m.insns 0

/-- A plan without edits covers only sites that need no code. -/
theorem Covers.start {p : Plan} {s : Site} (h : p.Covers s) (hedits : p.hasEdits = false)
    (c : PlanContext) (pool : LiteralPool) : (start c pool).Covers s := by
  simp only [hasEdits, Bool.not_eq_false', Bool.and_eq_true, List.isEmpty_iff] at hedits
  obtain ⟨⟨⟨⟨hbefore, hafter⟩, hreplaced⟩, -⟩, -⟩ := hedits
  obtain ⟨k, action⟩ := s
  cases action with
  | fieldStore key v =>
    obtain ⟨code, hmem⟩ := h
    rw [hbefore] at hmem
    cases hmem
  | stringLiteral text =>
    obtain ⟨classId, offset, hmem⟩ := h
    rw [hafter] at hmem
    cases hmem
  | callArguments _ | returnValue _ | concat _ _ => trivial
  | arrayStore _ _ | stringComparison _ _ | arrayCopy | arrayClone =>
    obtain ⟨code, hmem⟩ := h
    rw [hreplaced] at hmem
    cases hmem

end Plan

/-- Weaving a method goes well and gives another one, or leaves it as it is. -/
def Weaver.Weaves (w : Weaver) (breakInterning : Bool) (m m' : Method) : Prop :=
  ∃ pool pool' r, w.weaveMethod breakInterning pool m = (.ok r, pool') ∧
    m' = match r with
      | some (woven, _) => woven
      | none => m

/-- A method that needs no change, as one that was woven. -/
def Woven.unchanged {m : Method} {a : Analysis} (ha : a.Sound m) (pool : LiteralPool) : Woven :=
  ⟨⟨m, a⟩, [], .start ⟨m, a⟩ pool, ha, Plan.start_sound pool, fun _ _ h => nomatch h⟩

/-- **Whatever goes through weaving** has the code of a woven method in which no site is passed
over. -/
theorem Weaver.Weaves.woven {w : Weaver} {breakInterning : Bool} {m m' : Method}
    (h : w.Weaves breakInterning m m') :
    ∃ v : Woven, v.method = m ∧ m'.insns = v.result.insns ∧ v.Covering breakInterning := by
  obtain ⟨pool, pool', r, hweave, hm'⟩ := h
  cases r with
  | some r =>
    obtain ⟨woven, kinds⟩ := r
    obtain ⟨a, p, hplans, rfl, -⟩ := weaveMethod_plans hweave
    exact ⟨hplans.woven, rfl, congrArg Method.insns hm', hplans.covering⟩
  | none =>
    obtain rfl : m' = m := hm'
    unfold weaveMethod at hweave
    cases ha : Analysis.ofMethod w.settings.order w.settings.maxIterations m' with
    | error e => simp [ha] at hweave
    | ok a =>
      have hsound := Analysis.ofMethod_sound ha
      refine ⟨.unchanged hsound pool, rfl, (Plan.start_woven_insns _ _ _).symm, ⟨?_⟩⟩
      intro k i f action hi hf haction
      have hmem : ⟨k, action⟩ ∈ Site.find m' a breakInterning := Plan.mem_find hi hf haction
      simp only [ha] at hweave
      split at hweave
      · rename_i hnone
        rw [List.isEmpty_iff.mp hnone] at hmem
        cases hmem
      · rcases hr : (Plan.planSites ⟨m', a⟩ (Site.find m' a breakInterning)).run.run
          (Plan.start ⟨m', a⟩ pool) with ⟨r, p⟩
        rw [hr] at hweave
        cases r with
        | error e => simp at hweave
        | ok u =>
          have hplans : w.Plans breakInterning pool m' a p := ⟨ha, hr⟩
          refine (hplans.covering.covers hi hf haction).start ?_ _ _
          simp only at hweave
          split at hweave
          · split at hweave <;> simp at hweave
          · rename_i hedits
            exact Bool.eq_false_iff.mpr hedits

end Provenance
