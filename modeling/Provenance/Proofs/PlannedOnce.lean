/-
# Nothing is planned twice

Many sites may store the same value, and many merges may have it as a member.  Whatever the point of
the value needs is planned the first time it is asked for and found again from then on, and so it
stands in the plan once: one taking of the point for each read, one entry in the table of literals
for each literal.

`Plan.Tidy` says so of a plan, together with where its locals come from and where it replaces an
instruction; every step of planning keeps it (`Plan.Step.tidy`, `Plan.SiteStep.tidy`).
-/
import Provenance.Proofs.SelfContained

namespace Provenance

/-! ## 1. Literals that are registered -/

namespace LiteralPool

variable {m : Method} {p q r : LiteralPool} {c : Constant} {cs : List Constant}

/-- Registers the literal of an instruction: a whole number or a text. -/
def register (m : Method) (p : LiteralPool) : Constant → Except StoreError LiteralPool
  | .int value => (p.constant m value.toInt64).map Prod.snd
  | .str text => (p.string m text).map Prod.snd
  | _ => .ok p

/-- Registers literals one after the other. -/
def registerAll (m : Method) (p : LiteralPool) : List Constant → Except StoreError LiteralPool
  | [] => .ok p
  | c :: cs =>
    match p.register m c with
    | .error e => .error e
    | .ok p => p.registerAll m cs

theorem registerAll_snoc (h : p.registerAll m cs = .ok q) (hc : q.register m c = .ok r) :
    p.registerAll m (cs ++ [c]) = .ok r := by
  induction cs generalizing p with
  | nil =>
    cases h
    simp only [List.nil_append, registerAll, hc]
  | cons d cs ih =>
    simp only [List.cons_append, registerAll] at h ⊢
    split at h
    · exact absurd h (by simp)
    · exact ih h

end LiteralPool

/-! ## 2. Sites -/

namespace Site

theorem le_insn_of_among {m : Method} {a : Analysis} {breakInterning : Bool} {s : Site} :
    ∀ {insns : List Insn} {start : Nat}, s ∈ among m a breakInterning start insns →
    start ≤ s.insn := by
  intro insns
  induction insns with
  | nil => exact fun h => nomatch h
  | cons i rest ih =>
    intro start h
    unfold among at h
    simp only at h
    split at h
    · exact Nat.le_of_succ_le (ih h)
    · split at h
      · exact Nat.le_of_succ_le (ih h)
      · rcases List.mem_cons.mp h with rfl | h
        · exact Nat.le_refl _
        · exact Nat.le_of_succ_le (ih h)

theorem among_insn_nodup (m : Method) (a : Analysis) (breakInterning : Bool) :
    ∀ (insns : List Insn) (start : Nat),
      ((among m a breakInterning start insns).map Site.insn).Nodup := by
  intro insns
  induction insns with
  | nil => exact fun _ => List.nodup_nil
  | cons i rest ih =>
    intro start
    unfold among
    simp only
    split
    · exact ih (start + 1)
    · split
      · exact ih (start + 1)
      · rw [List.map_cons, List.nodup_cons]
        refine ⟨fun h => ?_, ih (start + 1)⟩
        obtain ⟨s, hs, heq⟩ := List.mem_map.mp h
        have hle := le_insn_of_among hs
        have heq' : s.insn = start := heq
        omega

/-- **An instruction is a site only once.** -/
theorem find_insn_nodup (m : Method) (a : Analysis) (breakInterning : Bool) :
    ((find m a breakInterning).map Site.insn).Nodup :=
  among_insn_nodup m a breakInterning m.insns 0

end Site

/-! ## 3. Tidy plans -/

namespace Plan

/-- The literals that were registered from one pool to another: each stands in the method, none
twice, and of those a plan remembers the numbers by their instruction and the texts by the sites
that were gone through. -/
structure Registered (c : PlanContext) (pool : LiteralPool) (done : List Nat)
    (constants : List (Nat × ClassConstant)) (pool' : LiteralPool)
    (entries : List (Nat × Constant)) :
    Prop where
  nodup : (entries.map Prod.fst).Nodup
  literals : ∀ e ∈ entries, c.method.insns[e.1]? = some (.const e.2)
  numbers : ∀ k n, (k, .int n) ∈ entries → (constants.lookup k).isSome
  texts : ∀ k text, (k, .str text) ∈ entries → k ∈ done
  registers : pool.registerAll c.method (entries.map Prod.snd) = .ok pool'

/-- A plan in which nothing is twice, after the sites at the instructions `done`. -/
structure Tidy (c : PlanContext) (S : List Site) (pool : LiteralPool) (done : List Nat) (p : Plan) :
    Prop where
  /-- In front of an instruction the point of a read is taken once, if there is a local for it. -/
  points : ∀ k, (codeAt k p.before).countP Tally.point.counts ≤
    if (p.pointLocals.lookup k).isSome then 1 else 0
  /-- Every local that was handed out is set by the prologue. -/
  locals : ∀ l, c.method.maxLocals ≤ l → l < p.nextLocal → l ∈ p.nullLocals ∨ p.ownRecord = some l
  replaced : ∀ e ∈ p.replaced, ∃ s ∈ S, s.insn = e.1 ∧ s.action.kind.replaces = true
  registered : ∃ entries, Registered c pool done p.constants p.pool entries

variable {c : PlanContext} {S : List Site} {pool : LiteralPool} {done : List Nat}
    {p q : Plan} {k : Nat}
  {code : List Insn}

theorem codeAt_append (k : Nat) (a b : List (Nat × List Insn)) :
    codeAt k (a ++ b) = codeAt k a ++ codeAt k b := List.flatMap_append

theorem Registered.mono {constants : List (Nat × ClassConstant)} {pool' : LiteralPool}
    {entries : List (Nat × Constant)} (h : Registered c pool done constants pool' entries)
    {done' : List Nat} (hdone : done ⊆ done') : Registered c pool done' constants pool' entries :=
  ⟨h.nodup, h.literals, h.numbers, fun k text he => hdone (h.texts k text he), h.registers⟩

theorem Tidy.mono (h : Tidy c S pool done p) {done' : List Nat} (hdone : done ⊆ done') :
    Tidy c S pool done' p := by
  obtain ⟨entries, hentries⟩ := h.registered
  exact ⟨h.points, h.locals, h.replaced, entries, hentries.mono hdone⟩

theorem start_tidy (c : PlanContext) (S : List Site) (pool : LiteralPool) :
    Tidy c S pool [] (start c pool) := by
  refine ⟨fun k => by simp [start, codeAt], fun l hl hlt => ?_, fun e he => ?_, [], ?_⟩
  · exact absurd hlt (Nat.not_lt_of_le hl)
  · cases he
  · exact ⟨List.nodup_nil, by simp, by simp, by simp, rfl⟩

/-! ### What steps keep -/

/-- Code that takes no point. -/
theorem Tidy.points_snoc (h : Tidy c S pool done p)
    (hcode : code.countP Tally.point.counts = 0) (j : Nat) :
    (codeAt j (p.before ++ [(k, code)])).countP Tally.point.counts ≤
      if (p.pointLocals.lookup j).isSome then 1 else 0 := by
  have hnew : (codeAt j [(k, code)]).countP Tally.point.counts = 0 :=
    codeAt_countP fun e he _ => List.mem_singleton.mp he ▸ hcode
  simp only [codeAt_append, List.countP_append, hnew, Nat.add_zero]
  exact h.points j

/-- One more local that the prologue sets. -/
theorem Tidy.locals_null (h : Tidy c S pool done p) (l : Nat) (hfirst : c.method.maxLocals ≤ l)
    (hlast : l < p.nextLocal + 1) : l ∈ p.nullLocals ++ [p.nextLocal] ∨ p.ownRecord = some l := by
  rw [List.mem_append, List.mem_singleton]
  rcases Nat.lt_or_eq_of_le (Nat.le_of_lt_succ hlast) with hlt | heq
  · exact (h.locals l hfirst hlt).imp_left Or.inl
  · exact Or.inl (Or.inr heq)

/-- One more literal. -/
theorem Registered.snoc {constants constants' : List (Nat × ClassConstant)}
    {pool₁ pool₂ : LiteralPool} {entries : List (Nat × Constant)} {literal : Constant}
    {done' : List Nat} (h : Registered c pool done constants pool₁ entries)
    (hfree : ∀ e ∈ entries, e.1 ≠ k) (hi : c.method.insns[k]? = some (.const literal))
    (hr : pool₁.register c.method literal = .ok pool₂)
    (hconstants : ∀ j, (constants.lookup j).isSome → (constants'.lookup j).isSome)
    (hdone : done ⊆ done') (hnumber : ∀ n, literal = .int n → (constants'.lookup k).isSome)
    (htext : ∀ text, literal = .str text → k ∈ done') :
    Registered c pool done' constants' pool₂ (entries ++ [(k, literal)]) := by
  have hlast : ∀ {e : Nat × Constant}, e ∈ entries ++ [(k, literal)] → e ∈ entries ∨
      e = (k, literal) := by
    simp
  refine ⟨?_, fun e he => ?_, fun j n he => ?_, fun j text he => ?_, ?_⟩
  · rw [List.map_append, List.nodup_append]
    refine ⟨h.nodup, by simp, fun j hj j' hj' => ?_⟩
    obtain ⟨e, he, rfl⟩ := List.mem_map.mp hj
    rw [show j' = k by simpa using hj']
    exact hfree e he
  · rcases hlast he with he | rfl
    · exact h.literals e he
    · exact hi
  · rcases hlast he with he | heq
    · exact hconstants j (h.numbers j n he)
    · cases heq
      exact hnumber n rfl
  · rcases hlast he with he | heq
    · exact hdone (h.texts j text he)
    · cases heq
      exact htext text rfl
  · rw [List.map_append]
    exact LiteralPool.registerAll_snoc h.registers hr

/-- **A number** is registered if its instruction has no place yet. -/
theorem Registered.number {n : Int32} {place : ClassConstant}
    {constants : List (Nat × ClassConstant)} {pool₁ pool₂ : LiteralPool}
    {entries : List (Nat × Constant)} (h : Registered c pool done constants pool₁ entries)
    (hi : c.method.insns[k]? = some (.const (.int n))) (hfree : constants.lookup k = none)
    (hplace : pool₁.constant c.method n.toInt64 = .ok (place, pool₂)) :
    Registered c pool done ((k, place) :: constants) pool₂ (entries ++ [(k, .int n)]) := by
  refine h.snoc (fun e he => ?_) hi (by simp [LiteralPool.register, hplace, Except.map])
    (fun j hj => ?_) (List.Subset.refl _) (fun _ _ => by simp) fun text heq => by simp at heq
  · rintro rfl
    obtain ⟨k, literal⟩ := e
    have hliteral := hi.symm.trans (h.literals _ he)
    simp only [Option.some.injEq, Insn.const.injEq] at hliteral
    have := h.numbers k n (hliteral ▸ he)
    simp [hfree] at this
  · rw [lookup_cons_if]
    split
    · rfl
    · exact hj

/-- **A text** is registered at a site that was not gone through before. -/
theorem Registered.text {text : String} {place : Nat × Nat} {constants : List (Nat × ClassConstant)}
    {pool₁ pool₂ : LiteralPool} {entries : List (Nat × Constant)}
    (h : Registered c pool done constants pool₁ entries)
    (hi : c.method.insns[k]? = some (.const (.str text))) (hnew : k ∉ done)
    (hplace : pool₁.string c.method text = .ok (place, pool₂)) :
    Registered c pool (k :: done) constants pool₂ (entries ++ [(k, .str text)]) := by
  refine h.snoc (fun e he => ?_) hi (by simp [LiteralPool.register, hplace, Except.map])
    (fun _ hj => hj) (List.subset_cons_self _ _) (fun n heq => by simp at heq) fun _ _ => by simp
  rintro rfl
  obtain ⟨k, literal⟩ := e
  have hliteral := hi.symm.trans (h.literals _ he)
  simp only [Option.some.injEq, Insn.const.injEq] at hliteral
  exact hnew (h.texts k text (hliteral ▸ he))

/-- Pushing a point takes none. -/
theorem Loading.takes_none (h : p.Loading code) : code.countP Tally.point.counts = 0 :=
  h.uncounted.countP .point

theorem TakesPoint.countP {take : List Insn} (h : TakesPoint c k take) (l : Nat) :
    (take ++ [Insn.store l]).countP Tally.point.counts = 1 := by
  cases h <;> rfl

/-- **The point of a read is taken once**: the second time there is a local for it. -/
theorem Tidy.points_taken {take : List Insn} (h : Tidy c S pool done p)
    (htake : TakesPoint c k take) (hfree : p.localOf (.point k) = none) (j : Nat) :
    (codeAt j (p.before ++ [(k, take ++ [.store p.nextLocal])])).countP Tally.point.counts ≤
      if (((k, p.nextLocal) :: p.pointLocals).lookup j).isSome then 1 else 0 := by
  have hfree' : p.pointLocals.lookup k = none := hfree
  have hj := h.points j
  rw [codeAt_append, lookup_cons_if]
  by_cases hjk : j = k
  · subst hjk
    have hone : codeAt j [(j, take ++ [.store p.nextLocal])] = take ++ [.store p.nextLocal] := by
      simp [codeAt]
    have hnone : (codeAt j p.before).countP Tally.point.counts = 0 := by simpa [hfree'] using hj
    simp only [hone, List.countP_append, hnone, htake.countP, if_true,
      Option.isSome_some, Nat.zero_add, Nat.le_refl]
  · have hother : codeAt j [(k, take ++ [.store p.nextLocal])] = [] := by
      simp [codeAt, Ne.symm hjk]
    simpa only [hother, List.append_nil, if_neg hjk] using hj

/-- **Whatever the point of a value needs** is planned once. -/
theorem Step.tidy {V V' : List MergeSlot} (hs : Step c V p V' q) (h : Tidy c S pool done p) :
    Tidy c S pool done q := by
  obtain ⟨entries, hentries⟩ := h.registered
  cases hs with
  | asked | room | dropped | made | closed => exact ⟨h.points, h.locals, h.replaced, h.registered⟩
  | record | opened => exact ⟨h.points, h.locals_null, h.replaced, h.registered⟩
  | number hi hfree hplace =>
    exact ⟨h.points, h.locals, h.replaced, _, hentries.number hi hfree hplace⟩
  | point htake hfree => exact ⟨h.points_taken htake hfree, h.locals_null, h.replaced, h.registered⟩
  | own hfree =>
    refine ⟨h.points, fun l hfirst hlast => ?_, h.replaced, h.registered⟩
    rcases Nat.lt_or_eq_of_le (Nat.le_of_lt_succ hlast) with hlt | heq
    · refine Or.inl ((h.locals l hfirst hlt).resolve_right fun hown => ?_)
      exact absurd (hfree.symm.trans hown) (by simp)
    · exact Or.inr (by rw [heq])
  | joined _ _ hcode =>
    refine ⟨h.points_snoc ?_, h.locals, h.replaced, h.registered⟩
    rw [List.countP_append, (loading_of_loadPoint hcode).takes_none]
    rfl

/-! ### Store sites -/

theorem SiteStep.tidy {s : Site} (hs : SiteStep c S s p q) (h : Tidy c S pool done p) :
    Tidy c S pool done q := by
  cases hs with
  | points hs => exact hs.keeps (P := fun _ p => Tidy c S pool done p) Step.tidy h
  | argument => exact ⟨h.points, h.locals, h.replaced, h.registered⟩
  | field _ _ hcode =>
    refine ⟨h.points_snoc ?_, h.locals, h.replaced, h.registered⟩
    rw [List.countP_append, List.countP_append, (loading_of_pointCode hcode).takes_none]
    rfl
  | result _ _ _ _ hcode =>
    refine ⟨h.points_snoc ?_, h.locals, h.replaced, h.registered⟩
    rw [List.cons_append, List.countP_cons, List.countP_append,
      (loading_of_loadPoint hcode).takes_none]
    rfl
  | replaced hall hkind =>
    refine ⟨h.points, h.locals, fun e he => ?_, h.registered⟩
    rcases List.mem_cons.mp he with rfl | he
    · exact ⟨s, hall, rfl, hkind⟩
    · exact h.replaced e he

/-- **One site** that was not gone through before. -/
theorem SitePlanned.tidy {s : Site} (hs : SitePlanned c S s p q) (hnew : s.insn ∉ done)
    (h : Tidy c S pool done p) : Tidy c S pool (s.insn :: done) q := by
  cases hs with
  | steps hs =>
    refine Tidy.mono ?_ (List.subset_cons_self _ _)
    induction hs with
    | refl => exact h
    | tail _ hs ih => exact hs.tidy ih
  | literal _ _ hi hplace =>
    obtain ⟨entries, hentries⟩ := h.registered
    exact ⟨h.points, h.locals, h.replaced, _, hentries.text hi hnew hplace⟩

/-- The instruction of a site is not one of the sites before it. -/
theorem insn_not_mem_of_nodup {sites before rest : List Site} {s : Site}
    (hnd : (sites.map Site.insn).Nodup) (hsplit : sites = before ++ s :: rest) :
    s.insn ∉ before.map Site.insn := by
  rw [hsplit, List.map_append, List.nodup_append] at hnd
  exact fun hmem => hnd.2.2 _ hmem _ (by simp) rfl

/-- **All sites**, each once. -/
theorem planSites_tidy (hc : c.analysis.Sound c.method) {breakInterning : Bool} {sites : List Site}
    (hsites : ∀ s ∈ sites, SiteAt c.method c.analysis breakInterning s ∧ s ∈ S)
    (hnd : (sites.map Site.insn).Nodup) (hp : p.Sound c S) (h : Tidy c S pool [] p)
    (hg : Planning.Gives (planSites c sites) p () q) : Tidy c S pool (sites.map Site.insn) q := by
  refine (planSites_keeps (P := fun before p => Tidy c S pool (before.map Site.insn) p) hc hsites
    (fun hsplit _ _ _ hplanned h => ?_) hp h hg).2
  exact (hplanned.tidy (insn_not_mem_of_nodup hnd hsplit) h).mono (by simp)

end Plan

/-- **The plan of a method** is tidy. -/
theorem Weaver.Plans.tidy {w : Weaver} {breakInterning : Bool} {pool : LiteralPool} {m : Method}
    {a : Analysis} {p : Plan} (h : w.Plans breakInterning pool m a p) :
    ∃ done, Plan.Tidy ⟨m, a⟩ (Site.find m a breakInterning) pool done p :=
  ⟨_, Plan.planSites_tidy h.woven.analysed (fun _ hs => ⟨Plan.siteAt_of_find hs, hs⟩)
    (Site.find_insn_nodup m a breakInterning) (Plan.start_sound pool)
    (Plan.start_tidy _ _ pool) h.planned⟩

end Provenance
