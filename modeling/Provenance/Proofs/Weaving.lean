/-
# Methods and classes before and after weaving

`Woven` is a method with its analysis and the plan that weaving put into it, together with what
the last files showed of them; whatever `Weaver.weaveMethod` changes is of that kind.  A woven
class has the same methods in the same order, each as it was or woven
(`Weaver.weaveClass_methods`).
-/
import Provenance.Proofs.Layout
import Provenance.Weave.Weaver

namespace Provenance

/-! ## 1. One method -/

/-- A method that was woven. -/
structure Woven where
  context : PlanContext
  /-- The sites its code was planned for. -/
  sites : List Site
  plan : Plan
  analysed : context.analysis.Sound context.method
  planned : plan.Sound context sites
  noted : ∀ slot l, plan.localOf (.merge slot) = some l → Plan.Noted context plan slot

namespace Woven

/-- The method as it was. -/
abbrev method (w : Woven) : Method := w.context.method

/-- The method as it is now. -/
abbrev result (w : Woven) : Method := w.plan.woven w.context.method

/-- The frame before an instruction of the original. -/
abbrev frame? (w : Woven) (k : Nat) : Option Frame := w.context.analysis.frame? k

/-- Where the block of an instruction begins. -/
abbrev startOf (w : Woven) (k : Nat) : Nat := w.plan.startOf w.context.method k

variable {v : Woven} {k : Nat} {i : Insn} {f : Frame}

/-- The instruction at a place, if there is one, is reached. -/
def HasFrame (v : Woven) (k : Nat) : Prop :=
  ∀ i, v.method.insns[k]? = some i → ∃ f, v.frame? k = some f

theorem hasFrame_next (hi : v.method.insns[k]? = some i) (hf : v.frame? k = some f)
    (hfall : i.fallsThrough = true) : v.HasFrame (k + 1) := by
  intro i' hi'
  obtain ⟨out, -, hedges⟩ := v.analysed.edges k i f hi hf
  have hlt := (List.getElem?_eq_some_iff.mp hi').1
  obtain ⟨g, hg, -⟩ := hedges _ (v.analysed.graph.following hi hfall hlt)
  exact ⟨g, hg⟩

theorem hasFrame_jump (hi : v.method.insns[k]? = some i) (hf : v.frame? k = some f) {l t : Nat}
    (hl : i.jumpTarget? = some l) (ht : v.method.labelAt? l = some t) : v.HasFrame t := by
  intro i' _
  obtain ⟨out, -, hedges⟩ := v.analysed.edges k i f hi hf
  obtain ⟨t', ht', hedge⟩ := v.analysed.graph.jump hi hl
  obtain rfl := Option.some.inj (ht.symm.trans ht')
  obtain ⟨g, hg, -⟩ := hedges _ hedge
  exact ⟨g, hg⟩

theorem hasFrame_zero (v : Woven) : v.HasFrame 0 := by
  intro i _
  obtain ⟨_, f, -, hf, -⟩ := v.analysed.first
  exact ⟨f, hf⟩

end Woven

namespace Weaver

/-- A weaver that takes all classes. -/
def everywhere : Weaver := ⟨⟨"", "", 100, .fifo⟩, ⟨[⟨true, .leading []⟩]⟩, ⟨[]⟩⟩

/-- A method passes the check as it is, with locals that can be declared and the depth it needs. -/
theorem of_checkDepth {m m' : Method} (h : checkDepth m = .ok m') :
    m' = m ∧ m.maxLocals ≤ localLimit ∧ ∃ depth, requiredStack m = .ok depth ∧
    depth ≤ m.maxStack := by
  unfold checkDepth at h
  split at h
  · exact absurd h (by simp)
  · rename_i hlocals
    split at h
    · exact absurd h (by simp)
    · rename_i depth hdepth
      split at h
      · exact absurd h (by simp)
      · rename_i hle
        exact ⟨(Except.ok.inj h).symm, Nat.not_lt.mp hlocals, depth, hdepth, Nat.not_lt.mp hle⟩

end Weaver

/-- A method is analysed and planned for as a weaver does it. -/
structure Weaver.Plans (w : Weaver) (breakInterning : Bool) (pool : LiteralPool) (m : Method)
    (a : Analysis) (p : Plan) : Prop where
  analysed : Analysis.ofMethod w.settings.order w.settings.maxIterations m = .ok a
  planned : Planning.Gives (Plan.planSites ⟨m, a⟩ (Site.find m a breakInterning))
    (Plan.start ⟨m, a⟩ pool) () p

variable {w : Weaver} {breakInterning : Bool} {pool : LiteralPool} {m : Method}
    {a : Analysis} {p : Plan}

/-- The method that is woven with a plan. -/
def Weaver.Plans.woven (h : w.Plans breakInterning pool m a p) : Woven :=
  have hsound := Analysis.ofMethod_sound h.analysed
  have hplanned := Plan.planSites_sound (c := ⟨m, a⟩) hsound h.planned
  ⟨⟨m, a⟩, Site.find m a breakInterning, p, hsound, hplanned.1, hplanned.2⟩

/-- **A method that is changed** was analysed and planned for. -/
theorem Weaver.weaveMethod_plans {pool' : LiteralPool} {m' : Method} {kinds : List SiteKind}
    (h : w.weaveMethod breakInterning pool m = (.ok (some (m', kinds)), pool')) :
    ∃ a p, w.Plans breakInterning pool m a p ∧ p.woven m = m' ∧
      kinds = (Site.find m a breakInterning).map fun s => s.action.kind := by
  unfold weaveMethod at h
  cases ha : Analysis.ofMethod w.settings.order w.settings.maxIterations m with
  | error e => simp [ha] at h
  | ok analysis =>
    simp only [ha] at h
    split at h
    · exact absurd h (by simp)
    · rcases hr : (Plan.planSites ⟨m, analysis⟩ (Site.find m analysis breakInterning)).run.run
        (Plan.start ⟨m, analysis⟩ pool) with ⟨r, plan⟩
      rw [hr] at h
      cases r with
      | error e => exact absurd h (by simp)
      | ok u =>
        simp only at h
        split at h
        · cases hd : checkDepth (plan.woven m) with
          | error e => simp [hd] at h
          | ok woven =>
            have hsame : woven = plan.woven m := (of_checkDepth hd).1
            simp only [hd, Prod.mk.injEq, Except.ok.injEq, Option.some.injEq] at h
            obtain ⟨⟨rfl, rfl⟩, -⟩ := h
            exact ⟨analysis, plan, ⟨ha, hr⟩, hsame.symm, rfl⟩
        · exact absurd h (by simp)

/-- **What weaving a method changes it into.** -/
theorem Weaver.weaveMethod_woven {pool' : LiteralPool} {m' : Method} {kinds : List SiteKind}
    (h : w.weaveMethod breakInterning pool m = (.ok (some (m', kinds)), pool')) :
    ∃ v : Woven, v.method = m ∧ v.result = m' ∧
      v.sites = Site.find m v.context.analysis breakInterning ∧
      kinds = v.sites.map fun s => s.action.kind := by
  obtain ⟨a, p, hp, hresult, hkinds⟩ := weaveMethod_plans h
  exact ⟨hp.woven, rfl, hresult, rfl, hkinds⟩

/-- String literals are sites only where they become instances of their own. -/
theorem Site.stringLiteral_not_mem {m : Method} {a : Analysis} {k : Nat} {text : String} :
    ⟨k, .stringLiteral text⟩ ∉ Site.find m a false := by
  intro h
  obtain ⟨i, f, -, -, haction⟩ := Plan.siteAt_of_find h
  cases i with
  | const c => cases c <;> simp [action?] at haction
  | invoke target =>
    simp only [action?] at haction
    grind [Option.map_eq_some_iff]
  | _ => simp [action?] at haction

/-! ## 2. One class -/

/-- A method of a woven class, next to the one it was. -/
def WovenFrom (breakInterning : Bool) (kinds : List SiteKind) (m m' : Method) : Prop :=
  m' = m ∨ ∃ v : Woven, v.method = m ∧ v.result = m' ∧
    v.sites = Site.find m v.context.analysis breakInterning ∧
    ∀ s ∈ v.sites, s.action.kind ∈ kinds

theorem Weaver.weaveMethods_spec {w : Weaver} {breakInterning : Bool} : ∀ {ms ms' : List Method}
    {pool pool' : LiteralPool} {r r' : WeaveReport},
    w.weaveMethods breakInterning pool r ms = (ms', r', pool') →
    r.sites ⊆ r'.sites ∧ List.Forall₂ (WovenFrom breakInterning r'.sites) ms ms' := by
  intro ms
  induction ms with
  | nil =>
    intro ms' pool pool' r r' h
    simp only [weaveMethods, Prod.mk.injEq] at h
    obtain ⟨rfl, rfl, -⟩ := h
    exact ⟨List.Subset.refl _, .nil⟩
  | cons m ms ih =>
    intro ms' pool pool' r r' h
    unfold weaveMethods at h
    split at h
    · rename_i woven kinds pool₁ hw
      simp only [Prod.mk.injEq] at h
      obtain ⟨rfl, rfl, -⟩ := h
      obtain ⟨hsub, hall⟩ := ih (show w.weaveMethods breakInterning pool₁ _ ms = (_, _, _) from rfl)
      obtain ⟨v, hm, hm', hsites, hkinds⟩ := weaveMethod_woven hw
      refine ⟨fun k hk => hsub (List.mem_append_left _ hk),
        .cons (Or.inr ⟨v, hm, hm', hsites, ?_⟩) hall⟩
      intro s hs
      refine hsub (List.mem_append_right _ ?_)
      rw [hkinds]
      exact List.mem_map_of_mem hs
    · rename_i pool₁ hw
      simp only [Prod.mk.injEq] at h
      obtain ⟨rfl, rfl, -⟩ := h
      obtain ⟨hsub, hall⟩ := ih (show w.weaveMethods breakInterning pool₁ _ ms = (_, _, _) from rfl)
      exact ⟨hsub, .cons (Or.inl rfl) hall⟩
    · rename_i e pool₁ hw
      simp only [Prod.mk.injEq] at h
      obtain ⟨rfl, rfl, -⟩ := h
      obtain ⟨hsub, hall⟩ := ih (show w.weaveMethods breakInterning pool₁ _ ms = (_, _, _) from rfl)
      exact ⟨hsub, .cons (Or.inl rfl) hall⟩

/-- **A woven class** has the same methods in the same order, each as it was or woven. -/
theorem Weaver.weaveClass_methods {w : Weaver} {store store' : Store} {c c' : Class}
    {r : WeaveReport} (h : w.weaveClass store c = (c', r, store')) :
    c'.name = c.name ∧
      List.Forall₂ (WovenFrom (w.interning.includes c.name) r.sites) c.methods c'.methods := by
  unfold weaveClass at h
  simp only at h
  split at h
  · simp only [Prod.mk.injEq] at h
    obtain ⟨rfl, rfl, -⟩ := h
    exact ⟨rfl, (weaveMethods_spec
      (show w.weaveMethods _ (LiteralPool.ofClass store c.name) _ c.methods =
        (_, _, _) from rfl)).2⟩
  · simp only [Prod.mk.injEq] at h
    obtain ⟨rfl, rfl, -⟩ := h
    exact ⟨rfl, List.forall₂_same.mpr fun m _ => Or.inl rfl⟩

end Provenance
