/-
# Woven code is not woven again

Whatever weaving changes in a method, it puts a hook where the method can get to
(`Weaver.Plans.hook_reached`).  All ways of the method are still ways of the woven one, from block
to block (`Woven.comes_reached`), so an analysis of the woven method would come to the hook, which
it does not take.  Hence a second pass over a class changes nothing (`Weaver.weaveClass_twice`).
-/
import Provenance.Proofs.Adding
import Provenance.Proofs.Covering
import Provenance.Proofs.Growing
import Provenance.Proofs.Measuring

namespace Provenance

/-! ## 1. Arguments stay recorded -/

namespace Planning

variable {α : Type}

/-- Planning only adds to the arguments that are recorded. -/
def Adds (x : Planning α) : Prop := ∀ p, p.arguments <+: (x.run.run p).2.arguments

end Planning

namespace Plan

variable (c : PlanContext)

theorem recordArguments_adds (k : Nat) (args : List (Option FlowValue)) (arg : Nat) :
    Planning.Adds (recordArguments c k arg args) :=
  fun p => (recordArguments_grows c k args arg p).arguments

theorem planSite_adds (s : Site) : Planning.Adds (planSite c s) :=
  fun p => (planSite_grows c s p).arguments

/-! ## 2. Every change brings a hook -/

variable {c} {S : List Site} {p q : Plan}

/-- Nothing was planned; it may have been decided what can be followed. -/
def Idle (p q : Plan) : Prop := ∃ memo, q = { p with memo }

theorem Idle.trans {r : Plan} (h : p.Idle q) (h' : q.Idle r) : p.Idle r := by
  obtain ⟨memo, rfl⟩ := h
  obtain ⟨memo', rfl⟩ := h'
  exact ⟨memo', rfl⟩

theorem Idle.of_isTrackable {v : FlowValue} {followed : Bool}
    (h : Planning.Gives (isTrackable c v) p followed q) : p.Idle q := by
  exact ⟨_, (Planning.gives_isTrackable h).2⟩

/-- Something was planned that brings a hook with it, at an instruction that is reached. -/
inductive Hooked (c : PlanContext) (p : Plan) : Prop where
  | argument (h : p.arguments ≠ [])
  | before {k : Nat} {f : Frame} {code : List Insn} {h : Hook} (hf : c.analysis.frame? k = some f)
      (hcode : (k, code) ∈ p.before) (hhook : .hook h ∈ code)
  | replaced {k : Nat} {f : Frame} {code : List Insn} (hf : c.analysis.frame? k = some f)
      (hcode : (k, code) ∈ p.replaced)
  | after {k : Nat} {i : Insn} {f : Frame} {code : List Insn} {h : Hook}
      (hi : c.method.insns[k]? = some i) (hfall : i.fallsThrough = true)
      (hf : c.analysis.frame? k = some f) (hcode : (k, code) ∈ p.after) (hhook : .hook h ∈ code)

/-- What was planned stays planned. -/
theorem Hooked.extend (h : Hooked c p) (hext : p.Extends q) (hadds : p.arguments <+: q.arguments) :
    Hooked c q := by
  cases h with
  | argument h =>
    refine .argument fun hnone => h ?_
    rw [hnone] at hadds
    exact List.prefix_nil.mp hadds
  | before hf hcode hhook => exact .before hf (hext.before _ hcode) hhook
  | replaced hf hcode => exact .replaced hf (hext.replaced _ hcode)
  | after hi hfall hf hcode hhook => exact .after hi hfall hf (hext.after _ hcode) hhook

/-- Where no argument is recorded, nothing is planned. -/
theorem recordArguments_hooks {k : Nat} : ∀ {args : List (Option FlowValue)} {arg : Nat}
    {recorded : Bool} {p q : Plan}, Planning.Gives (recordArguments c k arg args) p recorded q →
    (recorded = false ∧ p.Idle q) ∨ q.arguments ≠ []
  | [], _, _, p, _, h => by
    obtain ⟨rfl, rfl⟩ := Planning.gives_pure.mp h
    exact .inl ⟨rfl, p.memo, rfl⟩
  | none :: rest, arg, recorded, p, q, h =>
    recordArguments_hooks
      (show Planning.Gives (recordArguments c k (arg + 1) rest) p recorded q from h)
  | some v :: rest, arg, recorded, p, q, h => by
    obtain ⟨followed, _, htrack, h⟩ := Planning.gives_bind.mp h
    split at h
    · simp only [Planning.gives_bind, Planning.gives_pure] at h
      obtain ⟨_, p₁, -, code, p₂, -, _, p₃, hadd, _, _, hmore, -, rfl⟩ := h
      refine .inr fun hnone => ?_
      have hadds := recordArguments_adds c k rest (arg + 1) p₃
      rw [show (recordArguments c k (arg + 1) rest).run.run p₃ = _ from hmore, hnone,
        Planning.gives_modify.mp hadd] at hadds
      simpa using List.prefix_nil.mp hadds
    · exact (recordArguments_hooks h).imp_left fun ⟨hnone, hidle⟩ =>
        ⟨hnone, (Idle.of_isTrackable htrack).trans hidle⟩

/-- Where no operand is marked, nothing is planned. -/
theorem concatPoints_hooks : ∀ {ts : List Ty} {vs : List FlowValue} {r : List Char × List Insn}
    {p q : Plan}, Planning.Gives (concatPoints c ts vs) p r q → r.1.count 'T' = 0 → p.Idle q
  | [], _, _, p, _, h, _ => by
    obtain ⟨rfl, rfl⟩ := Planning.gives_pure.mp h
    exact ⟨p.memo, rfl⟩
  | _ :: _, [], _, p, _, h, _ => by
    obtain ⟨rfl, rfl⟩ := Planning.gives_pure.mp h
    exact ⟨p.memo, rfl⟩
  | t :: ts, v :: vs, r, p, q, h, hcount => by
    have hunmarked : ∀ {p : Plan}, Planning.Gives
        (concatPoints c ts vs >>= fun r => pure ('.' :: r.1, r.2)) p r q → p.Idle q := by
      intro p h
      obtain ⟨r', _, hrest, h⟩ := Planning.gives_bind.mp h
      obtain ⟨rfl, rfl⟩ := Planning.gives_pure.mp h
      exact concatPoints_hooks hrest (by simpa using hcount)
    unfold concatPoints at h
    split at h
    · obtain ⟨followed, _, htrack, h⟩ := Planning.gives_bind.mp h
      beta_reduce at h
      split at h
      · simp only [Planning.gives_bind, Planning.gives_pure] at h
        obtain ⟨_, _, -, _, _, -, _, _, -, rfl, -⟩ := h
        simp at hcount
      · exact (Idle.of_isTrackable htrack).trans (hunmarked h)
    · obtain ⟨_, _, hpure, h⟩ := Planning.gives_bind.mp h
      obtain ⟨rfl, rfl⟩ := Planning.gives_pure.mp hpure
      exact hunmarked h

/-- **Planning for a site** plans nothing, or brings a hook. -/
theorem planSite_hooks {breakInterning : Bool} {s : Site}
    (hs : SiteAt c.method c.analysis breakInterning s) (h : Planning.Gives (planSite c s) p () q) :
    p.Idle q ∨ Hooked c q := by
  obtain ⟨k, action⟩ := s
  obtain ⟨i, f, hi, hf, haction⟩ := hs
  have hcovers := planSite_covers h
  cases siteForm_of_action haction with
  | arrayStore _ | arrayCopy _ | arrayClone _ _ | stringComparison _ _ =>
    obtain ⟨code, hcode⟩ := hcovers
    exact .inr (.replaced hf hcode)
  | fieldStore fd =>
    obtain ⟨code, hcode⟩ := hcovers
    exact .inr (.before hf hcode (List.mem_append_right _ List.mem_cons_self))
  | stringLiteral text =>
    obtain ⟨classId, offset, hcode⟩ := hcovers
    exact .inr (.after hi rfl hf hcode List.mem_cons_self)
  | callArguments _ _ _ =>
    simp only [planSite, Planning.gives_bind] at h
    obtain ⟨recorded, p₁, hrecord, h⟩ := h
    rcases recordArguments_hooks hrecord with ⟨rfl, hmemo⟩ | harguments
    · obtain ⟨-, rfl⟩ := Planning.gives_pure.mp h
      exact .inl hmemo
    · refine .inr (.argument ?_)
      split at h
      · obtain ⟨_, _, hbefore, hroom⟩ := Planning.gives_bind.mp h
        rw [Planning.gives_requireStack hroom, Planning.gives_stackBefore hbefore]
        exact harguments
      · obtain ⟨-, rfl⟩ := Planning.gives_pure.mp h
        exact harguments
  | returnValue _ =>
    obtain ⟨followed, _, htrack, h⟩ := Planning.gives_bind.mp h
    split at h
    · simp only [Planning.gives_bind] at h
      obtain ⟨_, _, -, l, _, -, code, _, -, _, _, -, _, _, -, hinsert⟩ := h
      rw [Planning.gives_modify.mp hinsert]
      exact .inr (.before hf (List.mem_append_right _ List.mem_cons_self)
        (List.mem_append_right _ List.mem_cons_self))
    · obtain ⟨-, rfl⟩ := Planning.gives_pure.mp h
      exact .inl (.of_isTrackable htrack)
  | concat args =>
    simp only [planSite, Planning.gives_bind] at h
    obtain ⟨⟨mask, loads⟩, p₁, hpoints, h⟩ := h
    simp only at h
    split at h
    · simp only [Planning.gives_bind] at h
      obtain ⟨_, _, -, _, _, -, hreplace⟩ := h
      obtain ⟨code, hcode⟩ := covers_replaced hreplace
      exact .inr (.replaced hf hcode)
    · rename_i hnone
      obtain ⟨-, rfl⟩ := Planning.gives_pure.mp h
      exact .inl (concatPoints_hooks hpoints (Nat.eq_zero_of_not_pos hnone))

/-- **Planning for sites** plans nothing, or brings a hook. -/
theorem planSites_hooks (hc : c.analysis.Sound c.method) {breakInterning : Bool} {sites : List Site}
    (hsites : ∀ s ∈ sites, SiteAt c.method c.analysis breakInterning s ∧ s ∈ S)
    (h : Planning.Gives (planSites c sites) p () q) (hp : p.Sound c S) : p.Idle q ∨ Hooked c q := by
  refine (planSites_keeps (P := fun _ r => p.Idle r ∨ Hooked c r) hc hsites ?_ hp
    (.inl ⟨p.memo, rfl⟩) h).2
  intro _ _ s r r' _ hat hr hs hplanned hdone
  rcases hdone with hidle | hhooked
  · exact (planSite_hooks hat hs).imp_left hidle.trans
  · have hadds := planSite_adds c s r
    rw [show (planSite c s).run.run r = _ from hs] at hadds
    exact .inr (hhooked.extend (hplanned.leads hr).2 hadds)

end Plan

/-! ## 3. The ways of the method in the woven one -/

/-- An instruction that brings a hook in place of another. -/
theorem Plan.ReplacedPiece.hook {c : PlanContext} {S : List Site} {p : Plan} {k : Nat} {i : Insn}
    {code : List Insn} (h : ReplacedPiece c S p k code) (hi : c.method.insns[k]? = some i) :
    i.label? = none ∧ ∃ h, .hook h ∈ code := by
  cases h with
  | arrayStore hi' _ _ | concat hi' _ _ =>
    rw [Option.some.inj (hi.symm.trans hi')]
    exact ⟨rfl, _, List.mem_append_right _ List.mem_cons_self⟩
  | @stringComparison equal target hi' _ =>
    rw [Option.some.inj (hi.symm.trans hi')]
    exact ⟨by cases equal <;> rfl, _, List.mem_cons_self⟩
  | arrayCopy hi' _ | arrayClone hi' _ _ =>
    rw [Option.some.inj (hi.symm.trans hi')]
    exact ⟨rfl, _, List.mem_cons_self⟩

/-- An analysis comes to a place, if there is an instruction. -/
def Analysis.Comes (a : Analysis) (m : Method) (pc : Nat) : Prop :=
  ∀ i, m.insns[pc]? = some i → ∃ f, a.frame? pc = some f

namespace Analysis.Comes

variable {a : Analysis} {m : Method} {pc : Nat} {code rest : List Insn} {j : Insn}

theorem getElem?_of_drop (hcode : m.insns.drop pc = code ++ j :: rest) :
    m.insns[pc + code.length]? = some j := by
  rw [← List.getElem?_drop, hcode, List.getElem?_append_right (Nat.le_refl _), Nat.sub_self]
  rfl

/-- **Along code that falls through.** -/
theorem along (ha : a.Sound m) : ∀ {code : List Insn} {pc : Nat}, a.Comes m pc →
    m.insns.drop pc = code ++ rest → (∀ i ∈ code, i.fallsThrough = true) →
    a.Comes m (pc + code.length)
  | [], _, h, _, _ => h
  | i :: code, pc, h, hcode, hfalls => by
    obtain ⟨hfall, hfalls⟩ := List.forall_mem_cons.mp hfalls
    have hi : m.insns[pc]? = some i :=
      getElem?_of_drop (show m.insns.drop pc = [] ++ i :: (code ++ rest) from hcode)
    have hnext : a.Comes m (pc + 1) := by
      intro i' hi'
      obtain ⟨f, hf⟩ := h i hi
      obtain ⟨out, -, hedges⟩ := ha.edges pc i f hi hf
      obtain ⟨g, hg, -⟩ :=
        hedges _ (ha.graph.following hi hfall (List.getElem?_eq_some_iff.mp hi').1)
      exact ⟨g, hg⟩
    have hdrop : m.insns.drop (pc + 1) = code ++ rest := by
      rw [← List.drop_drop, hcode]
      rfl
    rw [List.length_cons, Nat.add_comm code.length, ← Nat.add_assoc]
    exact along ha hnext hdrop hfalls

/-- **To a jump**, and where it goes. -/
theorem jump (ha : a.Sound m) (h : a.Comes m pc) (hcode : m.insns.drop pc = code ++ j :: rest)
    (hfalls : ∀ i ∈ code, i.fallsThrough = true) {l t : Nat} (hl : j.jumpTarget? = some l)
    (ht : m.labelAt? l = some t) : a.Comes m t := by
  intro i' _
  have hj := getElem?_of_drop hcode
  obtain ⟨f, hf⟩ := along ha h hcode hfalls j hj
  obtain ⟨out, -, hedges⟩ := ha.edges _ j f hj hf
  obtain ⟨t', ht', hedge⟩ := ha.graph.jump hj hl
  obtain rfl := Option.some.inj (ht.symm.trans ht')
  obtain ⟨g, hg, -⟩ := hedges _ hedge
  exact ⟨g, hg⟩

/-- **Not to a hook.** -/
theorem not_hook (ha : a.Sound m) (h : a.Comes m pc) {code' : List Insn}
    (hcode : m.insns.drop pc = code ++ (code' ++ rest))
    (hfalls : ∀ i ∈ code ++ code', i.fallsThrough = true) (hk : Hook) : .hook hk ∉ code' := by
  intro hmem
  obtain ⟨ahead, behind, rfl⟩ := List.append_of_mem hmem
  have hcode' : m.insns.drop pc = (code ++ ahead) ++ .hook hk :: (behind ++ rest) := by
    rw [hcode]
    simp
  have hi := getElem?_of_drop hcode'
  obtain ⟨f, hf⟩ := along ha h hcode' (fun i hi => hfalls i (by simp at hi ⊢; tauto)) _ hi
  exact ha.not_hook hi hf hk rfl

end Analysis.Comes

namespace Woven

variable {v : Woven} {a : Analysis} {k : Nat} {i : Insn}

theorem ahead_falls (hi : v.method.insns[k]? = some i) :
    ∀ j ∈ v.plan.ahead k i, j.fallsThrough = true := fun j hj =>
  (Insn.Added.inserted (Plan.ahead_inserted v.planned hi j hj)).fallsThrough

/-- A block is left where its instruction is left. -/
theorem block_falls (hi : v.method.insns[k]? = some i) (hfall : i.fallsThrough = true) :
    ∀ j ∈ v.plan.block k i, j.fallsThrough = true := by
  intro j hj
  rcases mem_block hi hj with ⟨rfl, -⟩ | hadded
  · exact hfall
  · exact hadded.fallsThrough

/-- The block of an instruction that is no label. -/
theorem drop_block (hi : v.method.insns[k]? = some i) (hlabel : i.label? = none) :
    v.result.insns.drop (v.startOf k) = v.plan.ahead k i ++
      (v.plan.inPlace k i ++ (v.plan.behind k ++ v.result.insns.drop (v.startOf (k + 1)))) := by
  rw [show v.result.insns.drop (v.startOf k) = _ from v.plan.woven_drop_block hi,
    Plan.block_other _ _ hlabel]
  simp only [List.append_assoc]

/-- **From a block to the next**, where the instruction leads on. -/
theorem comes_next (ha : a.Sound v.result) (hi : v.method.insns[k]? = some i)
    (h : a.Comes v.result (v.startOf k)) (hfall : i.fallsThrough = true) :
    a.Comes v.result (v.startOf (k + 1)) := by
  rw [show v.startOf (k + 1) = _ from v.plan.startOf_succ hi]
  exact h.along ha (v.plan.woven_drop_block hi) (block_falls hi hfall)

/-- **From a block to another**, where the instruction jumps. -/
theorem comes_jump (ha : a.Sound v.result) (hi : v.method.insns[k]? = some i)
    (h : a.Comes v.result (v.startOf k)) {l t : Nat} (hl : i.jumpTarget? = some l)
    (ht : v.method.labelAt? l = some t) : a.Comes v.result (v.startOf t) := by
  have hlabel : i.label? = none := by
    cases i <;> first | rfl | exact nomatch hl
  have hcode := drop_block hi hlabel
  have hahead := ahead_falls (v := v) hi
  cases hreplaced : v.plan.replaced.lookup k with
  | none =>
    have hplace : v.plan.inPlace k i = [i] := by
      simp only [Plan.inPlace, hreplaced, Option.getD_none]
    rw [hplace] at hcode
    refine h.jump ha hcode hahead hl ?_
    rw [show v.result.labelAt? l = _ from Plan.labelAt?_woven v.planned _ l, ht]
    rfl
  | some code =>
    -- a jump that is replaced brings a hook, and there is no way past it
    have hpiece := v.planned.replaced _ (mem_of_lookup hreplaced)
    obtain ⟨-, hk, hhook⟩ := hpiece.hook hi
    have hplace : v.plan.inPlace k i = code := by
      simp only [Plan.inPlace, hreplaced, Option.getD_some]
    rw [hplace] at hcode
    refine absurd hhook (h.not_hook ha hcode (fun j hj => ?_) hk)
    rcases List.mem_append.mp hj with hj | hj
    · exact hahead j hj
    · exact (hpiece.added hi j hj).fallsThrough

/-- **All ways of the method are ways of the woven one**: whoever gets through the woven method
comes to the block of each instruction that is reached. -/
theorem comes_reached (ha : a.Sound v.result)
    (hgraph : FlowGraph.ofMethod v.method = .ok v.context.analysis.graph) :
    ∀ k ∈ v.context.analysis.graph.reached, a.Comes v.result (v.startOf k) := by
  have hdescribes := FlowGraph.ofMethod_describes hgraph
  refine FlowGraph.reached_induction hgraph ?_ fun k h t ht => ?_
  · -- the prologue
    have hfirst : a.Comes v.result 0 := fun i _ => by
      obtain ⟨_, f, -, hf, -⟩ := ha.first
      exact ⟨f, hf⟩
    have hprologue : v.startOf 0 = 0 + (v.plan.prologue v.method).length := by
      rw [show v.startOf 0 = _ from v.plan.startOf_zero v.method, Nat.zero_add]
    rw [hprologue]
    refine hfirst.along ha (v.plan.woven_prologue v.method) fun j hj => ?_
    exact (Insn.Added.inserted (Plan.prologue_inserted (i := .nop) v.method j hj)).fallsThrough
  · cases hi : v.method.insns[k]? with
    | none =>
      have hlen := FlowGraph.edgesFrom_length hdescribes.edges
      rw [List.getElem?_eq_none_iff] at hi
      simp [FlowGraph.next, List.getElem?_eq_none (hlen ▸ hi)] at ht
    | some i =>
      rcases hdescribes.mem_next hi ht with ⟨hfall, rfl⟩ | ⟨l, hl, htarget⟩
      · exact comes_next ha hi h hfall
      · exact comes_jump ha hi h hl htarget

end Woven

/-! ## 4. The second pass over a method -/

namespace Plan

variable {c : PlanContext} {S : List Site} {p : Plan} {k : Nat} {i : Insn}

/-- A call of which an argument is recorded gets a hook in front. -/
theorem hook_of_argument (hp : p.Sound c S) (hi : c.method.insns[k]? = some i)
    (h : ∃ e ∈ p.arguments, e.1 = k) : ∃ hk, .hook hk ∈ p.ahead k i := by
  obtain ⟨e, he, hk⟩ := h
  have hfound : e ∈ p.arguments.filter fun e => e.1 = k :=
    List.mem_filter.mpr ⟨he, by simpa using hk⟩
  rcases recordCode_cases hp hi with hnone | ⟨target, put, -, -, -, hcode⟩
  · unfold recordCode at hnone
    have hsome : (p.arguments.filter fun e => e.1 = k).isEmpty = false :=
      List.isEmpty_eq_false_iff.mpr (List.ne_nil_of_mem hfound)
    simp [hsome] at hnone
  · exact ⟨_, List.mem_append_right _ (hcode ▸ List.mem_cons_self)⟩

theorem mem_codeAt {edits : List (Nat × List Insn)} {code : List Insn} {j : Insn}
    (hcode : (k, code) ∈ edits) (hj : j ∈ code) : j ∈ codeAt k edits :=
  List.mem_flatMap.mpr ⟨(k, code), hcode, by simpa using hj⟩

/-- In front of the code ahead of an instruction stands the instruction, if it is a label. -/
theorem block_ahead (p : Plan) (k : Nat) (i : Insn) : ∃ head rest,
    p.block k i = head ++ (p.ahead k i ++ rest) ∧ ∀ j ∈ head, j.fallsThrough = true := by
  cases hlabel : i.label? with
  | some l =>
    obtain rfl : i = .label l := by
      cases i <;> simp [Insn.label?] at hlabel
      rw [hlabel]
    exact ⟨[.label l], p.behind k, block_label p k l, by simp [Insn.fallsThrough]⟩
  | none => exact ⟨[], p.inPlace k i ++ p.behind k, block_other p k hlabel, by simp⟩

theorem mem_block_of_behind {j : Insn} (hj : j ∈ p.behind k) : j ∈ p.block k i := by
  cases hlabel : i.label? with
  | some l =>
    obtain rfl : i = .label l := by
      cases i <;> simp [Insn.label?] at hlabel
      rw [hlabel]
    rw [block_label]
    exact List.mem_cons_of_mem _ (List.mem_append_right _ hj)
  | none =>
    rw [block_other _ _ hlabel]
    exact List.mem_append_right _ (List.mem_append_right _ hj)

end Plan

namespace Weaver

variable {w : Weaver} {breakInterning : Bool} {pool : LiteralPool} {m : Method}
    {a : Analysis} {p : Plan}

/-- **Whatever is changed brings a hook** at an instruction that is reached, in front of it or where
it leads on. -/
theorem Plans.hook_reached (h : w.Plans breakInterning pool m a p) (hedits : p.hasEdits = true) :
    ∃ k i f hk, m.insns[k]? = some i ∧ a.frame? k = some f ∧
      (.hook hk ∈ p.ahead k i ∨ i.fallsThrough = true ∧ .hook hk ∈ p.block k i) := by
  have hgrounded := Analysis.ofMethod_grounded h.analysed
  have hp : p.Sound ⟨m, a⟩ (Site.find m a breakInterning) := h.woven.planned
  rcases Plan.planSites_hooks (S := Site.find m a breakInterning) h.woven.analysed
    (fun s hs => ⟨Plan.siteAt_of_find hs, hs⟩) h.planned (Plan.start_sound pool) with
    ⟨memo, rfl⟩ | hhooked
  · exact nomatch hedits
  · cases hhooked with
    | argument hsome =>
      obtain ⟨e, he⟩ := List.exists_mem_of_ne_nil _ hsome
      obtain ⟨target, f, hcall, -, hf, -⟩ := (hp.arguments e he).call
      obtain ⟨hk, hhook⟩ := Plan.hook_of_argument hp hcall.1 ⟨e, he, rfl⟩
      exact ⟨_, _, f, hk, hcall.1, hf, .inl hhook⟩
    | @before k f code hk hf hcode hhook =>
      obtain ⟨i, hi⟩ := hgrounded.inside k f hf
      exact ⟨k, i, f, hk, hi, hf, .inl (List.mem_append_left _ (Plan.mem_codeAt hcode hhook))⟩
    | @replaced k f code hf hcode =>
      obtain ⟨i, hi⟩ := hgrounded.inside k f hf
      obtain ⟨code', hcode'⟩ : ∃ code', p.replaced.lookup k = some code' := by
        refine Option.ne_none_iff_exists'.mp fun hnone => ?_
        simpa using List.lookup_eq_none_iff.mp hnone _ hcode
      obtain ⟨hlabel, hk, hhook⟩ := (hp.replaced _ (mem_of_lookup hcode')).hook hi
      refine ⟨k, i, f, hk, hi, hf, .inr ⟨?_, ?_⟩⟩
      · exact Woven.fallsThrough_of_replaced (v := h.woven) hi hcode'
      · rw [Plan.block_other _ _ hlabel, Plan.inPlace, hcode', Option.getD_some]
        exact List.mem_append_right _ (List.mem_append_left _ hhook)
    | @after k i f code hk hi hfall hf hcode hhook =>
      exact ⟨k, i, f, hk, hi, hf,
        .inr ⟨hfall, Plan.mem_block_of_behind (Plan.mem_codeAt hcode hhook)⟩⟩

/-- **A woven method cannot be analysed**, in whatever order. -/
theorem Plans.not_analysed (h : w.Plans breakInterning pool m a p) (hedits : p.hasEdits = true)
    (order : SolverOrder) (limit : Nat) :
    ∃ e, Analysis.ofMethod order limit (p.woven m) = .error e := by
  cases hagain : Analysis.ofMethod order limit (p.woven m) with
  | error e => exact ⟨e, rfl⟩
  | ok a' =>
    exfalso
    have ha' : a'.Sound h.woven.result := Analysis.ofMethod_sound hagain
    have hgrounded := Analysis.ofMethod_grounded h.analysed
    obtain ⟨k, i, f, hk, hi, hf, hhook⟩ := h.hook_reached hedits
    have hi' : h.woven.method.insns[k]? = some i := hi
    have hcomes := Woven.comes_reached ha' hgrounded.graph k (hgrounded.reached k f hf)
    have hblock := h.woven.plan.woven_drop_block hi'
    rcases hhook with hhook | ⟨hfall, hhook⟩
    · obtain ⟨head, rest, hsplit, hhead⟩ := Plan.block_ahead p k i
      have hcode : h.woven.result.insns.drop (h.woven.startOf k) = head ++ (p.ahead k i ++
          (rest ++ h.woven.result.insns.drop (h.woven.startOf (k + 1)))) := by
        rw [show h.woven.result.insns.drop _ = _ from hblock,
          show h.woven.plan.block k i = _ from hsplit]
        simp only [List.append_assoc]
      refine hcomes.not_hook ha' hcode (fun j hj => ?_) hk hhook
      exact (List.mem_append.mp hj).elim (hhead j) (Woven.ahead_falls hi' j)
    · have hcode : h.woven.result.insns.drop (h.woven.startOf k) = [] ++ (p.block k i ++
          h.woven.result.insns.drop (h.woven.startOf (k + 1))) := hblock
      exact hcomes.not_hook ha' hcode (Woven.block_falls hi' hfall) hk hhook

theorem hasEdits_of_weaveMethod {pool' : LiteralPool} {m' : Method} {kinds : List SiteKind}
    (h : w.weaveMethod breakInterning pool m = (.ok (some (m', kinds)), pool'))
    (hp : w.Plans breakInterning pool m a p) : p.hasEdits = true := by
  unfold weaveMethod at h
  simp only [hp.analysed] at h
  split at h
  · simp at h
  · rw [show (Plan.planSites ⟨m, a⟩ _).run.run _ = _ from hp.planned] at h
    split at h
    · simp at h
    · rename_i hplan
      obtain ⟨-, rfl⟩ := Prod.mk.inj hplan
      split at h
      · assumption
      · simp at h

/-- **A method that was changed fails** when it is woven again. -/
theorem fate_of_changed {pool' : LiteralPool} {m' : Method} {kinds : List SiteKind}
    (h : w.weaveMethod breakInterning pool m = (.ok (some (m', kinds)), pool')) :
    ∃ e, w.fate breakInterning m' = .error e := by
  obtain ⟨a, p, hp, rfl, -⟩ := weaveMethod_plans h
  obtain ⟨e, he⟩ := hp.not_analysed (hasEdits_of_weaveMethod h hp) w.settings.order
    w.settings.maxIterations
  refine ⟨e, ?_⟩
  unfold fate weaveMethod
  rw [he]
  rfl

/-! ## 5. The second pass over a class -/

/-- No method of a class that was woven is changed. -/
theorem Becomes.unchanged {m m' : Method} (h : w.Becomes breakInterning m m') :
    w.changes breakInterning m' = false := by
  cases h with
  | changed _ h =>
    obtain ⟨e, he⟩ := fate_of_changed h
    simp only [Weaver.changes, he]
  | kept h => exact h

theorem eq_of_unchanged {ms ms' : List Method} (h : List.Forall₂ (w.Becomes breakInterning) ms ms')
    (hunchanged : ∀ m ∈ ms, w.changes breakInterning m = false) : ms' = ms := by
  induction h with
  | nil => rfl
  | cons hm _ ih =>
    obtain ⟨hhead, htail⟩ := List.forall_mem_cons.mp hunchanged
    rw [ih htail, hm.changes.resolve_right (by simp [hhead])]

/-- **The second report**: what needed no change needs none, and what was changed fails beside what
failed. -/
theorem reported_again {ms ms' : List Method} (h : List.Forall₂ (w.Becomes breakInterning) ms ms') :
    (∀ m ∈ ms', w.changes breakInterning m = false) ∧
    (ms'.filter (w.spares breakInterning)).map Method.signature =
      (ms.filter (w.spares breakInterning)).map Method.signature ∧
    ((ms'.filterMap (w.failure? breakInterning)).map Prod.fst).Perm
      ((ms.filter (w.changes breakInterning)).map Method.signature ++
        (ms.filterMap (w.failure? breakInterning)).map Prod.fst) := by
  induction h with
  | nil => exact ⟨by simp, rfl, .nil⟩
  | @cons m m' ms ms' hm _ ih =>
    obtain ⟨hunchanged, hspared, hfailed⟩ := ih
    refine ⟨List.forall_mem_cons.mpr ⟨hm.unchanged, hunchanged⟩, ?_⟩
    have hsignature := hm.signature_eq
    cases hm with
    | changed hpool h =>
      obtain ⟨e, he⟩ := fate_of_changed h
      obtain ⟨hfate, -⟩ := fate_of_weaveMethod hpool h
      have hfate' : w.fate breakInterning m = .ok (some (m'.unplaced, _)) := hfate
      simp only [List.filter_cons, List.filterMap_cons, changes, spares, failure?, he, hfate',
        Bool.false_eq_true, if_false, if_true, List.map_cons, List.cons_append, hsignature]
      exact ⟨hspared, hfailed.cons _⟩
    | kept h =>
      rcases hfate : w.fate breakInterning m with e | ⟨⟩ | ⟨woven, kinds⟩
      · simp only [List.filter_cons, List.filterMap_cons, changes, spares, failure?, hfate,
          Bool.false_eq_true, if_false, List.map_cons]
        exact ⟨hspared, (hfailed.cons _).trans List.perm_middle.symm⟩
      · simp only [List.filter_cons, List.filterMap_cons, changes, spares, failure?, hfate,
          Bool.false_eq_true, if_false, if_true, List.map_cons]
        exact ⟨congrArg _ hspared, hfailed⟩
      · simp [changes, hfate] at h

/-- **Weaving a class that was woven changes nothing.**  The class comes out as it went in, no
method is reported as changed, and whatever the first pass changed fails in the second, beside
whatever failed in the first; what needed no change needs none. -/
theorem weaveClass_twice (w : Weaver) (store store' : Store) (c : Class) :
    let once := w.weaveClass store c
    let twice := w.weaveClass store' once.1
    twice.1 = once.1 ∧ twice.2.1.instrumented = [] ∧
      (∀ signature ∈ once.2.1.instrumented, ∃ e, (signature, e) ∈ twice.2.1.failed) ∧
      twice.2.1.unchanged = once.2.1.unchanged ∧
      (twice.2.1.failed.map Prod.fst).Perm
        (once.2.1.instrumented ++ once.2.1.failed.map Prod.fst) := by
  cases hincluded : w.filter.includes c.name with
  | false =>
    rw [weaveClass_excluded store hincluded]
    simp [weaveClass_excluded store' hincluded]
  | true =>
    obtain ⟨hreported, hbecome⟩ := weaveMethods_fates w (w.interning.includes c.name) c.methods
      (blankReport c) (LiteralPool.ofClass_usable store c.name)
    obtain ⟨hunchanged, hspared, hfailed⟩ := reported_again hbecome
    rw [weaveClass_included store hincluded]
    generalize (w.weaveMethods (w.interning.includes c.name) (.ofClass store c.name) (blankReport c)
      c.methods) = out at hreported hbecome hunchanged hspared hfailed
    obtain ⟨hreported', hbecome'⟩ := weaveMethods_fates w (w.interning.includes c.name) out.1
      (blankReport ⟨c.name, out.1⟩) (LiteralPool.ofClass_usable store' c.name)
    have hkept := eq_of_unchanged hbecome' hunchanged
    obtain ⟨hinstrumented, hspares, hfails⟩ := hreported.lists
    obtain ⟨hinstrumented', hspares', hfails'⟩ := hreported'.lists
    have hnone : out.1.filter (w.changes (w.interning.includes c.name)) = [] :=
      List.filter_eq_nil_iff.mpr fun m hm => by simp [hunchanged m hm]
    have hperm := hfailed
    rw [← hfails', ← hinstrumented, ← hfails] at hperm
    simp only
    rw [weaveClass_included (c := ⟨c.name, out.1⟩) store' hincluded]
    refine ⟨congrArg _ hkept, ?_, fun signature hsignature => ?_, ?_, hperm⟩
    · simp only [hinstrumented', hnone, List.map_nil]
    · have hmem := hperm.symm.subset (List.mem_append_left _ hsignature)
      obtain ⟨⟨_, e⟩, he, rfl⟩ := List.mem_map.mp hmem
      exact ⟨e, he⟩
    · simp only [hspares', hspared, hspares]

end Weaver

end Provenance
