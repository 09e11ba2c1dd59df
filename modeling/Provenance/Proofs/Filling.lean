/-
# What is planned for the arguments of a call

Planning goes from site to site, and what one site needs may have been planned for another before.
Arguments are an exception: of a call they are recorded at its own site, and by nothing else
(`Plan.Aside`).  So in the end each argument of a call that is recorded and can be followed has its
code, once, and no other one has (`Weaver.Plans.fills`).
-/
import Provenance.Proofs.Following
import Provenance.Proofs.PlannedOnce
import Provenance.Proofs.Slots

namespace Provenance

/-! ## 1. Planning that records no argument -/

/-- With nothing wrong written down, the answer is the same as with nothing written down. -/
theorem MergeIndex.Truthful.answer {x : MergeIndex} {memo : TrackMemo} (h : x.Truthful memo)
    (v : FlowValue) :
    (x.trackable v memo).1 = x.isTrackable v :=
  Bool.eq_iff_iff.mpr ((h.trackable v).1.trans ((truthful_nil x).trackable v).1.symm)

namespace Plan

variable {c : PlanContext} {S : List Site} {p q r : Plan} {k : Nat} {v : FlowValue}
    {code : List Insn}

/-- A step of planning that records no argument, and writes down nothing wrong of what can be
followed. -/
structure Aside (c : PlanContext) (p q : Plan) : Prop where
  arguments : q.arguments = p.arguments
  memo : c.analysis.merges.Truthful p.memo → c.analysis.merges.Truthful q.memo

theorem Aside.refl (p : Plan) : p.Aside c p := ⟨rfl, id⟩

theorem Aside.trans (h : p.Aside c q) (h' : q.Aside c r) : p.Aside c r :=
  ⟨h'.arguments.trans h.arguments, h'.memo ∘ h.memo⟩

/-- **Whatever the point of a value needs**, no argument is recorded for it. -/
theorem Step.aside {V V' : List MergeSlot} (h : Step c V p V' q) : p.Aside c q := by
  cases h with
  | asked | opened => exact ⟨rfl, fun hmemo => (hmemo.trackable _).2⟩
  | _ => exact ⟨rfl, id⟩

theorem Steps.aside {V V' : List MergeSlot} (h : Steps c V p V' q) : p.Aside c q :=
  h.keeps (P := fun _ q => p.Aside c q) (fun hs h => h.trans hs.aside) (.refl p)

/-- **A site that is not a call** records no argument. -/
theorem SitePlanned.aside {s : Site} (h : SitePlanned c S s p q)
    (hs : ¬∃ args, s.action = .callArguments args) : p.Aside c q := by
  cases h with
  | literal => exact ⟨rfl, id⟩
  | steps h =>
    induction h with
    | refl => exact .refl p
    | tail _ hlast ih =>
      refine ih.trans ?_
      cases hlast with
      | points h => exact h.aside
      | argument hcall => exact absurd hcall hs
      | _ => exact ⟨rfl, id⟩

/-! ## 2. The arguments of a call -/

/-- The arguments of a call that have code for their points, with the code. -/
def argumentCodes (p : Plan) (k : Nat) : List (Nat × List Insn) :=
  (p.arguments.filter fun e => e.1 = k).map Prod.snd

/-- If there is such an argument, the call gets a record. -/
theorem recordCode_ne_nil (h : p.argumentCodes k ≠ []) (i : Insn) : p.recordCode k i ≠ [] := by
  have hargs : (p.arguments.filter fun e => e.1 = k).isEmpty = false := by
    simpa [argumentCodes, List.isEmpty_eq_false_iff] using h
  unfold recordCode
  simp [hargs]

/-- The arguments that are recorded and can be followed have their code, each once, and no others
have. -/
structure Fills (c : PlanContext) (p : Plan) (recorded : Nat → Option FlowValue)
    (codes : List (Nat × List Insn)) : Prop where
  /-- The code for an argument pushes the point of the value that is recorded for it. -/
  slot : ∀ e ∈ codes, ∃ v, recorded e.1 = some v ∧ c.analysis.merges.isTrackable v = true ∧
    p.loadPoint v = .ok e.2
  every : ∀ n v, recorded n = some v → c.analysis.merges.isTrackable v = true →
    n ∈ codes.map Prod.fst
  once : (codes.map Prod.fst).Nodup

theorem Fills.extend {recorded : Nat → Option FlowValue} {codes : List (Nat × List Insn)}
    (h : Fills c p recorded codes) (hext : p.Extends q) : Fills c q recorded codes where
  slot e he := (h.slot e he).imp fun _ hv => ⟨hv.1, hv.2.1, hext.loadPoint hv.2.2⟩
  every := h.every
  once := h.once

/-- What is recorded for an argument, if what is recorded from the argument `arg` on is listed. -/
def recordedFrom (arg : Nat) (args : List (Option FlowValue)) (n : Nat) : Option FlowValue :=
  if arg ≤ n then args[n - arg]?.join else none

theorem recordedFrom_zero (args : List (Option FlowValue)) (n : Nat) :
    recordedFrom 0 args n = args[n]?.join := by simp [recordedFrom]

theorem recordedFrom_cons (arg : Nat) (v? : Option FlowValue)
    (rest : List (Option FlowValue)) (n : Nat) :
    recordedFrom arg (v? :: rest) n = if n = arg then v? else recordedFrom (arg + 1) rest n := by
  unfold recordedFrom
  split
  · rename_i hle
    split
    · rename_i heq
      subst heq
      simp
    · rename_i hne
      obtain ⟨d, rfl⟩ : ∃ d, n = arg + 1 + d := ⟨n - (arg + 1), by omega⟩
      rw [if_pos (Nat.le_add_right _ _), Nat.add_sub_cancel_left, Nat.add_assoc,
        Nat.add_sub_cancel_left, Nat.add_comm 1 d, List.getElem?_cons_succ]
  · rename_i hlt
    rw [if_neg (by omega), if_neg (by omega)]

theorem recordedFrom_before (arg : Nat) (args : List (Option FlowValue)) :
    recordedFrom (arg + 1) args arg = none := if_neg (Nat.not_succ_le_self arg)

/-- An argument for which nothing is recorded, or that cannot be followed. -/
theorem Fills.skip {arg : Nat} {v? : Option FlowValue} {rest : List (Option FlowValue)}
    {codes : List (Nat × List Insn)} (h : Fills c p (recordedFrom (arg + 1) rest) codes)
    (hv : ∀ v, v? = some v → ¬c.analysis.merges.isTrackable v = true) :
    Fills c p (recordedFrom arg (v? :: rest)) codes where
  slot e he := by
    obtain ⟨v, hrecorded, hfollowed⟩ := h.slot e he
    refine ⟨v, ?_, hfollowed⟩
    rw [recordedFrom_cons, if_neg]
    · exact hrecorded
    · rintro heq
      rw [heq, recordedFrom_before] at hrecorded
      cases hrecorded
  every n v hn hfollowed := by
    rw [recordedFrom_cons] at hn
    split at hn
    · exact absurd hfollowed (hv v hn)
    · exact h.every n v hn hfollowed
  once := h.once

/-- An argument that is recorded. -/
theorem Fills.cons {arg : Nat} {rest : List (Option FlowValue)} {codes : List (Nat × List Insn)}
    (h : Fills c p (recordedFrom (arg + 1) rest) codes)
    (hv : c.analysis.merges.isTrackable v = true) (hcode : p.loadPoint v = .ok code) :
    Fills c p (recordedFrom arg (some v :: rest)) ((arg, code) :: codes) := by
  have hother : ∀ e ∈ codes, e.1 ≠ arg := by
    intro e he heq
    obtain ⟨u, hu, -⟩ := h.slot e he
    rw [heq, recordedFrom_before] at hu
    cases hu
  refine ⟨fun e he => ?_, fun n u hn hu => ?_, ?_⟩
  · rcases List.mem_cons.mp he with rfl | he
    · exact ⟨v, by rw [recordedFrom_cons, if_pos rfl], hv, hcode⟩
    · obtain ⟨u, hu, hfollowed⟩ := h.slot e he
      exact ⟨u, by rw [recordedFrom_cons, if_neg (hother e he)]; exact hu, hfollowed⟩
  · rw [recordedFrom_cons] at hn
    split at hn
    · rename_i heq
      simp [heq]
    · exact List.mem_cons_of_mem _ (h.every n u hn hu)
  · rw [List.map_cons, List.nodup_cons]
    refine ⟨fun hmem => ?_, h.once⟩
    obtain ⟨e, he, heq⟩ := List.mem_map.mp hmem
    exact hother e he heq

/-- **What is planned for the arguments of a call**, from one on. -/
theorem recordArguments_fills (hc : c.analysis.Sound c.method) {target : MethodRef}
    {f : Frame} {s : Site} (hs : ∃ args, s.action = .callArguments args)
    (hcall : Recorded c s.insn target) (hf : c.analysis.frame? s.insn = some f) :
    ∀ {args : List (Option FlowValue)} {arg : Nat} {some? : Bool} {p q : Plan},
    Planning.Gives (recordArguments c s.insn arg args) p some? q →
    arg + args.length = target.desc.params.length →
    (∀ n v, args[n]? = some (some v) → v = f.top (target.desc.params.length - 1 - (arg + n))) →
    p.Sound c S → c.analysis.merges.Truthful p.memo → c.analysis.merges.Truthful q.memo ∧
      ∃ codes, q.arguments = p.arguments ++ codes.map (Prod.mk s.insn) ∧
        Fills c q (recordedFrom arg args) codes := by
  intro args
  induction args with
  | nil =>
    intro arg some? p q h _ _ _ hmemo
    obtain ⟨-, rfl⟩ := Planning.gives_pure.mp h
    exact ⟨hmemo, [], by simp, by simp, by simp [recordedFrom], by simp⟩
  | cons v? rest ih =>
    intro arg some? p q h hlen hargs hp hmemo
    have hlen' : arg + 1 + rest.length = target.desc.params.length := by
      simp only [List.length_cons] at hlen
      omega
    have hrest : ∀ n v, rest[n]? = some (some v) →
        v = f.top (target.desc.params.length - 1 - (arg + 1 + n)) := by
      intro n v hn
      have := hargs (n + 1) v (by simpa using hn)
      rwa [show arg + (n + 1) = arg + 1 + n by omega] at this
    cases v? with
    | none =>
      obtain ⟨hmemo, codes, heq, hfills⟩ := ih h hlen' hrest hp hmemo
      exact ⟨hmemo, codes, heq, hfills.skip (by simp)⟩
    | some v =>
      have hv : v = f.top (target.desc.params.length - 1 - arg) := hargs 0 v rfl
      have hmade : v.MadeIn c.method := hv ▸ top_madeIn (hc.frames _ f hf) _
      obtain ⟨followed, _, htrack, h⟩ := Planning.gives_bind.mp h
      obtain ⟨hanswer, rfl⟩ := Planning.gives_isTrackable htrack
      rw [hmemo.answer v] at hanswer
      have hasked : Steps c [] p [] _ := .single (.asked [] p v)
      split at h
      · rename_i hfollowed
        simp only [Planning.gives_bind, Planning.gives_pure] at h
        obtain ⟨_, p₂, hensure, code, _, hcode, _, p₃, hadd, _, _, hmore, -, rfl⟩ := h
        obtain ⟨hload, rfl⟩ := Planning.gives_pointCode hcode
        have hpiece : ArgumentPiece c p₂ s.insn arg code :=
          ⟨target, f, hcall, by simp only [List.length_cons] at hlen; omega, hf, hv ▸ hload⟩
        have hpoints := hasked.trans (ensureTracked_steps hc hmade hensure)
        obtain ⟨hp₂, -⟩ := hpoints.leads hp
        obtain ⟨hp₃, hext⟩ := leads_addArgument hadd hpiece hp₂
        obtain ⟨-, hext'⟩ :=
          leads_of_siteSteps (recordArguments_steps (S := S) hc hs hcall hf hmore hlen' hrest) hp₃
        obtain rfl := Planning.gives_modify.mp hadd
        obtain ⟨hmemo, codes, heq, hfills⟩ := ih hmore hlen' hrest hp₃ (hpoints.aside.memo hmemo)
        refine ⟨hmemo, (arg, code) :: codes, ?_,
          hfills.cons (hanswer ▸ hfollowed) ((hext.trans hext').loadPoint hload)⟩
        rw [heq, hpoints.aside.arguments]
        simp
      · rename_i hnot
        obtain ⟨hmemo, codes, heq, hfills⟩ :=
          ih h hlen' hrest (hasked.leads hp).1 (hasked.aside.memo hmemo)
        refine ⟨hmemo, codes, heq, hfills.skip fun u hu => ?_⟩
        obtain rfl := Option.some.inj hu
        exact hanswer ▸ hnot

/-! ## 3. All sites -/

/-- Of the sites that were gone through the calls have their arguments in the plan, and nothing else
has. -/
structure Filled (c : PlanContext) (done : List Site) (p : Plan) : Prop where
  memo : c.analysis.merges.Truthful p.memo
  call : ∀ e ∈ p.arguments, ∃ args, ⟨e.1, .callArguments args⟩ ∈ done
  fills : ∀ k args, ⟨k, .callArguments args⟩ ∈ done →
    Fills c p (recordedFrom 0 args) (p.argumentCodes k)

theorem start_filled (c : PlanContext) (pool : LiteralPool) : Filled c [] (start c pool) :=
  ⟨MergeIndex.truthful_nil _, by simp [start], by simp⟩

theorem argumentCodes_eq_nil (h : ∀ e ∈ p.arguments, e.1 ≠ k) : p.argumentCodes k = [] := by
  simpa [argumentCodes, List.filter_eq_nil_iff] using h

/-- One call's arguments more. -/
theorem argumentCodes_append {codes : List (Nat × List Insn)}
    (h : q.arguments = p.arguments ++ codes.map (Prod.mk k)) (j : Nat) :
    q.argumentCodes j = p.argumentCodes j ++ if j = k then codes else [] := by
  simp only [argumentCodes, h, List.filter_append, List.map_append]
  congr 1
  split
  · rename_i hjk
    subst hjk
    simp [List.filter_map, Function.comp_def]
  · rename_i hjk
    simp [List.filter_map, Function.comp_def, Ne.symm hjk]

section Sites

variable {s : Site} {done : List Site}

/-- **A call** that was not gone through before. -/
theorem Filled.call_site {args : List (Option FlowValue)}
    (hnew : k ∉ done.map Site.insn) (h : Filled c done p) (hext : p.Extends q)
    (hmemo : c.analysis.merges.Truthful q.memo) {codes : List (Nat × List Insn)}
    (harguments : q.arguments = p.arguments ++ codes.map (Prod.mk k))
    (hfills : Fills c q (recordedFrom 0 args) codes) :
    Filled c (done ++ [⟨k, .callArguments args⟩]) q := by
  have hothers : ∀ e ∈ p.arguments, e.1 ≠ k := by
    rintro e he rfl
    obtain ⟨args, hsite⟩ := h.call e he
    exact hnew (List.mem_map_of_mem hsite)
  refine ⟨hmemo, fun e he => ?_, fun j args' hj => ?_⟩
  · rw [harguments] at he
    rcases List.mem_append.mp he with he | he
    · exact (h.call e he).imp fun _ => List.mem_append_left _
    · obtain ⟨_, -, rfl⟩ := List.mem_map.mp he
      exact ⟨args, by simp⟩
  · rw [argumentCodes_append harguments]
    rcases List.mem_append.mp hj with hold | hj
    · have hne : j ≠ k := fun heq => hnew (heq ▸ List.mem_map_of_mem hold)
      rw [if_neg hne, List.append_nil]
      exact (h.fills j args' hold).extend hext
    · obtain ⟨rfl, hargs⟩ := Site.mk.inj (List.mem_singleton.mp hj)
      obtain rfl := SiteAction.callArguments.inj hargs
      rw [if_pos rfl, argumentCodes_eq_nil hothers, List.nil_append]
      exact hfills

/-- Another site. -/
theorem Filled.other_site (hcall : ¬∃ args, s.action = .callArguments args) (h : Filled c done p)
    (hext : p.Extends q) (haside : p.Aside c q) : Filled c (done ++ [s]) q := by
  refine ⟨haside.memo h.memo, fun e he => ?_, fun j args hj => ?_⟩
  · rw [haside.arguments] at he
    exact (h.call e he).imp fun _ => List.mem_append_left _
  · rcases List.mem_append.mp hj with hj | hj
    · rw [argumentCodes, haside.arguments]
      exact (h.fills j args hj).extend hext
    · exact absurd ⟨args, (congrArg Site.action (List.mem_singleton.mp hj)).symm⟩ hcall

/-- **One site** that was not gone through before. -/
theorem Filled.planSite (hc : c.analysis.Sound c.method) {breakInterning : Bool}
    (hs : SiteAt c.method c.analysis breakInterning s) (hp : p.Sound c S)
    (hnew : s.insn ∉ done.map Site.insn) (h : Filled c done p)
    (hg : Planning.Gives (planSite c s) p () q) (hplanned : SitePlanned c S s p q) :
    Filled c (done ++ [s]) q := by
  have hext := (hplanned.leads hp).2
  by_cases hcall : ∃ args, s.action = .callArguments args
  · obtain ⟨i, f, hi, hf, haction⟩ := hs
    obtain ⟨k, action⟩ := s
    obtain ⟨args, rfl⟩ := hcall
    cases siteForm_of_action haction with
    | @callArguments target carried hcopy hclone hcarried =>
      have hlen := carriedArguments?_length hcarried
      simp only [Plan.planSite, Planning.gives_bind] at hg
      obtain ⟨some?, p₁, hrecord, hg⟩ := hg
      obtain ⟨hmemo, codes, heq, hfills⟩ := recordArguments_fills (S := S)
        (s := ⟨k, .callArguments (Site.recordedArguments f carried)⟩) hc ⟨_, rfl⟩
          ⟨hi, hcopy, hclone⟩ hf hrecord
        (by simp [Site.recordedArguments, hlen])
        (fun n v hn => by rw [Nat.zero_add, ← hlen]; exact recordedArguments_spec hn) hp h.memo
      have hroom : Steps c [] p₁ [] q := by
        split at hg
        · obtain ⟨height, p₂, hbefore, hroom⟩ := Planning.gives_bind.mp hg
          rw [Planning.gives_stackBefore hbefore] at hroom
          rw [Planning.gives_requireStack hroom]
          exact .single (.room [] p₁ _)
        · obtain ⟨-, rfl⟩ := Planning.gives_pure.mp hg
          exact .refl
      exact h.call_site hnew hext (hroom.aside.memo hmemo) (hroom.aside.arguments.trans heq)
        (hfills.extend hroom.extends)
  · exact h.other_site hcall hext (hplanned.aside hcall)

end Sites

/-- **All sites**, each once. -/
theorem planSites_filled (hc : c.analysis.Sound c.method) {breakInterning : Bool}
    {sites : List Site} (hsites : ∀ s ∈ sites, SiteAt c.method c.analysis breakInterning s ∧ s ∈ S)
    (hnd : (sites.map Site.insn).Nodup) (hp : p.Sound c S) (h : Filled c [] p)
    (hg : Planning.Gives (planSites c sites) p () q) : Filled c sites q :=
  (planSites_keeps (P := Filled c) hc hsites (fun hsplit hat hp hs hplanned h =>
    h.planSite hc hat hp (insn_not_mem_of_nodup hnd hsplit) hs hplanned) hp h hg).2

end Plan

/-- **The arguments of a call**: those that are recorded and can be followed have their code in the
plan, each once, and no others have. -/
theorem Weaver.Plans.fills {w : Weaver} {breakInterning : Bool} {pool : LiteralPool} {m : Method}
    {a : Analysis} {p : Plan} (h : w.Plans breakInterning pool m a p) {k : Nat} {target : MethodRef}
    {f : Frame} (hi : m.insns[k]? = some (.invoke target)) (hf : a.frame? k = some f) :
    Plan.Fills ⟨m, a⟩ p (Site.recorded? m breakInterning f target) (p.argumentCodes k) := by
  have hfilled := Plan.planSites_filled h.woven.analysed (fun _ hs => ⟨Plan.siteAt_of_find hs, hs⟩)
    (Site.find_insn_nodup m a breakInterning) (Plan.start_sound pool)
    (Plan.start_filled _ pool) h.planned
  by_cases hcall : ∃ args, Site.action? m breakInterning f (.invoke target) =
    some (.callArguments args)
  · obtain ⟨args, haction⟩ := hcall
    have hsite := Plan.mem_find hi hf haction
    have heq : Site.recorded? m breakInterning f target = Plan.recordedFrom 0 args := by
      funext n
      rw [Plan.recordedFrom_zero, Site.recorded?, haction]
    rw [heq]
    exact hfilled.fills k args hsite
  · have hnone : Site.recorded? m breakInterning f target = fun _ => none := by
      funext n
      unfold Site.recorded?
      split
      · rename_i args haction
        exact absurd ⟨args, haction⟩ hcall
      · rfl
    have hnil : p.argumentCodes k = [] := by
      refine Plan.argumentCodes_eq_nil fun e he heq => ?_
      obtain ⟨args, hsite⟩ := hfilled.call e he
      obtain ⟨i, f', hi', hf', haction⟩ := Plan.siteAt_of_find hsite
      simp only [heq] at hi' hf'
      obtain rfl := Option.some.inj (hi.symm.trans hi')
      obtain rfl := Option.some.inj (hf.symm.trans hf')
      exact hcall ⟨args, haction⟩
    rw [hnone, hnil]
    exact ⟨by simp, by simp, by simp⟩

end Provenance
