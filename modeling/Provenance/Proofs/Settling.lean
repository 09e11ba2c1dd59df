/-
# Merges are read when they are settled

The local of a merge is written by several pieces of code, and pieces for other merges, and for
stores, read it.  At one place of a method they stand in the order in which they were planned, so it
matters that a merge is planned for completely before anything reads its local.  `Plan.Settled` says
so of a list of pieces: none reads what it writes itself, or what one behind it writes.

While the members of a merge are planned for, its local is not read by anything (`Plan.Orderly`).
That rests on what can be followed: no member of such a merge leads back to it
(`MergeIndex.Nested`).
-/
import Provenance.Proofs.Following
import Provenance.Proofs.Weaving

namespace Provenance

namespace Plan

variable {c : PlanContext} {S : List Site} {p : Plan} {k l : Nat} {code : List Insn}
  {edits : List (Nat × List Insn)} {v : FlowValue}

/-! ## 1. Pieces in order -/

/-- One piece reads no local that another one writes. -/
def Clear (first second : List Insn) : Prop := ∀ l, .load l ∈ first → .store l ∉ second

/-- No piece reads what it writes itself, or what one behind it writes. -/
structure Settled (edits : List (Nat × List Insn)) : Prop where
  pairs : edits.Pairwise fun e e' => Clear e.2 e'.2
  each : ∀ e ∈ edits, Clear e.2 e.2

theorem settled_nil : Settled [] := ⟨.nil, by simp⟩

theorem Settled.snoc (h : Settled edits) (hold : ∀ e ∈ edits, Clear e.2 code)
    (hself : Clear code code) :
    Settled (edits ++ [(k, code)]) where
  pairs := by
    refine List.pairwise_append.mpr ⟨h.pairs, List.pairwise_singleton _ _, fun e he e' he' => ?_⟩
    exact List.mem_singleton.mp he' ▸ hold e he
  each e he := by
    rcases List.mem_append.mp he with he | he
    · exact h.each e he
    · exact List.mem_singleton.mp he ▸ hself

/-- No piece reads a local. -/
def Unread (edits : List (Nat × List Insn)) (l : Nat) : Prop := ∀ e ∈ edits, .load l ∉ e.2

theorem Unread.snoc (h : Unread edits l) (hcode : .load l ∉ code) :
    Unread (edits ++ [(k, code)]) l := by
  intro e he
  rcases List.mem_append.mp he with he | he
  · exact h e he
  · exact List.mem_singleton.mp he ▸ hcode

/-! ## 2. What pieces read -/

/-- The code for the point of a value reads one local at most, and that of a merge only for a value
that is this merge below moves and conversions. -/
theorem use_of_loadPoint (h : p.loadPoint v = .ok code) (hl : .load l ∈ code) :
    ∃ u, p.localOf u = some l ∧ ∀ s, u = .merge s → ∃ t, v.base = .merged t s := by
  unfold loadPoint at h
  cases hb : v.base with
  | constant t k n =>
    rw [hb] at h
    cases hk : p.constants.lookup k with
    | none => simp [hk] at h
    | some place =>
      obtain rfl : _ = code := by simpa [hk] using h
      simp at hl
  | element t k | field t k key =>
    rw [hb] at h
    cases hk : p.pointLocals.lookup k with
    | none => simp [hk] at h
    | some j =>
      obtain rfl : _ = code := by simpa [hk] using h
      obtain rfl : l = j := by simpa using hl
      exact ⟨.point k, hk, by simp⟩
  | returned t k =>
    rw [hb] at h
    cases hk : p.kept.lookup k with
    | none => simp [hk] at h
    | some j =>
      obtain rfl : _ = code := by simpa [hk] using h
      obtain rfl : l = j := by simpa using hl
      exact ⟨.record k, hk, by simp⟩
  | argument t n =>
    rw [hb] at h
    cases hk : p.ownRecord with
    | none => simp [hk] at h
    | some j =>
      obtain rfl : _ = code := by simpa [hk] using h
      obtain rfl : l = j := by simpa using hl
      exact ⟨.own, hk, by simp⟩
  | merged t slot =>
    rw [hb] at h
    cases hk : p.mergeLocals.lookup slot with
    | none => simp [hk] at h
    | some r =>
      cases r with
      | none =>
        obtain rfl : _ = code := by simpa [hk] using h
        simp at hl
      | some j =>
        obtain rfl : _ = code := by simpa [hk] using h
        obtain rfl : l = j := by simpa using hl
        exact ⟨.merge slot, by simp [localOf, hk], fun s hs => ⟨t, by cases hs; rfl⟩⟩
  | _ =>
    rw [hb] at h
    obtain rfl : _ = code := by simpa using h
    simp at hl

theorem use_of_loading (h : p.Loading code) (hl : .load l ∈ code) : ∃ u, p.localOf u = some l := by
  cases h with
  | constant | null => simp at hl
  | read hj | merge hj | result hj | argument _ hj =>
    obtain rfl : l = _ := by simpa using hl
    exact ⟨_, hj⟩

/-- The code for a point writes nothing. -/
theorem Loading.store_not_mem (h : p.Loading code) (l : Nat) : .store l ∉ code := by
  cases h <;> simp

/-- What a piece reads was handed out. -/
theorem BeforePiece.use (h : BeforePiece c p k code) (hl : .load l ∈ code) :
    ∃ u, p.localOf u = some l := by
  cases h with
  | element | field => simp at hl
  | join _ _ _ hcode =>
    simp only [List.mem_append, List.mem_singleton, reduceCtorEq, or_false] at hl
    exact use_of_loading (loading_of_loadPoint hcode) hl
  | fieldStore _ _ hcode =>
    simp only [List.mem_append, List.mem_cons, List.not_mem_nil, reduceCtorEq, or_false,
      false_or] at hl
    exact use_of_loading (loading_of_pointCode hcode) hl
  | returning _ _ _ hown hcode =>
    simp only [List.mem_append, List.cons_append, List.mem_cons, List.not_mem_nil,
      reduceCtorEq, or_false, Insn.load.injEq] at hl
    rcases hl with rfl | hl
    · exact ⟨_, hown⟩
    · exact use_of_loading (loading_of_loadPoint hcode) hl

theorem AfterPiece.use (h : AfterPiece c S p k code) (hl : .load l ∈ code) :
    ∃ u, p.localOf u = some l := by
  cases h with
  | member _ _ _ _ hcode =>
    simp only [List.mem_append, List.mem_singleton, reduceCtorEq, or_false] at hl
    exact use_of_loading (loading_of_loadPoint hcode) hl
  | literal => simp at hl

/-- A local that is still to be handed out is not read. -/
theorem Sound.unread (hp : p.Sound c S) (hl : p.nextLocal ≤ l) :
    Unread p.before l ∧ Unread p.after l := by
  have hbelow : ∀ u, p.localOf u ≠ some l := fun u hu =>
    absurd (hp.above u l hu).2 (Nat.not_lt_of_le hl)
  refine ⟨fun e he hmem => ?_, fun e he hmem => ?_⟩
  · obtain ⟨u, hu⟩ := (hp.before e he).use hmem
    exact hbelow u hu
  · obtain ⟨u, hu⟩ := (hp.after e he).use hmem
    exact hbelow u hu

end Plan

/-! ## 3. Merges that are open -/

namespace MergeIndex

variable {x : MergeIndex} {V : List MergeSlot} {slot s : MergeSlot} {t : Ty} {v : FlowValue}

/-- Merges that can be followed, each of them below those that come after it. -/
structure Nested (x : MergeIndex) (V : List MergeSlot) : Prop where
  followed : ∀ s ∈ V, ∀ t, x.Followable (.merged t s)
  below : V.Pairwise fun inner outer => ∀ t, ∃ t', x.ComesTo (.merged t outer) (.merged t' inner)

theorem nested_nil (x : MergeIndex) : x.Nested [] := ⟨by simp, .nil⟩

theorem Nested.opened (h : x.Nested V) (hfollowed : x.Followable (.merged t slot))
    (hinner : ∀ s, V.head? = some s → ∃ u ∈ x.members s, u.base = .merged t slot) :
    x.Nested (slot :: V) := by
  refine ⟨List.forall_mem_cons.mpr ⟨fun t' => ?_, h.followed⟩, List.pairwise_cons.mpr ⟨?_, h.below⟩⟩
  · exact followable_merged_iff.mpr (followable_merged_iff.mp hfollowed)
  · cases V with
    | nil => simp
    | cons s V =>
      obtain ⟨u, hu, hbase⟩ := hinner s rfl
      have hfirst (t' : Ty) : x.ComesTo (.merged t' s) (.merged t slot) :=
        Relation.TransGen.head' (.member hu) (hbase ▸ reaches_base x u)
      refine List.forall_mem_cons.mpr ⟨fun t' => ⟨t, hfirst t'⟩, fun s' hs' t' => ?_⟩
      obtain ⟨t'', hcomes⟩ := (List.pairwise_cons.mp h.below).1 s' hs' t'
      exact ⟨t, hcomes.trans (hfirst t'')⟩

theorem Nested.closed (h : x.Nested (slot :: V)) : x.Nested V :=
  ⟨fun s hs => h.followed s (List.mem_cons_of_mem slot hs), (List.pairwise_cons.mp h.below).2⟩

/-- **No member of the innermost merge is one of the others**, or the merge itself. -/
theorem Nested.apart (h : x.Nested (slot :: V)) (hv : v ∈ x.members slot) (hs : s ∈ slot :: V) :
    v.base ≠ .merged t s := by
  intro hbase
  have hfollowed : x.Followable v :=
    ((followable_merged_iff.mp (h.followed slot List.mem_cons_self t)).2 v hv).2
  have hcomes : x.ComesTo (.merged t s) v := by
    rcases List.mem_cons.mp hs with rfl | hs
    · exact Relation.TransGen.single (.member hv)
    · obtain ⟨t', hcomes⟩ := (List.pairwise_cons.mp h.below).1 s hs t
      exact hcomes.tail (.member hv)
  exact not_followable_again hcomes hbase hfollowed

end MergeIndex

namespace Plan

variable {c : PlanContext} {S : List Site} {V V' : List MergeSlot} {p q : Plan} {k l : Nat}
  {code : List Insn} {v : FlowValue}

/-! ## 4. Plans in order -/

/-- A plan whose pieces are in order while the members of some merges are still planned for, whose
locals nothing reads. -/
structure Orderly (c : PlanContext) (V : List MergeSlot) (p : Plan) : Prop where
  memo : c.analysis.merges.Truthful p.memo
  before : Settled p.before
  after : Settled p.after
  nested : c.analysis.merges.Nested V
  unread : ∀ s ∈ V, ∃ l, p.localOf (.merge s) = some l ∧ Unread p.before l ∧ Unread p.after l

theorem start_orderly (c : PlanContext) (pool : LiteralPool) : Orderly c [] (start c pool) where
  memo := MergeIndex.truthful_nil _
  before := settled_nil
  after := settled_nil
  nested := MergeIndex.nested_nil _
  unread := by simp

/-- A step that plans no code. -/
theorem Orderly.same (h : Orderly c V p) (hmemo : c.analysis.merges.Truthful q.memo)
    (hbefore : q.before = p.before) (hafter : q.after = p.after)
    (hmerges : ∀ s l, p.localOf (.merge s) = some l → q.localOf (.merge s) = some l) :
    Orderly c V q where
  memo := hmemo
  before := hbefore ▸ h.before
  after := hafter ▸ h.after
  nested := h.nested
  unread s hs := by
    obtain ⟨l, hl, hunread⟩ := h.unread s hs
    exact ⟨l, hmerges s l hl, hbefore ▸ hunread.1, hafter ▸ hunread.2⟩

theorem Orderly.addBefore (h : Orderly c V p) (hold : ∀ e ∈ p.before, Clear e.2 code)
    (hself : Clear code code)
    (hopen : ∀ s ∈ V, ∀ l, p.localOf (.merge s) = some l → .load l ∉ code) :
    Orderly c V { p with before := p.before ++ [(k, code)] } := by
  refine ⟨h.memo, h.before.snoc hold hself, h.after, h.nested, fun s hs => ?_⟩
  obtain ⟨l, hl, hunread⟩ := h.unread s hs
  exact ⟨l, hl, hunread.1.snoc (hopen s hs l hl), hunread.2⟩

theorem Orderly.addAfter (h : Orderly c V p) (hold : ∀ e ∈ p.after, Clear e.2 code)
    (hself : Clear code code)
    (hopen : ∀ s ∈ V, ∀ l, p.localOf (.merge s) = some l → .load l ∉ code) :
    Orderly c V { p with after := p.after ++ [(k, code)] } := by
  refine ⟨h.memo, h.before, h.after.snoc hold hself, h.nested, fun s hs => ?_⟩
  obtain ⟨l, hl, hunread⟩ := h.unread s hs
  exact ⟨l, hl, hunread.1, hunread.2.snoc (hopen s hs l hl)⟩

/-- Code in front of an instruction that writes no local. -/
theorem Orderly.addReading (h : Orderly c [] p) (hcode : ∀ l, .store l ∉ code) :
    Orderly c [] { p with before := p.before ++ [(k, code)] } :=
  h.addBefore (fun _ _ l _ => hcode l) (fun l _ => hcode l) (by simp)

/-- Taking the point of a read touches no local. -/
theorem TakesPoint.local?_eq_none {take : List Insn} (h : TakesPoint c k take) :
    ∀ i ∈ take, i.local? = none := by
  cases h <;> simp [Insn.local?]

/-- **The point of a read** is taken in the end of all that stands there, and into a new local. -/
theorem Orderly.takePoint {take : List Insn} (h : Orderly c V p) (hp : p.Sound c S)
    (htake : TakesPoint c k take) :
    Orderly c V { p with before := p.before ++ [(k, take ++ [.store p.nextLocal])] } := by
  have hload (j : Nat) : .load j ∉ take ++ [.store p.nextLocal] := by
    intro hmem
    rcases List.mem_append.mp hmem with hmem | hmem
    · exact absurd (htake.local?_eq_none _ hmem) (by simp [Insn.local?])
    · simp at hmem
  have hstore (j : Nat) (hmem : .store j ∈ take ++ [.store p.nextLocal]) : j = p.nextLocal := by
    rcases List.mem_append.mp hmem with hmem | hmem
    · exact absurd (htake.local?_eq_none _ hmem) (by simp [Insn.local?])
    · simpa using hmem
  refine h.addBefore (fun e he j hj hmem => ?_) (fun j hj => absurd hj (hload j))
    fun _ _ j _ => hload j
  exact (hp.unread (Nat.le_of_eq (hstore j hmem).symm)).1 e he hj

/-- **Noting a member** reads none of the merges that are open, and writes the innermost one only.
-/
theorem Orderly.clear_note {slot : MergeSlot} (h : Orderly c (slot :: V) p) (hp : p.Sound c S)
    (hl : p.localOf (.merge slot) = some l) (hv : v ∈ c.analysis.merges.members slot)
    (hload : p.loadPoint v = .ok code) :
    (∀ edits, Unread edits l → ∀ e ∈ edits, Clear e.2 (code ++ [.store l])) ∧
      Clear (code ++ [.store l]) (code ++ [.store l]) ∧
      ∀ s ∈ slot :: V, ∀ j, p.localOf (.merge s) = some j → .load j ∉ code ++ [.store l] := by
  have hopen : ∀ s ∈ slot :: V, ∀ j, p.localOf (.merge s) = some j →
      .load j ∉ code ++ [.store l] := by
    intro s hs j hj hmem
    rw [List.mem_append] at hmem
    obtain ⟨u, hu, hmerge⟩ := use_of_loadPoint hload (hmem.resolve_right (by simp))
    obtain ⟨t, ht⟩ := hmerge s (hp.apart _ _ j hu hj)
    exact h.nested.apart hv hs ht
  have hstore (j : Nat) (hmem : .store j ∈ code ++ [.store l]) : j = l := by
    rcases List.mem_append.mp hmem with hmem | hmem
    · exact absurd hmem ((loading_of_loadPoint hload).store_not_mem j)
    · simpa using hmem
  refine ⟨fun edits hunread e he j hj hmem => hunread e he (hstore j hmem ▸ hj),
    fun j hj hmem => ?_, hopen⟩
  exact hopen slot List.mem_cons_self l hl (hstore j hmem ▸ hj)

/-- **Planning what the point of a value needs** keeps the plan in order. -/
theorem Step.orderly (hs : Step c V p V' q) (hp : p.Sound c S) (h : Orderly c V p) :
    Orderly c V' q := by
  cases hs with
  | room | number | record | own => exact h.same h.memo rfl rfl fun _ _ => id
  | asked => exact h.same (h.memo.trackable _).2 rfl rfl fun _ _ => id
  | dropped hfree =>
    refine h.same h.memo rfl rfl fun s l hl => ?_
    exact Option.join_eq_some_iff.mpr (lookup_of_free hfree (Option.join_eq_some_iff.mp hl))
  | point htake =>
    exact (h.takePoint hp htake).same h.memo rfl rfl fun _ _ => id
  | @opened _ _ t slot hfree hfollowed hinner =>
    obtain ⟨hright, hmemo⟩ := h.memo.trackable (.merged t slot)
    refine ⟨hmemo, h.before, h.after, h.nested.opened (hright.mp hfollowed) hinner,
      List.forall_mem_cons.mpr ⟨⟨p.nextLocal, by simp [localOf], hp.unread (Nat.le_refl _)⟩,
        fun s hs => ?_⟩⟩
    obtain ⟨l, hl, hunread⟩ := h.unread s hs
    exact ⟨l, Option.join_eq_some_iff.mpr
      (lookup_of_free hfree (Option.join_eq_some_iff.mp hl)), hunread⟩
  | @joined _ _ slot _ _ l _ hl hmember hcode =>
    obtain ⟨hold, hself, hopen⟩ := h.clear_note hp hl hmember hcode
    obtain ⟨l', hl', hunread⟩ := h.unread slot List.mem_cons_self
    obtain rfl := Option.some.inj (hl.symm.trans hl')
    exact h.addBefore (hold _ hunread.1) hself hopen
  | @made _ _ slot _ _ l _ hl hmember _ _ hcode =>
    obtain ⟨hold, hself, hopen⟩ := h.clear_note hp hl hmember hcode
    obtain ⟨l', hl', hunread⟩ := h.unread slot List.mem_cons_self
    obtain rfl := Option.some.inj (hl.symm.trans hl')
    exact h.addAfter (hold _ hunread.2) hself hopen
  | @closed _ _ slot =>
    exact ⟨h.memo, h.before, h.after, h.nested.closed,
      fun s hs => h.unread s (List.mem_cons_of_mem slot hs)⟩

/-! ## 5. Store sites -/

section Sites

variable {s : Site}

theorem SiteStep.orderly (hs : SiteStep c S s p q) (hp : p.Sound c S) (h : Orderly c [] p) :
    Orderly c [] q := by
  cases hs with
  | points hs =>
    exact (hs.keeps (P := fun V p => p.Sound c S ∧ Orderly c V p)
      (fun hs h => ⟨hs.sound h.1, hs.orderly h.1 h.2⟩) ⟨hp, h⟩).2
  | argument | replaced => exact h.same h.memo rfl rfl fun _ _ => id
  | field _ _ hcode =>
    refine h.addReading fun l hmem => ?_
    exact (loading_of_pointCode hcode).store_not_mem l (by simpa using hmem)
  | result _ _ _ _ hcode =>
    refine h.addReading fun l hmem => ?_
    exact (loading_of_loadPoint hcode).store_not_mem l (by simpa using hmem)

theorem SitePlanned.orderly (hs : SitePlanned c S s p q) (hp : p.Sound c S) (h : Orderly c [] p) :
    Orderly c [] q := by
  cases hs with
  | steps hs =>
    induction hs with
    | refl => exact h
    | tail hs hlast ih => exact hlast.orderly (leads_of_siteSteps hs hp).1 ih
  | @literal _ classId offset =>
    have hnone (l : Nat) : Insn.store l ∉ [Insn.hook (.constantString classId offset)] := by simp
    have hafter := h.addAfter (k := s.insn) (fun _ _ l _ => hnone l) (fun l _ => hnone l) (by simp)
    exact hafter.same h.memo rfl rfl fun _ _ => id

end Sites

end Plan

/-- **The plan of a method** is in order. -/
theorem Weaver.Plans.orderly {w : Weaver} {breakInterning : Bool} {pool : LiteralPool} {m : Method}
    {a : Analysis} {p : Plan} (h : w.Plans breakInterning pool m a p) : Plan.Orderly ⟨m, a⟩ [] p :=
  (Plan.planSites_keeps (P := fun _ p => Plan.Orderly ⟨m, a⟩ [] p) h.woven.analysed
    (fun _ hs => ⟨Plan.siteAt_of_find hs, hs⟩) (fun _ _ hp _ hplanned => hplanned.orderly hp)
    (Plan.start_sound pool) (Plan.start_orderly ⟨m, a⟩ pool) h.planned).2

end Provenance
