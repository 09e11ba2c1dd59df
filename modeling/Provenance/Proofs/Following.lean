/-
# What can be followed

Whether a value can be followed is asked of graphs of any shape: a merge may have itself among its
members, at any distance and through moves and conversions, and two merges may have each other.  The
search goes down from a value, remembers the merges that it is in the middle of, and writes down
what it found of each, also when the answer is only no because of a merge that it is still in the
middle of.

Section 1 says what the answer should be without any search: `MergeIndex.Followable` speaks of all
that a value leads to.  Section 2 writes the search as a relation that knows of no bound on the
depth, so that a derivation is a search that ends, and `MergeIndex.search_iff` shows that it always
ends, with the answer that the definition computes.  Section 3 is why nothing wrong is ever written
down (`MergeIndex.Search.exact`): a merge in the middle of which the search stands leads to where it
stands, so coming back to it is a cycle, and a value that leads into a cycle is not to be followed
from anywhere.  `MergeIndex.isTrackable_exact` puts the parts together.
-/
import Mathlib.Data.List.Perm.Subperm
import Mathlib.Logic.Relation
import Provenance.Proofs.Merging

namespace Provenance

namespace MergeIndex

variable {x : MergeIndex} {t t' : Ty} {s : MergeSlot} {u v w : FlowValue}

/-! ## 1. What a value leads to -/

/-- One step down from a value: to what was moved or converted, or to a member of the merge. -/
inductive LeadsTo (x : MergeIndex) : FlowValue → FlowValue → Prop where
  | moved (insn : Nat) (v : FlowValue) : LeadsTo x (.copy insn v) v
  | converted (t : Ty) (insn : Nat) (v : FlowValue) : LeadsTo x (.cast t insn v) v
  | member {t : Ty} {s : MergeSlot} {v : FlowValue} (h : v ∈ x.members s) :
      LeadsTo x (.merged t s) v

/-- Any number of steps down, or none. -/
def Reaches (x : MergeIndex) : FlowValue → FlowValue → Prop := Relation.ReflTransGen x.LeadsTo

/-- One step down or more. -/
def ComesTo (x : MergeIndex) : FlowValue → FlowValue → Prop := Relation.TransGen x.LeadsTo

/-- All that a value leads to is known: every merge has members, each made by an instruction, and
none comes to itself again. -/
structure Followable (x : MergeIndex) (v : FlowValue) : Prop where
  known : ∀ ty, ¬ x.Reaches v (.untrackable ty)
  peopled : ∀ t s, x.Reaches v (.merged t s) → x.members s ≠ []
  created : ∀ t s, x.Reaches v (.merged t s) → ∀ m ∈ x.members s, m.creation?.isSome
  acyclic : ∀ t s, x.Reaches v (.merged t s) → ∀ t', ¬ x.ComesTo (.merged t s) (.merged t' s)

/-- So is all that lies further down. -/
theorem Followable.reached (h : x.Followable v) (hr : x.Reaches v u) : x.Followable u where
  known ty hu := h.known ty (hr.trans hu)
  peopled t s hu := h.peopled t s (hr.trans hu)
  created t s hu := h.created t s (hr.trans hu)
  acyclic t s hu := h.acyclic t s (hr.trans hu)

/-- The type of a merge does not matter for where it leads. -/
theorem ComesTo.retyped (h : x.ComesTo (.merged t s) w) (t' : Ty) : x.ComesTo (.merged t' s) w := by
  obtain ⟨u, hu, huw⟩ := Relation.TransGen.head'_iff.mp h
  cases hu with
  | member hmem => exact Relation.TransGen.head'_iff.mpr ⟨u, .member hmem, huw⟩

/-- **It is enough to look one step down.**  That a merge does not come to itself is not asked for:
it would do so through a member, and that would lead to the cycle, too. -/
theorem Followable.of_steps (hv : ∀ ty, v ≠ .untrackable ty)
    (hm : ∀ t s, v = .merged t s → x.members s ≠ [] ∧ ∀ m ∈ x.members s, m.creation?.isSome)
    (hnext : ∀ u, x.LeadsTo v u → x.Followable u) : x.Followable v := by
  have hdown : ∀ {w}, x.Reaches v w → v = w ∨ ∃ u, x.Followable u ∧ x.Reaches u w := by
    intro w hr
    rcases Relation.ReflTransGen.cases_head hr with heq | ⟨u, hvu, huw⟩
    · exact Or.inl heq
    · exact Or.inr ⟨u, hnext u hvu, huw⟩
  refine ⟨fun ty hr => ?_, fun t s hr => ?_, fun t s hr => ?_, fun t s hr t' hcycle => ?_⟩
  · rcases hdown hr with heq | ⟨u, hu, huw⟩
    · exact hv ty heq
    · exact hu.known ty huw
  · rcases hdown hr with heq | ⟨u, hu, huw⟩
    · exact (hm t s heq).1
    · exact hu.peopled t s huw
  · rcases hdown hr with heq | ⟨u, hu, huw⟩
    · exact (hm t s heq).2
    · exact hu.created t s huw
  · rcases hdown hr with rfl | ⟨u, hu, huw⟩
    · obtain ⟨u, hvu, hut⟩ := Relation.TransGen.head'_iff.mp hcycle
      exact (hnext u hvu).acyclic t' s hut t' (hcycle.retyped t')
    · exact hu.acyclic t s huw t' hcycle

theorem reaches_base (x : MergeIndex) (v : FlowValue) : x.Reaches v v.base := by
  induction v with
  | copy i v ih => exact Relation.ReflTransGen.head (.moved i v) ih
  | cast t i v ih => exact Relation.ReflTransGen.head (.converted t i v) ih
  | _ => exact Relation.ReflTransGen.refl

/-- Moves and conversions do not matter. -/
theorem followable_base : x.Followable v.base ↔ x.Followable v := by
  refine ⟨fun h => ?_, fun h => h.reached (reaches_base x v)⟩
  induction v with
  | copy i v ih =>
    refine .of_steps (by simp) (by simp) fun u hu => ?_
    cases hu
    exact ih h
  | cast t i v ih =>
    refine .of_steps (by simp) (by simp) fun u hu => ?_
    cases hu
    exact ih h
  | _ => exact h

/-- What has a definition leads to nothing else. -/
theorem followable_of_definition {d : Definition} (h : v.definition? = some d) :
    x.Followable v := by
  refine followable_base.mp ?_
  unfold FlowValue.definition? at h
  cases hb : v.base with
  | copy i u => exact absurd hb (FlowValue.base_ne_copy v i u)
  | cast t i u => exact absurd hb (FlowValue.base_ne_cast v t i u)
  | merged t s => rw [hb] at h; exact absurd h (by simp)
  | untrackable ty => rw [hb] at h; exact absurd h (by simp)
  | _ => exact .of_steps (by simp) (by simp) (by rintro u ⟨⟩)

/-- A merge can be followed if it has members and each was made by an instruction and can be
followed. -/
theorem followable_merged_iff : x.Followable (.merged t s) ↔
    x.members s ≠ [] ∧ ∀ m ∈ x.members s, m.creation?.isSome ∧ x.Followable m := by
  constructor
  · intro h
    have hself : x.Reaches (.merged t s) (.merged t s) := Relation.ReflTransGen.refl
    exact ⟨h.peopled t s hself, fun m hm =>
      ⟨h.created t s hself m hm, h.reached (Relation.ReflTransGen.single (.member hm))⟩⟩
  · rintro ⟨hne, hall⟩
    refine .of_steps (by simp) (fun t' s' heq => ?_) fun u hu => ?_
    · cases heq
      exact ⟨hne, fun m hm => (hall m hm).1⟩
    · cases hu with
      | member hmem => exact (hall u hmem).2

/-- What a merge comes to, and what leads back to the merge, cannot be followed. -/
theorem not_followable_again (hv : x.ComesTo (.merged t s) v) (hbase : v.base = .merged t' s) :
    ¬ x.Followable v := by
  intro h
  have hr : x.Reaches v (.merged t' s) := hbase ▸ reaches_base x v
  have hcyc : x.ComesTo (.merged t s) (.merged t' s) := hv.trans_left hr
  exact h.acyclic t' s hr t' (hcyc.retyped t')

/-! ## 2. The search, without a bound -/

/-- What is searched: a value, or the members of a merge, one after the other. -/
inductive Quest where
  | value (v : FlowValue)
  | members (ms : List FlowValue)

/-- `Search x visiting q memo b memo'`: the search that is in the middle of the merges `visiting`
and knows `memo` answers `b`, and knows `memo'` afterwards.  Members are searched up to the first
that was not made by an instruction or cannot be followed. -/
inductive Search (x : MergeIndex) :
    List MergeSlot → Quest → TrackMemo → Bool → TrackMemo → Prop where
  | unknown {visiting : List MergeSlot} {v : FlowValue} {memo : TrackMemo} {ty : Option Ty}
      (h : v.base = .untrackable ty) : Search x visiting (.value v) memo false memo
  | defined {visiting : List MergeSlot} {v : FlowValue} {memo : TrackMemo} {d : Definition}
      (h : v.definition? = some d) : Search x visiting (.value v) memo true memo
  /-- The merge was decided before. -/
  | decided {visiting : List MergeSlot} {v : FlowValue} {memo : TrackMemo} {t : Ty} {s : MergeSlot}
      {b : Bool} (h : v.base = .merged t s) (hmemo : memo.lookup s = some b) :
      Search x visiting (.value v) memo b memo
  /-- The search is in the middle of the merge. -/
  | again {visiting : List MergeSlot} {v : FlowValue} {memo : TrackMemo} {t : Ty} {s : MergeSlot}
      (h : v.base = .merged t s) (hmemo : memo.lookup s = none) (hs : s ∈ visiting) :
      Search x visiting (.value v) memo false memo
  | opened {visiting : List MergeSlot} {v : FlowValue} {memo memo' : TrackMemo} {t : Ty}
      {s : MergeSlot} {b : Bool} (h : v.base = .merged t s) (hmemo : memo.lookup s = none)
      (hs : s ∉ visiting) (hall : Search x (s :: visiting) (.members (x.members s)) memo b memo') :
      Search x visiting (.value v) memo (!(x.members s).isEmpty && b)
        ((s, !(x.members s).isEmpty && b) :: memo')
  | done {visiting : List MergeSlot} {memo : TrackMemo} :
      Search x visiting (.members []) memo true memo
  | uncreated {visiting : List MergeSlot} {m : FlowValue} {ms : List FlowValue} {memo : TrackMemo}
      (h : ¬ m.creation?.isSome = true) : Search x visiting (.members (m :: ms)) memo false memo
  | stopped {visiting : List MergeSlot} {m : FlowValue} {ms : List FlowValue}
      {memo memo' : TrackMemo} (h : m.creation?.isSome = true)
      (hm : Search x visiting (.value m) memo false memo') :
      Search x visiting (.members (m :: ms)) memo false memo'
  | next {visiting : List MergeSlot} {m : FlowValue} {ms : List FlowValue}
      {memo memo' memo'' : TrackMemo} {b : Bool} (h : m.creation?.isSome = true)
      (hm : Search x visiting (.value m) memo true memo')
      (hms : Search x visiting (.members ms) memo' b memo'') :
      Search x visiting (.members (m :: ms)) memo b memo''

/-! ### The search ends, and there is only one -/

theorem base_cases (v : FlowValue) : (∃ ty, v.base = .untrackable ty) ∨
    (∃ t s, v.base = .merged t s) ∨ ∃ d, v.definition? = some d := by
  cases h : v.definition? with
  | none => exact (FlowValue.base_of_no_definition h).imp_right Or.inl
  | some d => exact Or.inr (Or.inr ⟨d, rfl⟩)

theorem definition?_of_untrackable {ty : Option Ty} (h : v.base = .untrackable ty) :
    v.definition? = none := by
  simp [FlowValue.definition?, h]

theorem definition?_of_merged (h : v.base = .merged t s) : v.definition? = none := by
  simp [FlowValue.definition?, h]

/-- Members are searched one after the other. -/
theorem search_allWith {visiting : List MergeSlot} {test : FlowValue → TrackMemo → Bool × TrackMemo}
    {ms : List FlowValue} (hcreated : ∀ m ∈ ms, ∀ memo, m.creation?.isSome = true →
      Search x visiting (.value m) memo (test m memo).1 (test m memo).2)
    (huncreated : ∀ m ∈ ms, ∀ memo, ¬ m.creation?.isSome = true → test m memo = (false, memo)) :
    ∀ memo, Search x visiting (.members ms) memo (allWith test ms memo).1
      (allWith test ms memo).2 := by
  induction ms with
  | nil => intro memo; exact .done
  | cons m ms ih =>
    intro memo
    have hrest := ih (fun u hu => hcreated u (List.mem_cons_of_mem m hu))
      (fun u hu => huncreated u (List.mem_cons_of_mem m hu))
    unfold allWith
    by_cases hc : m.creation?.isSome = true
    · have hm := hcreated m (by simp) memo hc
      generalize test m memo = r at hm ⊢
      obtain ⟨b, memo'⟩ := r
      cases b with
      | true => exact .next hc hm (hrest memo')
      | false => exact .stopped hc hm
    · rw [huncreated m (by simp) memo hc]
      exact .uncreated hc

/-- The merges that have members are no more than the entries of the index. -/
theorem length_le_size {visiting : List MergeSlot} (hnd : visiting.Nodup)
    (hne : ∀ s ∈ visiting, x.members s ≠ []) : visiting.length ≤ x.size := by
  have hsub : visiting ⊆ x.entries.map Prod.fst := by
    intro s hs
    have hsome : ∃ ms, x.entries.lookup s = some ms := by
      cases h : x.entries.lookup s with
      | none => exact absurd (by simp [members, h]) (hne s hs)
      | some ms => exact ⟨ms, rfl⟩
    obtain ⟨ms, hms⟩ := hsome
    exact List.mem_map_of_mem (f := Prod.fst) (mem_of_lookup hms)
  calc visiting.length ≤
      (x.entries.map Prod.fst).length := (List.subperm_of_subset hnd hsub).length_le
    _ = x.size := by simp [size]

/-- **The bound is never reached**, as long as the merges in the middle of which the search stands
are different and have members. -/
theorem search_trackableFrom {fuel : Nat} : ∀ {visiting : List MergeSlot}, visiting.Nodup →
    (∀ s ∈ visiting, x.members s ≠ []) → fuel + visiting.length = x.size + 1 → ∀ v memo,
    Search x visiting (.value v) memo (x.trackableFrom fuel visiting v memo).1
      (x.trackableFrom fuel visiting v memo).2 := by
  induction fuel with
  | zero =>
    intro visiting hnd hne hlen
    have := length_le_size hnd hne
    omega
  | succ fuel ih =>
    intro visiting hnd hne hlen v memo
    rcases base_cases v with ⟨ty, hb⟩ | ⟨t, s, hb⟩ | ⟨d, hd⟩
    · unfold trackableFrom
      simp only [hb]
      exact .unknown hb
    · unfold trackableFrom
      simp only [hb]
      cases hmemo : memo.lookup s with
      | some b => exact .decided hb hmemo
      | none =>
        by_cases hs : s ∈ visiting
        · simp only [List.contains_iff_mem.mpr hs, if_true]
          exact .again hb hmemo hs
        · have hs' : visiting.contains s = false := by simpa using hs
          simp only [hs', Bool.false_eq_true, if_false]
          refine .opened hb hmemo hs
            (search_allWith (fun m hm memo hc => ?_) (fun m _ memo hc => ?_) memo)
          · simp only [hc, if_true]
            refine ih (List.nodup_cons.mpr ⟨hs, hnd⟩) ?_ (by simp; omega) m memo
            rintro s' hs'
            rcases List.mem_cons.mp hs' with rfl | hs'
            · exact List.ne_nil_of_mem hm
            · exact hne s' hs'
          · simp only [hc]
            rfl
    · rw [trackableFrom_of_definition hd]
      exact .defined hd

theorem Search.unique {visiting : List MergeSlot} {q : Quest} {memo memo₁ memo₂ : TrackMemo}
    {b₁ b₂ : Bool} (h₁ : Search x visiting q memo b₁ memo₁)
    (h₂ : Search x visiting q memo b₂ memo₂) :
    b₁ = b₂ ∧ memo₁ = memo₂ := by
  induction h₁ generalizing b₂ memo₂ with
  | unknown hb =>
    cases h₂ with
    | unknown _ => exact ⟨rfl, rfl⟩
    | defined hd => exact absurd (hd.symm.trans (definition?_of_untrackable hb)) (by simp)
    | decided hb' _ | again hb' _ _ | opened hb' _ _ _ => exact absurd (hb.symm.trans hb') (by simp)
  | defined hd =>
    cases h₂ with
    | unknown hb => exact absurd (hd.symm.trans (definition?_of_untrackable hb)) (by simp)
    | defined _ => exact ⟨rfl, rfl⟩
    | decided hb _ | again hb _ _ | opened hb _ _ _ =>
      exact absurd (hd.symm.trans (definition?_of_merged hb)) (by simp)
  | decided hb hlookup =>
    cases h₂ with
    | unknown hb' => exact absurd (hb.symm.trans hb') (by simp)
    | defined hd => exact absurd (hd.symm.trans (definition?_of_merged hb)) (by simp)
    | decided hb' hlookup' =>
      cases hb.symm.trans hb'
      exact ⟨Option.some.inj (hlookup.symm.trans hlookup'), rfl⟩
    | again hb' hlookup' _ | opened hb' hlookup' _ _ =>
      cases hb.symm.trans hb'
      exact absurd (hlookup.symm.trans hlookup') (by simp)
  | again hb hlookup hs =>
    cases h₂ with
    | unknown hb' => exact absurd (hb.symm.trans hb') (by simp)
    | defined hd => exact absurd (hd.symm.trans (definition?_of_merged hb)) (by simp)
    | decided hb' hlookup' =>
      cases hb.symm.trans hb'
      exact absurd (hlookup.symm.trans hlookup') (by simp)
    | again _ _ _ => exact ⟨rfl, rfl⟩
    | opened hb' _ hs' _ =>
      cases hb.symm.trans hb'
      exact absurd hs hs'
  | opened hb hlookup hs _ ih =>
    cases h₂ with
    | unknown hb' => exact absurd (hb.symm.trans hb') (by simp)
    | defined hd => exact absurd (hd.symm.trans (definition?_of_merged hb)) (by simp)
    | decided hb' hlookup' =>
      cases hb.symm.trans hb'
      exact absurd (hlookup.symm.trans hlookup') (by simp)
    | again hb' _ hs' =>
      cases hb.symm.trans hb'
      exact absurd hs' hs
    | opened hb' _ _ hall' =>
      cases hb.symm.trans hb'
      obtain ⟨rfl, rfl⟩ := ih hall'
      exact ⟨rfl, rfl⟩
  | done =>
    cases h₂
    exact ⟨rfl, rfl⟩
  | uncreated hc =>
    cases h₂ with
    | uncreated _ => exact ⟨rfl, rfl⟩
    | stopped hc' _ => exact absurd hc' hc
    | next hc' _ _ => exact absurd hc' hc
  | stopped hc _ ih =>
    cases h₂ with
    | uncreated hc' => exact absurd hc hc'
    | stopped _ hm' => exact ih hm'
    | next _ hm' _ => exact absurd (ih hm').1 (by simp)
  | next hc _ _ ih ihs =>
    cases h₂ with
    | uncreated hc' => exact absurd hc hc'
    | stopped _ hm' => exact absurd (ih hm').1 (by simp)
    | next _ hm' hms' =>
      obtain ⟨-, rfl⟩ := ih hm'
      exact ihs hms'

/-- **Every search ends, with the answer that is computed.** -/
theorem search_iff {memo memo' : TrackMemo} {b : Bool} :
    Search x [] (.value v) memo b memo' ↔ x.trackable v memo = (b, memo') := by
  have hsearch : Search x [] (.value v) memo (x.trackable v memo).1 (x.trackable v memo).2 :=
    search_trackableFrom List.nodup_nil (by simp) rfl v memo
  constructor
  · intro h
    obtain ⟨rfl, rfl⟩ := h.unique hsearch
    rfl
  · intro h
    rwa [h] at hsearch

/-! ## 3. The search answers right -/

/-- What is written down of each merge is whether it can be followed. -/
def Truthful (x : MergeIndex) (memo : TrackMemo) : Prop :=
  ∀ s b, memo.lookup s = some b → ∀ t, b = true ↔ x.Followable (.merged t s)

theorem truthful_nil (x : MergeIndex) : x.Truthful [] := by
  intro s b h
  simp at h

theorem Truthful.cons {memo : TrackMemo} (h : x.Truthful memo) {b : Bool}
    (hs : b = true ↔ x.Followable (.merged t s)) : x.Truthful ((s, b) :: memo) := by
  intro s' b' hlookup t'
  rw [lookup_cons_if] at hlookup
  split at hlookup
  · rename_i heq
    cases heq
    cases hlookup
    rw [hs, followable_merged_iff, followable_merged_iff]
  · exact h s' b' hlookup t'

/-- What the answer should be. -/
def Quest.Right (x : MergeIndex) : Quest → Prop
  | .value v => x.Followable v
  | .members ms => ∀ m ∈ ms, m.creation?.isSome ∧ x.Followable m

/-- What is searched lies below a merge. -/
def Quest.Below (x : MergeIndex) (s : MergeSlot) : Quest → Prop
  | .value v => ∃ t, x.ComesTo (.merged t s) v
  | .members ms => ∃ t, ∀ m ∈ ms, x.ComesTo (.merged t s) m

/-- Members lie below their merge, and below all that it is below. -/
theorem Quest.below_members {s' : MergeSlot} (hb : v.base = .merged t s)
    (h : s' = s ∨ Quest.Below x s' (.value v)) : Quest.Below x s' (.members (x.members s)) := by
  rcases h with rfl | ⟨t', ht'⟩
  · exact ⟨t, fun m hm => Relation.TransGen.single (.member hm)⟩
  · have hv : x.Reaches v (.merged t s) := hb ▸ reaches_base x v
    exact ⟨t', fun m hm => (ht'.trans_left hv).tail (.member hm)⟩

/-- **A search answers right, and writes down nothing wrong**, whatever it is in the middle of. -/
theorem Search.exact {visiting : List MergeSlot} {q : Quest} {memo memo' : TrackMemo} {b : Bool}
    (h : Search x visiting q memo b memo') (hmemo : x.Truthful memo)
    (hin : ∀ s ∈ visiting, q.Below x s) : (b = true ↔ q.Right x) ∧ x.Truthful memo' := by
  induction h with
  | @unknown _ v _ ty hb =>
    refine ⟨iff_of_false (by simp) fun hv => ?_, hmemo⟩
    exact hv.known ty (hb ▸ reaches_base x v)
  | defined hd => exact ⟨iff_of_true rfl (followable_of_definition hd), hmemo⟩
  | @decided _ v _ t s b hb hlookup =>
    refine ⟨?_, hmemo⟩
    calc b = true ↔ x.Followable (.merged t s) := hmemo s b hlookup t
      _ ↔ x.Followable v := by rw [← hb, followable_base]
  | again hb _ hs =>
    obtain ⟨t', ht'⟩ := hin _ hs
    exact ⟨iff_of_false (by simp) (not_followable_again ht' hb), hmemo⟩
  | @opened _ v _ _ t s b hb _ _ _ ih =>
    obtain ⟨hiff, htruth⟩ := ih hmemo fun s' hs' =>
      Quest.below_members hb ((List.mem_cons.mp hs').imp_right (hin s'))
    have hresult : (!(x.members s).isEmpty && b) = true ↔ x.Followable (.merged t s) := by
      rw [followable_merged_iff, Bool.and_eq_true, hiff]
      simp [Quest.Right]
    refine ⟨?_, htruth.cons hresult⟩
    calc (!(x.members s).isEmpty && b) = true ↔ x.Followable (.merged t s) := hresult
      _ ↔ x.Followable v := by rw [← hb, followable_base]
  | done => exact ⟨by simp [Quest.Right], hmemo⟩
  | uncreated hc =>
    exact ⟨iff_of_false (by simp) fun hall => hc (hall _ (by simp)).1, hmemo⟩
  | stopped hc _ ih =>
    obtain ⟨hiff, htruth⟩ := ih hmemo fun s hs => (hin s hs).imp fun t ht => ht _ (by simp)
    refine ⟨iff_of_false (by simp) fun hall => ?_, htruth⟩
    exact absurd (hiff.mpr (hall _ (by simp)).2) (by simp)
  | @next _ m ms _ _ _ b hc _ _ ih ihs =>
    obtain ⟨hiff, htruth⟩ := ih hmemo fun s hs => (hin s hs).imp fun t ht => ht _ (by simp)
    obtain ⟨hrest, htruth⟩ := ihs htruth fun s hs =>
      (hin s hs).imp fun t ht u hu => ht u (List.mem_cons_of_mem m hu)
    refine ⟨?_, htruth⟩
    have hm : m.creation?.isSome ∧ x.Followable m := ⟨hc, hiff.mp rfl⟩
    calc b = true ↔ ∀ u ∈ ms, u.creation?.isSome ∧ x.Followable u := hrest
      _ ↔ ∀ u ∈ m :: ms, u.creation?.isSome ∧ x.Followable u := by
        rw [List.forall_mem_cons, and_iff_right hm]

/-- One question: the answer is right, and so is what is written down. -/
theorem Truthful.trackable {memo : TrackMemo} (h : x.Truthful memo) (v : FlowValue) :
    ((x.trackable v memo).1 = true ↔ x.Followable v) ∧ x.Truthful (x.trackable v memo).2 :=
  (search_iff.mpr rfl).exact h (by simp)

/-- What is written down after several questions. -/
def noted (x : MergeIndex) (vs : List FlowValue) : TrackMemo :=
  vs.foldl (fun memo v => (x.trackable v memo).2) []

/-- Any number of questions. -/
theorem truthful_noted (x : MergeIndex) (vs : List FlowValue) : x.Truthful (x.noted vs) := by
  have hall : ∀ memo, x.Truthful memo →
      x.Truthful (vs.foldl (fun memo v => (x.trackable v memo).2) memo) := by
    induction vs with
    | nil => intro memo h; exact h
    | cons v vs ih => intro memo h; exact ih _ (h.trackable v).2
  exact hall [] (truthful_nil x)

/-- **Trackability is decided exactly.**  Whatever the index and the value, the search ends, with
whatever memo it starts; the answer is yes if and only if all that the value leads to is known; and
it is the same after any questions about the same index. -/
theorem isTrackable_exact (x : MergeIndex) (v : FlowValue) :
    (∀ memo b memo', Search x [] (.value v) memo b memo' ↔ x.trackable v memo = (b, memo')) ∧
    (x.isTrackable v = true ↔ x.Followable v) ∧
    ∀ vs, (x.trackable v (x.noted vs)).1 = x.isTrackable v := by
  have hempty : x.isTrackable v = true ↔ x.Followable v := ((truthful_nil x).trackable v).1
  refine ⟨fun memo b memo' => search_iff, hempty, fun vs => ?_⟩
  rw [Bool.eq_iff_iff, hempty]
  exact ((truthful_noted x vs).trackable v).1

end MergeIndex

end Provenance
