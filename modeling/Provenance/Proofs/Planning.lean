/-
# Planning a method

Each function of the planner goes by steps (`Plan.Steps`, `Plan.SitePlanned`), so what steps keep
holds of what is planned for the sites of a method (`Plan.planSites_keeps`).  A first use is
`Plan.planSites_sound`: it is a sound plan, and in it every merge that got a local has all its
members noted (`Plan.Noted`).

The induction for a merge is on the depth to which merges lie below each other.
-/
import Provenance.Proofs.Deciding

namespace Provenance

namespace Plan

variable {c : PlanContext} {S : List Site}

/-! ## 1. Whatever the point of a value needs -/

section Values

variable {V : List MergeSlot} {p q : Plan} {v : FlowValue} {slot : MergeSlot} {l : Nat}

/-- **The local for a read**, filled in front of it. -/
theorem ensurePointLocal_steps {k room : Nat} {take : List Insn} (htake : TakesPoint c k take)
    (h : Planning.Gives (ensurePointLocal c k room take) p () q) : Steps c V p V q := by
  replace h := Planning.gives_read.mp h
  split at h
  · rename_i hfree
    simp only [Planning.gives_bind, Planning.gives_modify] at h
    obtain ⟨l, _, hnew, _, _, rfl, _, _, hinsert, _, _, hbefore, hroom⟩ := h
    obtain ⟨rfl, rfl⟩ := Planning.gives_newNullLocal hnew
    obtain rfl := Planning.gives_modify.mp hinsert
    rw [Planning.gives_stackBefore hbefore] at hroom
    rw [Planning.gives_requireStack hroom]
    exact (Steps.single (.point htake (by simpa [localOf] using hfree))).tail (.room V _ _)
  · obtain ⟨-, rfl⟩ := Planning.gives_pure.mp h
    exact .refl

/-- **Noting one member.** -/
theorem stashMember_steps (h : Planning.Gives (stashMember c slot l v) p () q)
    (hl : p.localOf (.merge slot) = some l) (hv : v ∈ c.analysis.merges.members slot) :
    Steps c (slot :: V) p (slot :: V) q ∧ q.Stashed l v := by
  simp only [stashMember, Planning.gives_bind] at h
  obtain ⟨code, _, hcode, h⟩ := h
  obtain ⟨hload, rfl⟩ := Planning.gives_pointCode hcode
  split at h
  · rename_i t inner
    simp only [Planning.gives_bind] at h
    obtain ⟨height, _, hbefore, _, _, hroom, hinsert⟩ := h
    rw [Planning.gives_stackBefore hbefore] at hroom
    obtain rfl := Planning.gives_requireStack hroom
    obtain rfl := Planning.gives_modify.mp hinsert
    have hsteps := (Steps.single (.room (slot :: V) p (height + 1))).tail (.joined hl hv hload)
    exact ⟨hsteps, code, hsteps.extends.loadPoint hload, Or.inl ⟨t, inner, rfl, by simp⟩⟩
  · rename_i hmerged
    split at h
    · exact absurd h Planning.gives_throw
    · rename_i k hk
      simp only [Planning.gives_bind] at h
      obtain ⟨height, _, hafter, _, _, hroom, hinsert⟩ := h
      rw [Planning.gives_stackAfter hafter] at hroom
      obtain rfl := Planning.gives_requireStack hroom
      obtain rfl := Planning.gives_modify.mp hinsert
      have hsteps :=
        (Steps.single (.room (slot :: V) p (height + 1))).tail (.made hl hv hmerged hk hload)
      exact ⟨hsteps, code, hsteps.extends.loadPoint hload, Or.inr ⟨k, hmerged, hk, by simp⟩⟩

/-- The method's own record. -/
theorem ensureStarted_steps (h : Planning.Gives ensureStarted p l q) :
    Steps c V p V q ∧ q.localOf .own = some l := by
  replace h := Planning.gives_read.mp h
  split at h
  · rename_i own hown
    obtain ⟨rfl, rfl⟩ := Planning.gives_pure.mp h
    exact ⟨.refl, hown⟩
  · rename_i hfree
    simp only [newLocal, Planning.gives_bind, Planning.gives_get, Planning.gives_set,
      Planning.gives_modify, Planning.gives_pure] at h
    obtain ⟨l', _, ⟨_, _, ⟨rfl, rfl⟩, _, _, rfl, rfl, rfl⟩, _, _, rfl, _, _, hroom, rfl, rfl⟩ := h
    obtain rfl := Planning.gives_requireStack hroom
    exact ⟨(Steps.single (.own hfree)).tail (.room V _ _), rfl⟩

/-- **Noting all members of a merge.** -/
theorem noteMembers_steps {track : FlowValue → Planning Unit} :
    ∀ {ms : List FlowValue} {p q : Plan}, Planning.Gives (forEach (fun v => do
      track v
      stashMember c slot l v) ms) p () q →
    (∀ v ∈ ms, v ∈ c.analysis.merges.members slot) →
    (∀ v ∈ ms, ∀ p q, Planning.Gives (track v) p () q → Steps c (slot :: V) p (slot :: V) q) →
    p.localOf (.merge slot) = some l →
    Steps c (slot :: V) p (slot :: V) q ∧ ∀ v ∈ ms, q.Stashed l v := by
  intro ms
  induction ms with
  | nil =>
    intro p q h _ _ _
    obtain ⟨-, rfl⟩ := Planning.gives_pure.mp h
    exact ⟨.refl, by simp⟩
  | cons v ms ih =>
    intro p q h hmembers htrack hl
    simp only [forEach, Planning.gives_bind] at h
    obtain ⟨_, p₂, ⟨_, p₁, htracked, hstash⟩, hrest⟩ := h
    have h₁ := htrack v (by simp) p p₁ htracked
    have hl₁ := h₁.extends.localOf _ _ hl
    obtain ⟨h₂, hstashed⟩ := stashMember_steps (V := V) hstash hl₁ (hmembers v (by simp))
    obtain ⟨h₃, hall⟩ := ih hrest (fun u hu => hmembers u (by simp [hu]))
      (fun u hu => htrack u (by simp [hu])) (h₂.extends.localOf _ _ hl₁)
    exact ⟨(h₁.trans h₂).trans h₃, List.forall_mem_cons.mpr ⟨hstashed.extend h₃.extends, hall⟩⟩

/-- **Planning what the point of a value needs** goes by steps, and closes every merge that it
opens. -/
theorem ensureTrackedFrom_steps (hc : c.analysis.Sound c.method) (fuel : Nat) :
    ∀ {V : List MergeSlot} {v : FlowValue} {p q : Plan}, v.MadeIn c.method →
    (∀ s, V.head? = some s → v ∈ c.analysis.merges.members s) →
    Planning.Gives (ensureTrackedFrom c fuel v) p () q → Steps c V p V q := by
  induction fuel using Nat.strongRecOn with
  | ind fuel ih =>
    intro V v p q hmade hinner h
    unfold FlowValue.MadeIn at hmade
    unfold ensureTrackedFrom at h
    split at h
    · obtain ⟨-, rfl⟩ := Planning.gives_pure.mp h
      exact .refl
    · rename_i t k n hb
      rw [hb] at hmade
      obtain ⟨literal, hi, rfl⟩ := hmade
      replace h := Planning.gives_read.mp h
      split at h
      · rename_i hfree
        obtain ⟨place, _, htrack, h⟩ := Planning.gives_bind.mp h
        obtain ⟨pool, hplace, rfl⟩ := Planning.gives_trackConstant htrack
        rw [Planning.gives_modify.mp h]
        exact .single (.number hi (by simpa using hfree) hplace)
      · obtain ⟨-, rfl⟩ := Planning.gives_pure.mp h
        exact .refl
    · rename_i t k hb
      rw [hb] at hmade
      exact ensurePointLocal_steps (.element hmade) h
    · rename_i t k key hb
      rw [hb] at hmade
      obtain ⟨fd, hi, rfl⟩ := hmade
      exact ensurePointLocal_steps (.field hi) h
    · rename_i t k hb
      rw [hb] at hmade
      obtain ⟨target, hi, hclone, hcarries⟩ := hmade
      replace h := Planning.gives_read.mp h
      split at h
      · rename_i hfree
        simp only [Planning.gives_bind, Planning.gives_modify] at h
        obtain ⟨l, _, hnew, _, _, rfl, _, _, hbefore, hroom⟩ := h
        obtain ⟨rfl, rfl⟩ := Planning.gives_newNullLocal hnew
        rw [Planning.gives_stackBefore hbefore] at hroom
        rw [Planning.gives_requireStack hroom]
        have hcall : Recorded c k target :=
          ⟨hi, Frame.isArrayCopy_of_carriesResult hcarries, hclone⟩
        exact (Steps.single (.record hcall (by simpa [localOf] using hfree))).tail (.room V _ _)
      · obtain ⟨-, rfl⟩ := Planning.gives_pure.mp h
        exact .refl
    · obtain ⟨l, _, hstarted, h⟩ := Planning.gives_bind.mp h
      obtain ⟨-, rfl⟩ := Planning.gives_pure.mp h
      exact (ensureStarted_steps hstarted).1
    · rename_i t slot hb
      replace h := Planning.gives_read.mp h
      split at h
      · obtain ⟨-, rfl⟩ := Planning.gives_pure.mp h
        exact .refl
      · rename_i hfree
        have hfree' : p.mergeLocals.lookup slot = none := Option.not_isSome_iff_eq_none.mp hfree
        obtain ⟨followed, _, htrack, h⟩ := Planning.gives_bind.mp h
        obtain ⟨hfollowed, rfl⟩ := Planning.gives_isTrackable htrack
        split at h
        · rw [Planning.gives_modify.mp h]
          exact (Steps.single (.asked V p (.merged t slot))).tail (.dropped hfree')
        · rename_i hnot
          cases fuel with
          | zero => exact absurd h Planning.gives_throw
          | succ fuel =>
            simp only [Planning.gives_bind, Planning.gives_modify] at h
            obtain ⟨l, _, hnew, _, _, rfl, hmembers⟩ := h
            obtain ⟨rfl, rfl⟩ := Planning.gives_newNullLocal hnew
            have hopened : Step c V p (slot :: V) _ :=
              .opened hfree' (by simpa [hfollowed] using hnot) fun s hs => ⟨v, hinner s hs, hb⟩
            -- what is planned for a member leaves the merge open
            obtain ⟨hsteps, hall⟩ := noteMembers_steps (V := V) hmembers (fun u hu => hu)
              (fun u hu p q hg => ih fuel (Nat.lt_succ_self fuel) (hc.members slot u hu)
                (fun s hs => Option.some.inj hs ▸ hu) hg) (by simp [localOf])
            have hl := hsteps.extends.localOf (.merge slot) p.nextLocal (by simp [localOf])
            exact ((Steps.single hopened).trans hsteps).tail (.closed ⟨_, hl, hall⟩)
    · obtain ⟨-, rfl⟩ := Planning.gives_pure.mp h
      exact .refl

theorem ensureTracked_steps (hc : c.analysis.Sound c.method) (hmade : v.MadeIn c.method)
    (h : Planning.Gives (ensureTracked c v) p () q) : Steps c [] p [] q :=
  ensureTrackedFrom_steps hc _ hmade (by simp) h

/-- The point of a value, or null. -/
theorem pointOrNull_steps (hc : c.analysis.Sound c.method) {code : List Insn}
    (hmade : v.MadeIn c.method) (h : Planning.Gives (pointOrNull c v) p code q) :
    Steps c [] p [] q ∧ q.PointCode v code := by
  obtain ⟨followed, _, htrack, h⟩ := Planning.gives_bind.mp h
  obtain ⟨hfollowed, rfl⟩ := Planning.gives_isTrackable htrack
  have hasked : Steps c [] p [] _ := .single (.asked [] p v)
  split at h
  · obtain ⟨_, p₁, hensure, hcode⟩ := Planning.gives_bind.mp h
    obtain ⟨hload, rfl⟩ := Planning.gives_pointCode hcode
    exact ⟨hasked.trans (ensureTracked_steps hc hmade hensure), Or.inl hload⟩
  · rename_i hnot
    obtain ⟨rfl, rfl⟩ := Planning.gives_pure.mp h
    refine ⟨hasked, Or.inr ⟨?_, rfl⟩⟩
    cases hd : v.definition? with
    | none => rfl
    | some d => exact absurd (by rw [hfollowed, MergeIndex.trackable_of_definition hd]) hnot

end Values

/-! ## 2. Arguments and operands -/

section Operands

variable {s : Site} {p q : Plan}

/-- A value of a frame, or the one that stands for a missing operand. -/
theorem top_madeIn {m : Method} {f : Frame} (h : f.All fun v => v.MadeIn m) (depth : Nat) :
    (f.top depth).MadeIn m := by
  unfold Frame.top Frame.peek?
  cases hd : f.stack[depth]? with
  | none => trivial
  | some v => exact h.stack v (List.mem_of_getElem? hd)

/-- The arguments of a call, from one on. -/
theorem recordArguments_steps (hc : c.analysis.Sound c.method) {target : MethodRef} {f : Frame}
    (hs : ∃ args, s.action = .callArguments args) (hcall : Recorded c s.insn target)
    (hf : c.analysis.frame? s.insn = some f) :
    ∀ {args : List (Option FlowValue)} {arg : Nat} {some? : Bool} {p q : Plan},
    Planning.Gives (recordArguments c s.insn arg args) p some? q →
    arg + args.length = target.desc.params.length →
    (∀ n v, args[n]? = some (some v) → v = f.top (target.desc.params.length - 1 - (arg + n))) →
    Relation.ReflTransGen (SiteStep c S s) p q := by
  intro args
  induction args with
  | nil =>
    intro arg some? p q h _ _
    obtain ⟨-, rfl⟩ := Planning.gives_pure.mp h
    exact .refl
  | cons v? rest ih =>
    intro arg some? p q h hlen hargs
    have hlen' : arg + 1 + rest.length = target.desc.params.length := by
      simp only [List.length_cons] at hlen
      omega
    have hrest : ∀ n v, rest[n]? = some (some v) →
        v = f.top (target.desc.params.length - 1 - (arg + 1 + n)) := by
      intro n v hn
      have := hargs (n + 1) v (by simpa using hn)
      rwa [show arg + (n + 1) = arg + 1 + n by omega] at this
    cases v? with
    | none => exact ih h hlen' hrest
    | some v =>
      have hv : v = f.top (target.desc.params.length - 1 - arg) := hargs 0 v rfl
      have hmade : v.MadeIn c.method := hv ▸ top_madeIn (hc.frames _ f hf) _
      obtain ⟨followed, _, htrack, h⟩ := Planning.gives_bind.mp h
      obtain ⟨-, rfl⟩ := Planning.gives_isTrackable htrack
      have hasked : Steps c [] p [] _ := .single (.asked [] p v)
      split at h
      · simp only [Planning.gives_bind, Planning.gives_pure] at h
        obtain ⟨_, p₁, hensure, code, _, hcode, _, p₂, hadd, _, _, hmore, -, rfl⟩ := h
        obtain ⟨hload, rfl⟩ := Planning.gives_pointCode hcode
        obtain rfl := Planning.gives_modify.mp hadd
        have hpiece : ArgumentPiece c p₁ s.insn arg code :=
          ⟨target, f, hcall, by simp only [List.length_cons] at hlen; omega, hf, hv ▸ hload⟩
        have hpoints := hasked.trans (ensureTracked_steps hc hmade hensure)
        exact .head (.points hpoints) (.head (.argument hs hpiece) (ih hmore hlen' hrest))
      · exact .head (.points hasked) (ih h hlen' hrest)

/-- One operand of a concatenation is marked or not, and the others follow. -/
theorem concatPoints_cons {t : Ty} {ts : List Ty} {v : FlowValue} {vs : List FlowValue}
    {r : List Char × List Insn} (h : Planning.Gives (concatPoints c (t :: ts) (v :: vs)) p r q) :
    ∃ (marked : Bool) (p₁ : Plan), (marked = true → t = .char) ∧ Steps c [] p [] p₁ ∧
      Planning.Gives (if marked = true then do
        ensureTracked c v
        let code ← pointCode v
        let (mask, loads) ← concatPoints c ts vs
        pure ('T' :: mask, code ++ loads)
      else do
        let (mask, loads) ← concatPoints c ts vs
        pure ('.' :: mask, loads)) p₁ r q := by
  unfold concatPoints at h
  split at h
  · rename_i ht
    obtain ⟨marked, _, htrack, h⟩ := Planning.gives_bind.mp h
    obtain ⟨-, rfl⟩ := Planning.gives_isTrackable htrack
    exact ⟨marked, _, fun _ => ht, .single (.asked [] p v), h⟩
  · obtain ⟨marked, _, hpure, h⟩ := Planning.gives_bind.mp h
    obtain ⟨rfl, rfl⟩ := Planning.gives_pure.mp hpure
    exact ⟨false, p, by simp, .refl, h⟩

/-- The points of a concatenation. -/
theorem concatPoints_steps (hc : c.analysis.Sound c.method) : ∀ {ts : List Ty}
    {vs : List FlowValue} {r : List Char × List Insn} {p q : Plan},
    Planning.Gives (concatPoints c ts vs) p r q → ts.length = vs.length →
    (∀ v ∈ vs, v.MadeIn c.method) → Steps c [] p [] q ∧ q.Marked ts vs r.1 r.2 := by
  intro ts
  induction ts with
  | nil =>
    intro vs r p q h hlen _
    cases vs with
    | cons v vs => simp at hlen
    | nil =>
      obtain ⟨rfl, rfl⟩ := Planning.gives_pure.mp h
      exact ⟨.refl, .done⟩
  | cons t ts ih =>
    intro vs r p q h hlen hmade
    cases vs with
    | nil => simp at hlen
    | cons v vs =>
      have hlen' : ts.length = vs.length := by simpa using hlen
      obtain ⟨hv, hvs⟩ := List.forall_mem_cons.mp hmade
      have hcons := concatPoints_cons h
      clear h
      obtain ⟨marked, p₁, ht, h₁, h⟩ := hcons
      split at h
      · rename_i hm
        obtain rfl := ht hm
        simp only [Planning.gives_bind, Planning.gives_pure] at h
        obtain ⟨_, p₂, hensure, code, _, hcode, rest, _, hrest, rfl, rfl⟩ := h
        obtain ⟨hload, rfl⟩ := Planning.gives_pointCode hcode
        obtain ⟨h₃, hmarked⟩ := ih hrest hlen' hvs
        exact ⟨(h₁.trans (ensureTracked_steps hc hv hensure)).trans h₃,
          .marked (h₃.extends.loadPoint hload) hmarked⟩
      · simp only [Planning.gives_bind, Planning.gives_pure] at h
        obtain ⟨rest, _, hrest, rfl, rfl⟩ := h
        obtain ⟨h₃, hmarked⟩ := ih hrest hlen' hvs
        exact ⟨h₁.trans h₃, .unmarked hmarked⟩

end Operands

/-! ## 3. Sites -/

/-- What a site is: an instruction with a frame, and what it stores there. -/
def SiteAt (m : Method) (a : Analysis) (breakInterning : Bool) (s : Site) : Prop :=
  ∃ i f, m.insns[s.insn]? = some i ∧ a.frame? s.insn = some f ∧
    Site.action? m breakInterning f i = some s.action

/-- The ways in which an instruction, before which a frame holds, is a site. -/
inductive SiteForm (f : Frame) : Insn → SiteAction → Prop where
  | arrayStore (elem : Ty) : SiteForm f (.arrayStore elem) (.arrayStore elem (f.top 0))
  | fieldStore (fd : FieldRef) : SiteForm f (.putField fd) (.fieldStore fd.key (f.top 0))
  | arrayCopy {target : MethodRef} (hcopy : Carrier.isArrayCopy target = true) :
      SiteForm f (.invoke target) .arrayCopy
  | arrayClone {target : MethodRef} (hcopy : Carrier.isArrayCopy target = false)
      (hclone : (Carrier.clonedArray? target).isSome) : SiteForm f (.invoke target) .arrayClone
  | callArguments {target : MethodRef} {carried : List Bool}
      (hcopy : Carrier.isArrayCopy target = false) (hclone : Carrier.clonedArray? target = none)
      (hcarried : Carrier.carriedArguments? target.name target.desc = some carried) :
      SiteForm f (.invoke target) (.callArguments (Site.recordedArguments f carried))
  | returnValue {t : Ty} (ht : t ≠ .void) : SiteForm f (.ret t) (.returnValue (f.top 0))
  | concat (args : List Ty) :
      SiteForm f (.concat args) (.concat args ((List.range args.length).reverse.map f.top))
  | stringComparison (equal : Bool) (target : Nat) :
      SiteForm f (if equal then .ifRefEq target else .ifRefNe target)
      (.stringComparison equal target)
  | stringLiteral (text : String) : SiteForm f (.const (.str text)) (.stringLiteral text)

/-- **Every site has one of these forms.** -/
theorem siteForm_of_action {m : Method} {breakInterning : Bool} {f : Frame} {i : Insn}
    {action : SiteAction} (haction : Site.action? m breakInterning f i = some action) :
    SiteForm f i action := by
  cases i with
  | arrayStore elem =>
    simp only [Site.action?] at haction
    split at haction
    · exact Option.some.inj haction ▸ .arrayStore elem
    · exact absurd haction (by simp)
  | putField fd =>
    simp only [Site.action?] at haction
    split at haction
    · exact Option.some.inj haction ▸ .fieldStore fd
    · exact absurd haction (by simp)
  | invoke target =>
    simp only [Site.action?] at haction
    split at haction
    · rename_i hcopy
      split at haction
      · exact Option.some.inj haction ▸ .arrayCopy hcopy
      · exact absurd haction (by simp)
    · rename_i hcopy
      have hcopy' : Carrier.isArrayCopy target = false := by simpa using hcopy
      split at haction
      · rename_i hclone
        exact Option.some.inj haction ▸ .arrayClone hcopy' hclone
      · rename_i hclone
        split at haction
        · exact absurd haction (by simp)
        · obtain ⟨carried, hcarried, rfl⟩ := Option.map_eq_some_iff.mp haction
          exact .callArguments hcopy' (by simpa using hclone) hcarried
  | ret t =>
    simp only [Site.action?] at haction
    split at haction
    · rename_i hret
      rw [Bool.and_eq_true, decide_eq_true_eq] at hret
      exact Option.some.inj haction ▸ .returnValue hret.2
    · exact absurd haction (by simp)
  | concat args =>
    simp only [Site.action?] at haction
    split at haction
    · exact Option.some.inj haction ▸ .concat args
    · exact absurd haction (by simp)
  | ifRefEq target =>
    simp only [Site.action?] at haction
    split at haction
    · exact Option.some.inj haction ▸ .stringComparison true target
    · exact absurd haction (by simp)
  | ifRefNe target =>
    simp only [Site.action?] at haction
    split at haction
    · exact Option.some.inj haction ▸ .stringComparison false target
    · exact absurd haction (by simp)
  | const v =>
    cases v with
    | str text =>
      simp only [Site.action?] at haction
      split at haction
      · exact Option.some.inj haction ▸ .stringLiteral text
      · exact absurd haction (by simp)
    | _ => simp [Site.action?] at haction
  | _ => simp [Site.action?] at haction

theorem site_among {m : Method} {a : Analysis} {breakInterning : Bool} {s : Site} :
    ∀ {insns : List Insn} {start : Nat}, s ∈ Site.among m a breakInterning start insns →
    ∃ k i f, insns[k]? = some i ∧ s.insn = start + k ∧ a.frame? s.insn = some f ∧
      Site.action? m breakInterning f i = some s.action := by
  intro insns
  induction insns with
  | nil => intro start h; simp [Site.among] at h
  | cons i rest ih =>
    intro start h
    have hlater : s ∈ Site.among m a breakInterning (start + 1) rest →
        ∃ k j f, (i :: rest)[k]? = some j ∧ s.insn = start + k ∧ a.frame? s.insn = some f ∧
          Site.action? m breakInterning f j = some s.action := by
      intro h
      obtain ⟨k, j, f, hj, hk, hf, haction⟩ := ih h
      exact ⟨k + 1, j, f, by simpa using hj, by omega, hf, haction⟩
    unfold Site.among at h
    simp only at h
    split at h
    · exact hlater h
    · rename_i f hf
      split at h
      · exact hlater h
      · rename_i action haction
        rcases List.mem_cons.mp h with rfl | h
        · exact ⟨0, i, f, rfl, rfl, hf, haction⟩
        · exact hlater h

/-- **Every site that is found is one.** -/
theorem siteAt_of_find {m : Method} {a : Analysis} {breakInterning : Bool} {s : Site}
    (h : s ∈ Site.find m a breakInterning) : SiteAt m a breakInterning s := by
  obtain ⟨k, i, f, hi, hk, hf, haction⟩ := site_among h
  rw [Nat.zero_add] at hk
  exact ⟨i, f, hk ▸ hi, hf, haction⟩

/-- The arguments of a call that are recorded stand where they were pushed. -/
theorem recordedArguments_spec {f : Frame} {carried : List Bool} {n : Nat} {v : FlowValue}
    (h : (Site.recordedArguments f carried)[n]? = some (some v)) :
    v = f.top (carried.length - 1 - n) := by
  unfold Site.recordedArguments at h
  rw [List.getElem?_mapIdx] at h
  cases hn : carried[n]? with
  | none => simp [hn] at h
  | some marked =>
    simp only [hn, Option.map_some, Option.some.injEq] at h
    split at h
    · exact (Option.some.inj h).symm
    · exact absurd h (by simp)

theorem carriedArguments?_length {name : String} {desc : MethodDesc} {carried : List Bool}
    (h : Carrier.carriedArguments? name desc = some carried) :
    carried.length = desc.params.length := by
  unfold Carrier.carriedArguments? at h
  split at h
  · exact absurd h (by simp)
  · simp only at h
    split at h
    · rw [← Option.some.inj h, List.length_map]
    · exact absurd h (by simp)

/-! ## 4. Planning all sites -/

section Sites

variable {k : Nat} {f : Frame} {p q : Plan}

/-- An element that is stored goes through the hook, with its point. -/
theorem planArrayStore_steps (hc : c.analysis.Sound c.method) {elem : Ty}
    (hi : c.method.insns[k]? = some (.arrayStore elem)) (hf : c.analysis.frame? k = some f)
    (hall : ⟨k, .arrayStore elem (f.top 0)⟩ ∈ S)
    (h : Planning.Gives (planSite c ⟨k, .arrayStore elem (f.top 0)⟩) p () q) :
    Relation.ReflTransGen (SiteStep c S ⟨k, .arrayStore elem (f.top 0)⟩) p q := by
  simp only [planSite, Planning.gives_bind] at h
  obtain ⟨code, p₁, hcode, height, _, hbefore, _, _, hroom, hreplace⟩ := h
  rw [Planning.gives_stackBefore hbefore] at hroom
  obtain rfl := Planning.gives_requireStack hroom
  obtain rfl := Planning.gives_modify.mp hreplace
  obtain ⟨hpoint, hload⟩ := pointOrNull_steps hc (top_madeIn (hc.frames k f hf) 0) hcode
  have hroomy := hpoint.tail (.room [] p₁ (height + 1))
  exact .tail (.single (.points hroomy)) (.replaced hall rfl (.arrayStore hi hf hload))

/-- A field that is written gets its point first. -/
theorem planFieldStore_steps (hc : c.analysis.Sound c.method) {fd : FieldRef}
    (hi : c.method.insns[k]? = some (.putField fd)) (hf : c.analysis.frame? k = some f)
    (h : Planning.Gives (planSite c ⟨k, .fieldStore fd.key (f.top 0)⟩) p () q) :
    Relation.ReflTransGen (SiteStep c S ⟨k, .fieldStore fd.key (f.top 0)⟩) p q := by
  simp only [planSite, Planning.gives_bind] at h
  obtain ⟨code, p₁, hcode, height, _, hbefore, _, _, hroom, hinsert⟩ := h
  rw [Planning.gives_stackBefore hbefore] at hroom
  obtain rfl := Planning.gives_requireStack hroom
  obtain rfl := Planning.gives_modify.mp hinsert
  obtain ⟨hpoint, hload⟩ := pointOrNull_steps hc (top_madeIn (hc.frames k f hf) 0) hcode
  have hroomy := hpoint.tail (.room [] p₁ (height + 2))
  exact .tail (.single (.points hroomy)) (.field hi hf hload)

/-- The arguments of a call are noted in its record. -/
theorem planCallArguments_steps (hc : c.analysis.Sound c.method) {target : MethodRef}
    {carried : List Bool} (hcall : Recorded c k target) (hf : c.analysis.frame? k = some f)
    (hcarried : Carrier.carriedArguments? target.name target.desc = some carried)
    (h : Planning.Gives
      (planSite c ⟨k, .callArguments (Site.recordedArguments f carried)⟩) p () q) :
    Relation.ReflTransGen
      (SiteStep c S ⟨k, .callArguments (Site.recordedArguments f carried)⟩) p q := by
  simp only [planSite, Planning.gives_bind] at h
  obtain ⟨some?, p₁, hrecord, h⟩ := h
  have hlen := carriedArguments?_length hcarried
  have h₁ := recordArguments_steps (S := S)
    (s := ⟨k, .callArguments (Site.recordedArguments f carried)⟩) hc ⟨_, rfl⟩ hcall hf hrecord
    (by simp [Site.recordedArguments, hlen])
    fun n v hn => by rw [Nat.zero_add, ← hlen]; exact recordedArguments_spec hn
  split at h
  · obtain ⟨height, _, hbefore, hroom⟩ := Planning.gives_bind.mp h
    rw [Planning.gives_stackBefore hbefore] at hroom
    rw [Planning.gives_requireStack hroom]
    exact h₁.tail (.points (.single (.room [] p₁ _)))
  · obtain ⟨-, rfl⟩ := Planning.gives_pure.mp h
    exact h₁

/-- The result of the method is noted in its own record. -/
theorem planReturn_steps (hc : c.analysis.Sound c.method) {t : Ty} (ht : t ≠ .void)
    (hi : c.method.insns[k]? = some (.ret t)) (hf : c.analysis.frame? k = some f)
    (h : Planning.Gives (planSite c ⟨k, .returnValue (f.top 0)⟩) p () q) :
    Relation.ReflTransGen (SiteStep c S ⟨k, .returnValue (f.top 0)⟩) p q := by
  obtain ⟨followed, _, htrack, h⟩ := Planning.gives_bind.mp h
  obtain ⟨-, rfl⟩ := Planning.gives_isTrackable htrack
  have hasked : Steps c [] p [] _ := .single (.asked [] p (f.top 0))
  split at h
  · simp only [Planning.gives_bind] at h
    obtain ⟨_, p₁, hensure, l, p₂, hstarted, code, _, hcode, height, _, hbefore, _, _, hroom,
      hinsert⟩ := h
    obtain ⟨hload, rfl⟩ := Planning.gives_pointCode hcode
    rw [Planning.gives_stackBefore hbefore] at hroom
    obtain rfl := Planning.gives_requireStack hroom
    obtain rfl := Planning.gives_modify.mp hinsert
    have htracked := ensureTracked_steps hc (top_madeIn (hc.frames k f hf) 0) hensure
    obtain ⟨hstart, hown⟩ := ensureStarted_steps (c := c) (V := []) hstarted
    have hroomy := ((hasked.trans htracked).trans hstart).tail (.room [] p₂ (height + 2))
    exact .tail (.single (.points hroomy)) (.result hi ht hf hown hload)
  · obtain ⟨-, rfl⟩ := Planning.gives_pure.mp h
    exact .single (.points hasked)

/-- A concatenation goes through the hook if it has a character that can be followed. -/
theorem planConcat_steps (hc : c.analysis.Sound c.method) {args : List Ty}
    (hi : c.method.insns[k]? = some (.concat args)) (hf : c.analysis.frame? k = some f)
    (hall : ⟨k, .concat args ((List.range args.length).reverse.map f.top)⟩ ∈ S)
    (h : Planning.Gives
      (planSite c ⟨k, .concat args ((List.range args.length).reverse.map f.top)⟩) p () q) :
    Relation.ReflTransGen
      (SiteStep c S ⟨k, .concat args ((List.range args.length).reverse.map f.top)⟩) p q := by
  simp only [planSite, Planning.gives_bind] at h
  obtain ⟨⟨mask, loads⟩, p₁, hpoints, h⟩ := h
  have hmade : ∀ v ∈ (List.range args.length).reverse.map f.top, v.MadeIn c.method := by
    intro v hv
    obtain ⟨depth, -, rfl⟩ := List.mem_map.mp hv
    exact top_madeIn (hc.frames k f hf) depth
  obtain ⟨h₁, hmarked⟩ := concatPoints_steps hc hpoints (by simp) hmade
  simp only at h
  split at h
  · simp only [Planning.gives_bind] at h
    obtain ⟨height, _, hbefore, _, _, hroom, hreplace⟩ := h
    rw [Planning.gives_stackBefore hbefore] at hroom
    obtain rfl := Planning.gives_requireStack hroom
    obtain rfl := Planning.gives_modify.mp hreplace
    have hroom := Step.room (c := c) [] p₁ (height + mask.count 'T')
    exact .tail (.single (.points (h₁.tail hroom)))
      (.replaced hall rfl (.concat hi hf (hmarked.extend hroom.extends)))
  · obtain ⟨-, rfl⟩ := Planning.gives_pure.mp h
    exact .single (.points h₁)

/-- **One site**, whatever is stored there. -/
theorem planSite_planned (hc : c.analysis.Sound c.method) {breakInterning : Bool} {s : Site}
    (hs : SiteAt c.method c.analysis breakInterning s) (hall : s ∈ S)
    (h : Planning.Gives (planSite c s) p () q) : SitePlanned c S s p q := by
  obtain ⟨k, action⟩ := s
  obtain ⟨i, f, hi, hf, haction⟩ := hs
  have hreplaced {code : List Insn} (hkind : action.kind.replaces = true)
      (hpiece : ReplacedPiece c S p k code) (h : Planning.Gives (replaceWith k code) p () q) :
      SitePlanned c S ⟨k, action⟩ p q := by
    rw [Planning.gives_modify.mp h]
    exact .steps (.single (.replaced hall hkind hpiece))
  cases siteForm_of_action haction with
  | arrayStore elem => exact .steps (planArrayStore_steps hc hi hf hall h)
  | fieldStore fd => exact .steps (planFieldStore_steps hc hi hf h)
  | arrayCopy hcopy => exact hreplaced rfl (.arrayCopy hi hcopy) h
  | arrayClone hcopy hclone => exact hreplaced rfl (.arrayClone hi hcopy hclone) h
  | callArguments hcopy hclone hcarried =>
    exact .steps (planCallArguments_steps hc ⟨hi, hcopy, hclone⟩ hf hcarried h)
  | returnValue ht => exact .steps (planReturn_steps hc ht hi hf h)
  | concat args => exact .steps (planConcat_steps hc hi hf hall h)
  | stringComparison equal target => exact hreplaced rfl (.stringComparison hi hall) h
  | stringLiteral text =>
    simp only [planSite, Planning.gives_bind] at h
    obtain ⟨⟨classId, offset⟩, _, htrack, hinsert⟩ := h
    obtain ⟨pool, hplace, rfl⟩ := Planning.gives_trackString htrack
    rw [Planning.gives_modify.mp hinsert]
    exact .literal hall rfl hi hplace

end Sites

/-- What is planned at the start is nothing. -/
theorem start_sound (pool : LiteralPool) : (start c pool).Sound c S := by
  have hnone : ∀ u, (start c pool).localOf u = none := by
    intro u
    cases u <;> rfl
  refine ⟨by simp [start], by simp [start], by simp [start], by simp [start], ?_, ?_, ?_,
    by simp [start], Nat.le_refl _⟩
  · intro u l hl
    simp [hnone] at hl
  · intro u l hl
    simp [hnone] at hl
  · intro u u' l hl
    simp [hnone] at hl

/-- **What every site keeps** holds in the end.  The sites before one are those that were planned.
-/
theorem planSites_keeps (hc : c.analysis.Sound c.method) {breakInterning : Bool} {sites : List Site}
    (hsites : ∀ s ∈ sites, SiteAt c.method c.analysis breakInterning s ∧ s ∈ S)
    {P : List Site → Plan → Prop}
    (hkeeps : ∀ {done rest : List Site} {s : Site} {p q : Plan}, sites = done ++ s :: rest →
      SiteAt c.method c.analysis breakInterning s → p.Sound c S → Planning.Gives
      (planSite c s) p () q → SitePlanned c S s p q → P done p → P (done ++ [s]) q)
    {p q : Plan} (hp : p.Sound c S) (hstart : P [] p)
    (h : Planning.Gives (planSites c sites) p () q) :
    q.Sound c S ∧ P sites q := by
  have hfrom : ∀ (rest : List Site) {done : List Site} {p : Plan},
      sites = done ++ rest → p.Sound c S → P done p → Planning.Gives (planSites c rest) p () q →
      q.Sound c S ∧ P sites q := by
    intro rest
    induction rest with
    | nil =>
      intro done p hsplit hp hdone h
      obtain ⟨-, rfl⟩ := Planning.gives_pure.mp h
      rw [hsplit, List.append_nil]
      exact ⟨hp, hdone⟩
    | cons s rest ih =>
      intro done p hsplit hp hdone h
      obtain ⟨_, p₁, hs, hrest⟩ := Planning.gives_bind.mp h
      obtain ⟨hat, hall⟩ := hsites s (by simp [hsplit])
      have hplanned := planSite_planned hc hat hall hs
      exact ih (by simp [hsplit]) (hplanned.leads hp).1
        (hkeeps hsplit hat hp hs hplanned hdone) hrest
  exact hfrom sites rfl hp hstart h

/-- **What is planned for the sites of a method** is a sound plan in which the members of every
merge with a local are noted. -/
theorem planSites_sound (hc : c.analysis.Sound c.method) {breakInterning : Bool}
    {pool : LiteralPool} {p : Plan}
    (h : Planning.Gives (planSites c (Site.find c.method c.analysis breakInterning))
      (start c pool) () p) :
    p.Sound c (Site.find c.method c.analysis breakInterning) ∧
      ∀ slot l, p.localOf (.merge slot) = some l → Noted c p slot := by
  obtain ⟨hp, hnoted⟩ := planSites_keeps (P := fun _ p => AllNoted c [] p) hc
    (fun _ hs => ⟨siteAt_of_find hs, hs⟩) (fun _ _ hp _ hplanned => hplanned.allNoted hp)
    (start_sound pool) (fun slot l hl => by simp [start, localOf] at hl) h
  exact ⟨hp, fun slot l hl => (hnoted slot l hl).resolve_left (by simp)⟩

/-! ## 5. No site is passed over -/

theorem mem_among {m : Method} {a : Analysis} {breakInterning : Bool} {k : Nat}
    {i : Insn} {f : Frame} {action : SiteAction}
    (haction : Site.action? m breakInterning f i = some action) :
    ∀ {insns : List Insn} {start : Nat}, insns[k]? = some i → a.frame? (start + k) = some f →
      ⟨start + k, action⟩ ∈ Site.among m a breakInterning start insns := by
  induction k with
  | zero =>
    intro insns start hi hf
    cases insns with
    | nil => simp at hi
    | cons j rest =>
      obtain rfl : j = i := by simpa using hi
      rw [Nat.add_zero] at hf ⊢
      simp only [Site.among, hf, haction]
      exact List.mem_cons_self
  | succ k ih =>
    intro insns start hi hf
    cases insns with
    | nil => simp at hi
    | cons j rest =>
      have hsum : start + (k + 1) = start + 1 + k := by omega
      rw [hsum] at hf ⊢
      have hi' : rest[k]? = some i := by simpa using hi
      have hlater := ih hi' hf
      unfold Site.among
      simp only
      split
      · exact hlater
      · split
        · exact hlater
        · exact List.mem_cons_of_mem _ hlater

/-- **Every site is found.** -/
theorem mem_find {m : Method} {a : Analysis} {breakInterning : Bool} {k : Nat}
    {i : Insn} {f : Frame} {action : SiteAction} (hi : m.insns[k]? = some i)
    (hf : a.frame? k = some f) (haction : Site.action? m breakInterning f i = some action) :
    ⟨k, action⟩ ∈ Site.find m a breakInterning := by
  have hf' : a.frame? (0 + k) = some f := by rwa [Nat.zero_add]
  have h := mem_among haction hi hf'
  rwa [Nat.zero_add] at h

/-- Every clone of an array that is among the sites is replaced. -/
theorem planSites_clones (hc : c.analysis.Sound c.method) {breakInterning : Bool} {k : Nat}
    {sites : List Site} {p q : Plan}
    (hsites : ∀ s ∈ sites, SiteAt c.method c.analysis breakInterning s ∧ s ∈ S)
    (h : Planning.Gives (planSites c sites) p () q) (hp : p.Sound c S)
    (hk : ⟨k, .arrayClone⟩ ∈ sites) :
    (k, [.hook .arrayClone]) ∈ q.replaced := by
  refine (planSites_keeps (P := fun done p => ⟨k, .arrayClone⟩ ∈ done →
    (k, [.hook .arrayClone]) ∈ p.replaced) hc hsites (fun _ _ hp hs hplanned hdone hk => ?_) hp
    (by simp) h).2 hk
  rcases List.mem_append.mp hk with hk | hk
  · exact (hplanned.leads hp).2.replaced _ (hdone hk)
  · obtain rfl := List.mem_singleton.mp hk
    rw [Planning.gives_modify.mp hs]
    exact List.mem_cons_self

end Plan

end Provenance
