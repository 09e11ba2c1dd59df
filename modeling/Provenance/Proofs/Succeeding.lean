/-
# Planning the sites of a method

Whatever is stored at a site, planning its code goes well from a ready plan and leads to a ready one
(`Plan.planSite_gives`), and so it does for any number of sites, one after the other and as often
as one likes.  Every site declares the depth that its own code needs; that of a call declares room
for the record and for one point, once for all arguments.
-/
import Provenance.Proofs.Providing

namespace Provenance

namespace Plan

variable {c : PlanContext} {S : List Site} {late : Nat → Prop} {p q : Plan} {k : Nat} {f : Frame}

/-! ## 1. Arguments that are late -/

namespace Ready

theorem later {late' : Nat → Prop} (h : p.Ready c late) (hlate : ∀ k, late k → late' k) :
    p.Ready c late' :=
  { h with arguments := fun e he => (h.arguments e he).imp_left (hlate _) }

/-- The arguments of a call are no longer late once there is room. -/
theorem settle (h : p.Ready c fun j => late j ∨ j = k) (hroom : RoomAt c p.maxStack k 2) :
    p.Ready c late where
  __ := h
  arguments e he := by
    rcases h.arguments e he with (hl | rfl) | hr
    · exact .inl hl
    · exact .inr hroom
    · exact .inr hr

theorem addArgument (h : p.Ready c late) {e : Nat × Nat × List Insn} (he : late e.1) :
    Ready c late { p with arguments := p.arguments ++ [e] } where
  __ := h
  arguments e' he' := by
    rcases List.mem_append.mp he' with he' | he'
    · exact h.arguments e' he'
    · exact .inl (List.mem_singleton.mp he' ▸ he)

end Ready

/-- Every operand leads to instructions that are reached, also one that is missing. -/
theorem top_knows (hc : c.Regular) (hf : c.analysis.frame? k = some f) (depth : Nat) :
    c.analysis.Knows (f.top depth) := by
  unfold Frame.top Frame.peek?
  cases hd : f.stack[depth]? with
  | none => exact fun j hj => absurd hj List.not_mem_nil
  | some v => exact (hc.grounded.frames k f hf).stack v (List.mem_of_getElem? hd)

/-- **The arguments of a call**: all that are followed are added, and are late from then on. -/
theorem recordArguments_gives (hc : c.Regular) {target : MethodRef} (hcall : Recorded c k target)
    (hf : c.analysis.frame? k = some f) : ∀ (args : List (Option FlowValue)) (arg : Nat) {p : Plan},
    arg + args.length = target.desc.params.length →
    (∀ n v, args[n]? = some (some v) → v = f.top (target.desc.params.length - 1 - (arg + n))) →
    p.Sound c S → p.Ready c late →
    ∃ q any, Planning.Gives (recordArguments c k arg args) p any q ∧
      q.Ready c fun j => late j ∨ (any = true ∧ j = k) := by
  intro args
  induction args generalizing late with
  | nil =>
    intro arg p _ _ _ h
    exact ⟨p, false, Planning.gives_pure.mpr ⟨rfl, rfl⟩, h.later fun _ => .inl⟩
  | cons v? rest ih =>
    intro arg p hlen hargs hp h
    have hlen' : arg + 1 + rest.length = target.desc.params.length := by
      simp only [List.length_cons] at hlen
      omega
    have hrest : ∀ n v, rest[n]? = some (some v) →
        v = f.top (target.desc.params.length - 1 - (arg + 1 + n)) := by
      intro n v hn
      have := hargs (n + 1) v (by simpa using hn)
      rwa [show arg + (n + 1) = arg + 1 + n by omega] at this
    cases v? with
    | none => exact ih _ hlen' hrest hp h
    | some v =>
      have hv : v = f.top (target.desc.params.length - 1 - arg) := hargs 0 v rfl
      obtain ⟨followed, memo, hfollowed, h₁, -⟩ := isTrackable_gives h v
      have hp₁ := (leads_memo p memo hp).1
      cases followed with
      | false =>
        obtain ⟨q, any, hq, hready⟩ := ih _ hlen' hrest hp₁ h₁
        exact ⟨q, any, Planning.gives_bind.mpr ⟨false, _, hfollowed, hq⟩, hready⟩
      | true =>
        have hmade : v.MadeIn c.method := hv ▸ top_madeIn (hc.sound.frames k f hf) _
        obtain ⟨p₂, code, htrack, h₂, hload⟩ :=
          ensureTracked_gives (S := S) hc hmade (hv ▸ top_knows hc hf _) hp₁ h₁
        have hp₂ := ((ensureTracked_steps hc.sound hmade htrack).leads hp₁).1
        have hpiece : ArgumentPiece c p₂ k arg code :=
          ⟨target, f, hcall, by simp only [List.length_cons] at hlen; omega, hf, hv ▸ hload⟩
        have hadd : Planning.Gives (addArgument k arg code) p₂ ()
            { p₂ with arguments := p₂.arguments ++ [(k, arg, code)] } :=
              Planning.gives_modify.mpr rfl
        have hlate : p₂.Ready c fun j => late j ∨ j = k := h₂.later fun _ => .inl
        have h₃ := hlate.addArgument (e := (k, arg, code)) (.inr rfl)
        obtain ⟨q, any, hq, hready⟩ := ih _ hlen' hrest (leads_addArgument hadd hpiece hp₂).1 h₃
        refine ⟨q, true, ?_, hready.later fun j hj => ?_⟩
        · refine Planning.gives_bind.mpr ⟨true, _, hfollowed, ?_⟩
          refine Planning.gives_bind.mpr ⟨(), p₂, htrack, ?_⟩
          refine Planning.gives_bind.mpr ⟨code, p₂, pointCode_gives hload, ?_⟩
          refine Planning.gives_bind.mpr ⟨(), _, hadd, ?_⟩
          exact Planning.gives_bind.mpr ⟨any, q, hq, Planning.gives_pure.mpr ⟨rfl, rfl⟩⟩
        · rcases hj with (hj | hj) | ⟨-, hj⟩
          · exact .inl hj
          · exact .inr ⟨rfl, hj⟩
          · exact .inr ⟨rfl, hj⟩

/-! ## 2. Operands of a concatenation -/

/-- The points of the marked operands end up on the stack. -/
theorem Marked.straight {depth : Nat} {ts : List Ty} {vs : List FlowValue} {mask : List Char}
    {loads : List Insn} (hm : p.Marked ts vs mask loads) (hp : p.Sound c S) : ∀ {h : Nat},
    h + mask.count 'T' ≤ depth → Straight p.nextLocal depth h loads (h + mask.count 'T') := by
  induction hm with
  | done => exact fun _ => rfl
  | marked hcode _ ih =>
    intro h hd
    rw [List.count_cons_self, ← Nat.add_assoc] at hd ⊢
    refine ((loading_of_loadPoint hcode).straight hp (by omega)).append ?_
    rw [Nat.add_right_comm] at hd ⊢
    exact ih hd
  | unmarked _ ih =>
    intro h hd
    rw [List.count_cons_of_ne (by decide)] at hd ⊢
    exact ih hd

/-- One operand is marked or not, and the others follow. -/
theorem concatPoints_eq (t : Ty) (ts : List Ty) (v : FlowValue) (vs : List FlowValue) :
    concatPoints c (t :: ts) (v :: vs) =
      (if t = .char then isTrackable c v else pure false) >>= fun marked =>
        if marked = true then (do
          ensureTracked c v
          let code ← pointCode v
          let (mask, loads) ← concatPoints c ts vs
          pure ('T' :: mask, code ++ loads))
        else (do
          let (mask, loads) ← concatPoints c ts vs
          pure ('.' :: mask, loads)) := by
  by_cases ht : t = .char <;> simp only [concatPoints, ht, if_true, if_false]

theorem concatPoints_gives (hc : c.Regular) : ∀ (ts : List Ty) {vs : List FlowValue} {p : Plan},
    (∀ v ∈ vs, v.MadeIn c.method ∧ c.analysis.Knows v) → p.Sound c S → p.Ready c late →
    ∃ q r, Planning.Gives (concatPoints c ts vs) p r q ∧ q.Ready c late
  | [], _, p, _, _, h =>
    ⟨p, ([], []), by unfold concatPoints; exact Planning.gives_pure.mpr ⟨rfl, rfl⟩, h⟩
  | _ :: _, [], p, _, _, h => ⟨p, ([], []), Planning.gives_pure.mpr ⟨rfl, rfl⟩, h⟩
  | t :: ts, v :: vs, p, hall, hp, h => by
    obtain ⟨⟨hmade, hknows⟩, hrest⟩ := List.forall_mem_cons.mp hall
    -- whether the operand is marked
    have hmark : ∃ marked memo, Planning.Gives (if t = .char then isTrackable c v else pure false) p
        marked { p with memo } ∧ Ready c late { p with memo } := by
      split
      · obtain ⟨followed, memo, hfollowed, h₁, -⟩ := isTrackable_gives h v
        exact ⟨followed, memo, hfollowed, h₁⟩
      · exact ⟨false, p.memo, Planning.gives_pure.mpr ⟨rfl, rfl⟩, h⟩
    obtain ⟨marked, memo, hmarked, h₁⟩ := hmark
    have hp₁ := (leads_memo p memo hp).1
    rw [concatPoints_eq]
    cases marked with
    | false =>
      obtain ⟨q, r, hq, hready⟩ := concatPoints_gives hc ts hrest hp₁ h₁
      exact ⟨q, ('.' :: r.1, r.2), Planning.gives_bind.mpr ⟨false, _, hmarked,
        Planning.gives_bind.mpr ⟨r, q, hq, Planning.gives_pure.mpr ⟨rfl, rfl⟩⟩⟩, hready⟩
    | true =>
      obtain ⟨p₂, code, htrack, h₂, hload⟩ :=
        ensureTracked_gives (S := S) hc hmade hknows hp₁ h₁
      have hp₂ := ((ensureTracked_steps hc.sound hmade htrack).leads hp₁).1
      obtain ⟨q, r, hq, hready⟩ := concatPoints_gives hc ts hrest hp₂ h₂
      refine ⟨q, ('T' :: r.1, code ++ r.2), Planning.gives_bind.mpr ⟨true, _, hmarked, ?_⟩, hready⟩
      refine Planning.gives_bind.mpr ⟨(), p₂, htrack, ?_⟩
      refine Planning.gives_bind.mpr ⟨code, p₂, pointCode_gives hload, ?_⟩
      exact Planning.gives_bind.mpr ⟨r, q, hq, Planning.gives_pure.mpr ⟨rfl, rfl⟩⟩

/-! ## 3. Instructions that give way to a hook -/

theorem Ready.stays (h : p.Ready c late) (hc : c.Regular) (hp : p.Sound c S) {i : Insn}
    (hi : c.method.insns[k]? = some i) (hf : c.analysis.frame? k = some f) :
    i.Stays p.nextLocal p.maxStack f.stack.length :=
  (hc.stays hi hf).mono hp.room h.depth

/-- A hook that takes what an instruction takes, and points that were pushed above it. -/
theorem replaces_hook {slots depth h n : Nat} {i : Insn} {code : List Insn} {hook : Hook}
    (hi : i.Stays slots depth h) (hfall : i.fallsThrough = true) (hjump : i.jumpTarget? = none)
    (hpops : hook.effect.1 = i.pops + n) (hpushes : hook.effect.2 = i.pushes)
    (hroom : h + n ≤ depth) (hcode : Straight slots depth h code (h + n)) :
    Replaces slots depth i h (code ++ [.hook hook]) := by
  have hoperands := hi.operands
  have hafter := hi.after
  have hpops' : (Insn.hook hook).pops = i.pops + n := hpops
  have hpushes' : (Insn.hook hook).pushes = i.pushes := hpushes
  have hsame : h + n - (i.pops + n) + i.pushes = h - i.pops + i.pushes := by omega
  refine ⟨code, .hook hook, h + n, rfl, hcode, ⟨by simp [Insn.local?], ?_, hroom, ?_⟩,
    hfall.symm, hjump.symm, ?_⟩
  · omega
  · omega
  · omega

/-! ## 4. One site -/

section Sites

variable (hc : c.Regular) (hp : p.Sound c S) (h : p.Ready c late)
    (hf : c.analysis.frame? k = some f)
include hc hp h hf

theorem planArrayStore_gives {elem : Ty} (hi : c.method.insns[k]? = some (.arrayStore elem)) :
    ∃ q, Planning.Gives (planSite c ⟨k, .arrayStore elem (f.top 0)⟩) p () q ∧ q.Ready c late := by
  have hmade := top_madeIn (hc.sound.frames k f hf) 0
  obtain ⟨p₁, code, hcode, h₁⟩ := pointOrNull_gives (S := S) hc hmade (top_knows hc hf 0) hp h
  obtain ⟨hsteps, hpoint⟩ := pointOrNull_steps hc.sound hmade hcode
  have hp₁ := (hsteps.leads hp).1
  have h₂ := h₁.raise (f.stack.length + 1)
  have hroom : f.stack.length + 1 ≤ max p₁.maxStack (f.stack.length + 1) := Nat.le_max_right _ _
  have hstraight := (loading_of_pointCode hpoint).straight hp₁ hroom
  have hstays :=
    (h₁.stays hc hp₁ hi hf).mono (Nat.le_refl _) (Nat.le_max_left _ (f.stack.length + 1))
  refine ⟨_, ?_, h₂.replace (e := (k, code ++ [.hook (.arrayStoreWithPoint elem)])) ⟨_, f, hi, hf,
    replaces_hook hstays rfl rfl rfl rfl hroom hstraight⟩⟩
  refine Planning.gives_bind.mpr ⟨code, p₁, hcode, ?_⟩
  refine Planning.gives_bind.mpr ⟨_, p₁, stackBefore_gives hf p₁, ?_⟩
  exact Planning.gives_bind.mpr ⟨_, _, requireStack_gives _ p₁, rfl⟩

theorem planFieldStore_gives {fd : FieldRef} (hi : c.method.insns[k]? = some (.putField fd)) :
    ∃ q, Planning.Gives (planSite c ⟨k, .fieldStore fd.key (f.top 0)⟩) p () q ∧ q.Ready c late := by
  have hmade := top_madeIn (hc.sound.frames k f hf) 0
  obtain ⟨p₁, code, hcode, h₁⟩ := pointOrNull_gives (S := S) hc hmade (top_knows hc hf 0) hp h
  obtain ⟨hsteps, hpoint⟩ := pointOrNull_steps hc.sound hmade hcode
  have hp₁ := (hsteps.leads hp).1
  have h₂ := h₁.raise (f.stack.length + 2)
  have hroom : f.stack.length + 2 ≤ max p₁.maxStack (f.stack.length + 2) := Nat.le_max_right _ _
  have hstraight := (loading_of_pointCode hpoint).straight (h := f.stack.length + 1) hp₁ hroom
  refine ⟨_, ?_, h₂.addBefore (e := (k, [.dup2, .pop] ++ code ++ [.hook (.setFieldPoint fd.key)]))
    ⟨f, hf, straight_fieldStore (hc.pops_le hi hf) hroom hstraight⟩⟩
  refine Planning.gives_bind.mpr ⟨code, p₁, hcode, ?_⟩
  refine Planning.gives_bind.mpr ⟨_, p₁, stackBefore_gives hf p₁, ?_⟩
  exact Planning.gives_bind.mpr ⟨_, _, requireStack_gives _ p₁, rfl⟩

theorem planCallArguments_gives {target : MethodRef} {carried : List Bool}
    (hcall : Recorded c k target)
    (hcarried : Carrier.carriedArguments? target.name target.desc = some carried) :
    ∃ q, Planning.Gives (planSite c ⟨k, .callArguments (Site.recordedArguments f carried)⟩) p () q ∧
      q.Ready c late := by
  have hlen := carriedArguments?_length hcarried
  obtain ⟨p₁, any, hrecord, h₁⟩ := recordArguments_gives (S := S) hc hcall hf
    (Site.recordedArguments f carried) 0 (by simp [Site.recordedArguments, hlen])
    (fun n v hn => by rw [Nat.zero_add, ← hlen]; exact recordedArguments_spec hn) hp h
  cases any with
  | false =>
    exact ⟨p₁, Planning.gives_bind.mpr ⟨false, p₁, hrecord, Planning.gives_pure.mpr ⟨rfl, rfl⟩⟩,
      h₁.later fun j hj => hj.resolve_right (by simp)⟩
  | true =>
    have hlate : p₁.Ready c fun j => late j ∨ j = k := h₁.later fun _ => .imp_right And.right
    have h₂ := hlate.raise (f.stack.length + 2)
    refine ⟨_, ?_, h₂.settle ⟨f, hf, Nat.le_max_right _ _⟩⟩
    refine Planning.gives_bind.mpr ⟨true, p₁, hrecord, ?_⟩
    exact Planning.gives_bind.mpr ⟨_, p₁, stackBefore_gives hf p₁, rfl⟩

theorem planReturn_gives :
    ∃ q, Planning.Gives (planSite c ⟨k, .returnValue (f.top 0)⟩) p () q ∧ q.Ready c late := by
  have hmade := top_madeIn (hc.sound.frames k f hf) 0
  obtain ⟨followed, memo, hfollowed, h₁, -⟩ := isTrackable_gives h (f.top 0)
  have hp₁ := (leads_memo p memo hp).1
  cases followed with
  | false =>
    exact ⟨_, Planning.gives_bind.mpr ⟨false, _, hfollowed, Planning.gives_pure.mpr ⟨rfl, rfl⟩⟩, h₁⟩
  | true =>
    obtain ⟨p₂, code, htrack, h₂, hload⟩ :=
      ensureTracked_gives (S := S) hc hmade (top_knows hc hf 0) hp₁ h₁
    have hp₂ := ((ensureTracked_steps hc.sound hmade htrack).leads hp₁).1
    obtain ⟨l, p₃, hstart, h₃⟩ := ensureStarted_gives h₂
    obtain ⟨hstarted, hown⟩ := ensureStarted_steps (c := c) (V := []) hstart
    obtain ⟨hp₃, hext⟩ := hstarted.leads hp₂
    have hload₃ := hext.loadPoint hload
    have h₄ := h₃.raise (f.stack.length + 2)
    have hroom : f.stack.length + 2 ≤ max p₃.maxStack (f.stack.length + 2) := Nat.le_max_right _ _
    have hstraight := (loading_of_loadPoint hload₃).straight (h := f.stack.length + 1) hp₃ hroom
    refine ⟨_, ?_, h₄.addBefore (e := (k, .load l :: code ++ [.hook .invocationReturning]))
      ⟨f, hf, straight_returning (hp₃.above .own l hown).2 hroom hstraight⟩⟩
    refine Planning.gives_bind.mpr ⟨true, _, hfollowed, ?_⟩
    refine Planning.gives_bind.mpr ⟨(), p₂, htrack, ?_⟩
    refine Planning.gives_bind.mpr ⟨l, p₃, hstart, ?_⟩
    refine Planning.gives_bind.mpr ⟨code, p₃, pointCode_gives hload₃, ?_⟩
    refine Planning.gives_bind.mpr ⟨_, p₃, stackBefore_gives hf p₃, ?_⟩
    exact Planning.gives_bind.mpr ⟨_, _, requireStack_gives _ p₃, rfl⟩

theorem planConcat_gives {args : List Ty} (hi : c.method.insns[k]? = some (.concat args)) :
    ∃ q, Planning.Gives
      (planSite c ⟨k, .concat args ((List.range args.length).reverse.map f.top)⟩) p () q ∧
      q.Ready c late := by
  have hall : ∀ v ∈ (List.range args.length).reverse.map f.top,
      v.MadeIn c.method ∧ c.analysis.Knows v := by
    intro v hv
    obtain ⟨depth, -, rfl⟩ := List.mem_map.mp hv
    exact ⟨top_madeIn (hc.sound.frames k f hf) depth, top_knows hc hf depth⟩
  obtain ⟨p₁, ⟨mask, loads⟩, hpoints, h₁⟩ := concatPoints_gives (S := S) hc args hall hp h
  obtain ⟨hsteps, hmarked⟩ := concatPoints_steps hc.sound hpoints (by simp)
    fun v hv => (hall v hv).1
  have hp₁ := (hsteps.leads hp).1
  by_cases hmask : 0 < mask.count 'T'
  · have h₂ := h₁.raise (f.stack.length + mask.count 'T')
    have hroom : f.stack.length + mask.count 'T' ≤
        max p₁.maxStack (f.stack.length + mask.count 'T') := Nat.le_max_right _ _
    have hstays := (h₁.stays hc hp₁ hi hf).mono (Nat.le_refl _)
      (Nat.le_max_left _ (f.stack.length + mask.count 'T'))
    have hpops : (Hook.concatWithPoints args (String.ofList mask)).effect.1 =
        (Insn.concat args).pops + mask.count 'T' := by
      simp [Hook.effect, Insn.pops, Insn.effect, markedCount]
    refine ⟨_, ?_, h₂.replace
      (e := (k, loads ++ [.hook (.concatWithPoints args (String.ofList mask))])) ⟨_, f, hi, hf,
        replaces_hook hstays rfl rfl hpops rfl hroom (hmarked.straight hp₁ hroom)⟩⟩
    refine Planning.gives_bind.mpr ⟨(mask, loads), p₁, hpoints, ?_⟩
    simp only [if_pos hmask]
    refine Planning.gives_bind.mpr ⟨_, p₁, stackBefore_gives hf p₁, ?_⟩
    exact Planning.gives_bind.mpr ⟨_, _, requireStack_gives _ p₁, rfl⟩
  · refine ⟨p₁, Planning.gives_bind.mpr ⟨(mask, loads), p₁, hpoints, ?_⟩, h₁⟩
    simp only [if_neg hmask]
    exact Planning.gives_pure.mpr ⟨rfl, rfl⟩

theorem planStringComparison_gives {equal : Bool} {target : Nat}
    (hi : c.method.insns[k]? = some (if equal then .ifRefEq target else .ifRefNe target)) :
    ∃ q, Planning.Gives (planSite c ⟨k, .stringComparison equal target⟩) p () q ∧
      q.Ready c late := by
  have hstays := h.stays hc hp hi hf
  have hroom := hstays.before
  -- both comparisons take two operands and jump to the same label
  have hpops : 2 ≤ f.stack.length := by cases equal <;> exact hstays.operands
  refine ⟨_, Planning.gives_modify.mpr rfl, h.replace (e := (k, _)) ⟨_, f, hi, hf,
    [.hook .stringEquals], _, f.stack.length - 1, rfl, ?_, ⟨?_, ?_, ?_, ?_⟩, ?_, ?_, ?_⟩⟩
  · simp [straight_cons, Insn.fallsThrough, Insn.jumpTarget?, Insn.local?, Insn.effect, Hook.effect]
    omega
  · simp [Insn.local?]
  · simp [Insn.pops, Insn.effect]
    omega
  · omega
  · simp [Insn.pops, Insn.pushes, Insn.effect]
    omega
  · cases equal <;> rfl
  · cases equal <;> rfl
  · cases equal <;> simp [Insn.pops, Insn.pushes, Insn.effect] <;> omega

theorem planStringLiteral_gives {text : String}
    (hi : c.method.insns[k]? = some (.const (.str text))) :
    ∃ q, Planning.Gives (planSite c ⟨k, .stringLiteral text⟩) p () q ∧ q.Ready c late := by
  obtain ⟨place, pool, hpool, husable⟩ := LiteralPool.string_isOk h.pool c.method text
  have htrack : Planning.Gives (trackString c text) p place { p with pool } := by
    refine Planning.gives_read.mpr ?_
    rw [hpool]
    rfl
  have h₁ : Ready c late { p with pool } := { h with pool := husable }
  have hafter := (h.stays hc hp hi hf).after
  refine ⟨_, Planning.gives_bind.mpr ⟨place, _, htrack, Planning.gives_modify.mpr rfl⟩,
    h₁.addAfter (e := (k, [.hook (.constantString place.1 place.2)])) ⟨_, f, hi, hf, ?_⟩⟩
  simp [straight_cons, Insn.fallsThrough, Insn.jumpTarget?, Insn.local?, Insn.effect, Insn.pops,
    Insn.pushes, Hook.effect] at hafter ⊢
  exact hafter

theorem planArrayCopy_gives {target : MethodRef} (hi : c.method.insns[k]? = some (.invoke target))
    (hcopy : Carrier.isArrayCopy target = true) :
    ∃ q, Planning.Gives (planSite c ⟨k, .arrayCopy⟩) p () q ∧ q.Ready c late := by
  have hstays := h.stays hc hp hi hf
  obtain ⟨hcount, hret⟩ := (hc.calls target (List.mem_of_getElem? hi)).arrayCopy_effect hcopy
  have hpushes : Hook.arrayCopy.effect.2 = (Insn.invoke target).pushes := by
    simp [hret, Insn.pushes, Insn.effect, Hook.effect]
  have hreplaces : Replaces p.nextLocal p.maxStack (.invoke target) f.stack.length
      ([] ++ [.hook .arrayCopy]) :=
    replaces_hook (n := 0) hstays rfl rfl hcount.symm hpushes hstays.before rfl
  exact ⟨_, Planning.gives_modify.mpr rfl, h.replace (e := (k, _)) ⟨_, f, hi, hf, hreplaces⟩⟩

theorem planArrayClone_gives {target : MethodRef} (hi : c.method.insns[k]? = some (.invoke target))
    (hclone : (Carrier.clonedArray? target).isSome) :
    ∃ q, Planning.Gives (planSite c ⟨k, .arrayClone⟩) p () q ∧ q.Ready c late := by
  have hstays := h.stays hc hp hi hf
  have hregular := hc.calls target (List.mem_of_getElem? hi)
  have hcount := hregular.clone_operandCount hclone
  obtain ⟨-, hret⟩ := hregular.clone hclone
  have hpushes : Hook.arrayClone.effect.2 = (Insn.invoke target).pushes := by
    simp [hret, Insn.pushes, Insn.effect, Hook.effect]
  have hreplaces : Replaces p.nextLocal p.maxStack (.invoke target) f.stack.length
      ([] ++ [.hook .arrayClone]) :=
    replaces_hook (n := 0) hstays rfl rfl hcount.symm hpushes hstays.before rfl
  exact ⟨_, Planning.gives_modify.mpr rfl, h.replace (e := (k, _)) ⟨_, f, hi, hf, hreplaces⟩⟩

end Sites

/-- **One site**, whatever is stored there. -/
theorem planSite_gives (hc : c.Regular) {breakInterning : Bool} {s : Site}
    (hs : SiteAt c.method c.analysis breakInterning s) (hp : p.Sound c S) (h : p.Ready c late) :
    ∃ q, Planning.Gives (planSite c s) p () q ∧ q.Ready c late := by
  obtain ⟨k, action⟩ := s
  obtain ⟨i, f, hi, hf, haction⟩ := hs
  cases siteForm_of_action haction with
  | arrayStore elem => exact planArrayStore_gives hc hp h hf hi
  | fieldStore fd => exact planFieldStore_gives hc hp h hf hi
  | arrayCopy hcopy => exact planArrayCopy_gives hc hp h hf hi hcopy
  | arrayClone _ hclone => exact planArrayClone_gives hc hp h hf hi hclone
  | callArguments hcopy hclone hcarried =>
    exact planCallArguments_gives hc hp h hf ⟨hi, hcopy, hclone⟩ hcarried
  | returnValue _ => exact planReturn_gives hc hp h hf
  | concat args => exact planConcat_gives hc hp h hf hi
  | stringComparison equal target => exact planStringComparison_gives hc hp h hf hi
  | stringLiteral text => exact planStringLiteral_gives hc hp h hf hi

/-! ## 5. All sites -/

/-- **The plan with which a method begins** is ready. -/
theorem start_ready {pool : LiteralPool} (hpool : pool.Usable) : (start c pool).Ready c late where
  pool := hpool
  memo slot h := by simp [start] at h
  depth := Nat.le_max_right _ _
  before := by simp [start]
  after := by simp [start]
  replaced := by simp [start]
  arguments := by simp [start]
  kept := by simp [start]
  own h := by simp [start] at h

/-- **Any sites**, one after the other. -/
theorem planSites_gives (hc : c.Regular) {breakInterning : Bool} : ∀ {sites : List Site} {p : Plan},
    (∀ s ∈ sites, SiteAt c.method c.analysis breakInterning s ∧ s ∈ S) → p.Sound c S →
    p.Ready c late → ∃ q, Planning.Gives (planSites c sites) p () q ∧ q.Ready c late := by
  intro sites
  induction sites with
  | nil => exact fun _ _ h => ⟨_, Planning.gives_pure.mpr ⟨rfl, rfl⟩, h⟩
  | cons s ss ih =>
    intro p hsites hp h
    obtain ⟨⟨hat, hall⟩, hrest⟩ := List.forall_mem_cons.mp hsites
    obtain ⟨p₁, hs, h₁⟩ := planSite_gives hc hat hp h
    have hp₁ := ((planSite_planned hc.sound hat hall hs).leads hp).1
    obtain ⟨q, hss, hready⟩ := ih hrest hp₁ h₁
    exact ⟨q, Planning.gives_bind.mpr ⟨(), p₁, hs, hss⟩, hready⟩

end Plan

end Provenance
