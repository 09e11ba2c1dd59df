/-
# Weaving never fails once a method is analysed

With an analysis at hand, and calls that are made as their names say, planning goes well for
whatever sites and values (`Plan.planned_gives`), and the woven method needs no more depth than it
declares, as long as the depth can be declared at all.  So weaving a method gives a result
(`Weaver.weaveMethod_succeeds`), and the check at its end never objects.
-/
import Provenance.Proofs.Fitting
import Provenance.Proofs.Weaving

namespace Provenance

/-! ## 1. Values that an analysis found -/

/-- A value that an analysis found: one of a frame, or a member of a merge. -/
inductive Analysis.Finds (a : Analysis) (v : FlowValue) : Prop where
  | inLocal {k : Nat} {f : Frame} (hf : a.frame? k = some f) (hv : v ∈ f.locals)
  | onStack {k : Nat} {f : Frame} (hf : a.frame? k = some f) (hv : v ∈ f.stack)
  | member {slot : MergeSlot} (hv : v ∈ a.merges.members slot)

variable {c : PlanContext} {S : List Site} {late : Nat → Prop} {v : FlowValue}

theorem Analysis.Finds.madeIn (hv : c.analysis.Finds v) (hc : c.Regular) : v.MadeIn c.method := by
  cases hv with
  | inLocal hf hv => exact (hc.sound.frames _ _ hf).locals v hv
  | onStack hf hv => exact (hc.sound.frames _ _ hf).stack v hv
  | member hv => exact hc.sound.members _ v hv

theorem Analysis.Finds.knows (hv : c.analysis.Finds v) (hc : c.Regular) : c.analysis.Knows v := by
  cases hv with
  | inLocal hf hv => exact (hc.grounded.frames _ _ hf).locals v hv
  | onStack hf hv => exact (hc.grounded.frames _ _ hf).stack v hv
  | member hv => exact hc.grounded.members _ v hv

namespace Plan

/-- **Values one after the other**: each gets code for its point, and keeps it. -/
theorem ensureAll_gives (hc : c.Regular) : ∀ {vs : List FlowValue} {p : Plan},
    (∀ v ∈ vs, c.analysis.Finds v) → p.Sound c S → p.Ready c late →
    ∃ q, Planning.Gives (forEach (ensureTracked c) vs) p () q ∧ q.Sound c S ∧ p.Extends q ∧
      ∀ v ∈ vs, ∃ code, q.loadPoint v = .ok code := by
  intro vs
  induction vs with
  | nil => exact fun _ hp _ => ⟨_, Planning.gives_pure.mpr ⟨rfl, rfl⟩, hp, .refl _, by simp⟩
  | cons v vs ih =>
    intro p hvs hp h
    obtain ⟨hv, hrest⟩ := List.forall_mem_cons.mp hvs
    obtain ⟨p₁, code, htrack, h₁, hload⟩ :=
      ensureTracked_gives (S := S) hc (hv.madeIn hc) (hv.knows hc) hp h
    obtain ⟨hp₁, hext₁⟩ := (ensureTracked_steps hc.sound (hv.madeIn hc) htrack).leads hp
    obtain ⟨q, hq, hsound, hext, hall⟩ := ih hrest hp₁ h₁
    exact ⟨q, Planning.gives_bind.mpr ⟨(), p₁, htrack, hq⟩, hsound, hext₁.trans hext,
      List.forall_mem_cons.mpr ⟨⟨code, hext.loadPoint hload⟩, hall⟩⟩

end Plan

/-! ## 2. One method -/

namespace Weaver

variable {w : Weaver} {breakInterning : Bool} {pool : LiteralPool} {m : Method} {a : Analysis}

/-- What weaving needs beside an analysis. -/
theorem regular_of_analysed
    (ha : Analysis.ofMethod w.settings.order w.settings.maxIterations m = .ok a)
    (hcalls : ∀ target, .invoke target ∈ m.insns → target.Regular) : PlanContext.Regular ⟨m, a⟩ :=
  ⟨Analysis.ofMethod_sound ha, Analysis.ofMethod_grounded ha, hcalls⟩

/-- **Planning goes well** for whatever sites of the method. -/
theorem exists_plan (breakInterning : Bool) (hc : PlanContext.Regular ⟨m, a⟩) (hpool : pool.Usable)
    {sites : List Site}
    (hsites : ∀ s ∈ sites, s ∈ Site.find m a breakInterning) :
    ∃ p, Planning.Gives (Plan.planSites ⟨m, a⟩ sites) (Plan.start ⟨m, a⟩ pool) () p ∧
      p.Sound ⟨m, a⟩ (Site.find m a breakInterning) ∧ p.Ready ⟨m, a⟩ fun _ => False := by
  have hall : ∀ s ∈ sites, Plan.SiteAt m a breakInterning s ∧ s ∈ Site.find m a breakInterning :=
    fun s hs => ⟨Plan.siteAt_of_find (hsites s hs), hsites s hs⟩
  have hstart := Plan.start_sound (c := ⟨m, a⟩) (S := Site.find m a breakInterning) pool
  obtain ⟨p, hp, hready⟩ := Plan.planSites_gives hc hall hstart (Plan.start_ready hpool)
  obtain ⟨hsound, -⟩ := Plan.planSites_keeps (P := fun _ _ => True) hc.sound hall
    (fun _ _ _ _ _ _ => trivial) hstart trivial hp
  exact ⟨p, hp, hsound, hready⟩

/-- A woven method with no more locals than can be declared that declares no less than it needs
passes the check. -/
theorem checkDepth_of_required {required : Nat} (hlocals : m.maxLocals ≤ localLimit)
    (h : requiredStack m = .ok required) (hle : required ≤ m.maxStack) : checkDepth m = .ok m := by
  unfold checkDepth
  simp only [if_neg (Nat.not_lt_of_le hlocals), h, if_neg (Nat.not_lt_of_le hle)]

/-- **Weaving never fails once a method is analysed.**  Let the calls of a method be made as their
names say, and let the depth and the locals that its plan comes to be no more than can be declared.
Then weaving the method gives a result; the method that comes out, if it was changed, needs no more
depth than it declares; and whatever sites are planned for and whichever values are followed beyond
that, in whatever number and order, every one of the values has code for its point. -/
theorem weaveMethod_succeeds
    (ha : Analysis.ofMethod w.settings.order w.settings.maxIterations m = .ok a)
    (hcalls : ∀ target, .invoke target ∈ m.insns → target.Regular) (hpool : pool.Usable)
    (hlimits : ∀ p, w.Plans breakInterning pool m a p →
      p.maxStack ≤ Plan.depthLimit ∧ p.nextLocal ≤ localLimit) :
    (∃ result pool', w.weaveMethod breakInterning pool m = (.ok result, pool') ∧ pool'.Usable ∧
      ∀ m' kinds, result = some (m', kinds) →
        ∃ required, requiredStack m' = .ok required ∧ required ≤ m'.maxStack) ∧
    ∀ (sites : List Site) (vs : List FlowValue),
      (∀ s ∈ sites, s ∈ Site.find m a breakInterning) → (∀ v ∈ vs, a.Finds v) →
      ∃ p q, Planning.Gives (Plan.planSites ⟨m, a⟩ sites) (Plan.start ⟨m, a⟩ pool) () p ∧
        Planning.Gives (Plan.forEach (Plan.ensureTracked ⟨m, a⟩) vs) p () q ∧
        ∀ v ∈ vs, ∃ code, q.loadPoint v = .ok code := by
  have hc := regular_of_analysed ha hcalls
  refine ⟨?_, fun sites vs hsites hvs => ?_⟩
  · obtain ⟨p, hp, hsound, hready⟩ := exists_plan breakInterning hc hpool fun _ hs => hs
    obtain ⟨required, hrequired, hle⟩ :=
      Plan.requiredStack_woven hc hsound hready (hlimits p ⟨ha, hp⟩).1
    unfold weaveMethod
    simp only [ha]
    by_cases hempty : (Site.find m a breakInterning).isEmpty
    · exact ⟨none, pool, by rw [if_pos hempty], hpool, fun _ _ h => nomatch h⟩
    · rw [if_neg hempty, show (Plan.planSites ⟨m, a⟩ _).run.run _ = _ from hp]
      simp only [checkDepth_of_required (m := p.woven m) (hlimits p ⟨ha, hp⟩).2 hrequired hle]
      by_cases hedits : p.hasEdits
      · refine ⟨_, p.pool, by rw [if_pos hedits], hready.pool, fun m' kinds h => ?_⟩
        obtain ⟨rfl, -⟩ := Prod.mk.inj (Option.some.inj h)
        exact ⟨required, hrequired, hle⟩
      · exact ⟨none, p.pool, by rw [if_neg hedits], hready.pool, fun _ _ h => nomatch h⟩
  · obtain ⟨p, hp, hsound, hready⟩ := exists_plan breakInterning hc hpool hsites
    obtain ⟨q, hq, -, -, hload⟩ := Plan.ensureAll_gives hc hvs hsound hready
    exact ⟨p, q, hp, hq, hload⟩

/-- Stores a character in which a merge and a literal meet; the merge is one of an element and
another literal.  It goes on with the calls that are known by name. -/
def nestedMerges : Method :=
  ⟨"demo/A", "run", ⟨[.array .char, .array .char, .int], .void⟩, true, 4, 0,
    [.load 2, .ifZero .eq 0, .load 0, .const (.int 0), .arrayLoad .char, .store 3, .goto 1,
      .label 0, .nop, .nop, .const (.int 65), .store 3,
      .label 1, .load 2, .ifZero .ge 2, .const (.int 66), .store 3,
      .label 2, .load 1, .const (.int 0), .load 3, .arrayStore .char,
      .load 0, .const (.int 0), .load 1, .const (.int 1), .const (.int 1),
      .invoke ⟨.static, "java/lang/System", "arraycopy",
        ⟨[.object "java/lang/Object", .int, .object "java/lang/Object", .int, .int], .void⟩⟩,
      .const (.str "ab"), .load 2,
      .invoke ⟨.virtual, "java/lang/String", "charAt", ⟨[.int], .char⟩⟩,
      .invoke ⟨.static, "demo/Out", "write", ⟨[.char], .void⟩⟩,
      .load 1, .invoke ⟨.virtual, "[C", "clone", ⟨[], .object "java/lang/Object"⟩⟩,
      .pop, .ret .void]⟩

theorem nestedMerges_calls : ∀ target, .invoke target ∈ nestedMerges.insns → target.Regular := by
  simp only [nestedMerges, List.mem_cons, reduceCtorEq, false_or, or_false, Insn.invoke.injEq,
    List.not_mem_nil]
  rintro target (rfl | rfl | rfl | rfl)
  · exact ⟨⟨by decide, by decide, by decide⟩, Carrier.arrayCopyDescriptor, by rfl⟩
  · exact ⟨⟨by decide, by decide, by decide⟩, "(I)C", by rfl⟩
  · exact ⟨⟨by decide, by decide, by decide⟩, "(C)V", by rfl⟩
  · exact ⟨⟨by decide, by decide, by decide⟩, "()Ljava/lang/Object;", by rfl⟩

/-- The depth and the locals to which a plan comes, whether planning goes well or not. -/
def plannedLimits? (w : Weaver) (breakInterning : Bool) (pool : LiteralPool) (m : Method) :
    Option (Nat × Nat) :=
  (Analysis.ofMethod w.settings.order w.settings.maxIterations m).toOption.map fun a =>
    let p := ((Plan.planSites ⟨m, a⟩ (Site.find m a breakInterning)).run.run
      (Plan.start ⟨m, a⟩ pool)).2
    (p.maxStack, p.nextLocal)

theorem Plans.plannedLimits {p : Plan} (h : w.Plans breakInterning pool m a p) :
    w.plannedLimits? breakInterning pool m = some (p.maxStack, p.nextLocal) := by
  unfold plannedLimits?
  rw [h.analysed]
  exact congrArg (fun r => some (r.2.maxStack, r.2.nextLocal)) h.planned

/-- Weaving changes the method, and the character that it stores gets code for its point. -/
theorem nestedMerges_succeeds :
    ∃ a f m' kinds pool' required p q code,
      Analysis.ofMethod .fifo 100 nestedMerges = .ok a ∧ a.frame? 21 = some f ∧
      everywhere.weaveMethod false (.ofClass (.empty .default) "demo/A") nestedMerges =
        (.ok (some (m', kinds)), pool') ∧
      requiredStack m' = .ok required ∧ required ≤ m'.maxStack ∧
      Planning.Gives (Plan.planSites ⟨nestedMerges, a⟩ (Site.find nestedMerges a false))
        (Plan.start ⟨nestedMerges, a⟩ (.ofClass (.empty .default) "demo/A")) () p ∧
      Planning.Gives (Plan.forEach (Plan.ensureTracked ⟨nestedMerges, a⟩) [f.top 0]) p () q ∧
      q.loadPoint (f.top 0) = .ok code := by
  have hframe : ((Analysis.ofMethod .fifo 100 nestedMerges).toOption.bind fun a =>
      (a.frame? 21).bind fun f => f.stack.head?).isSome = true := by decide +kernel
  obtain ⟨v, hv⟩ := Option.isSome_iff_exists.mp hframe
  obtain ⟨a, ha, hv⟩ := Option.bind_eq_some_iff.mp hv
  obtain ⟨f, hf, hv⟩ := Option.bind_eq_some_iff.mp hv
  have hanalysed : Analysis.ofMethod .fifo 100 nestedMerges = .ok a := by
    cases h : Analysis.ofMethod .fifo 100 nestedMerges with
    | error e => simp [h, Except.toOption] at ha
    | ok a' =>
      rw [h] at ha
      exact congrArg Except.ok (Option.some.inj ha)
  have hlimits : ∀ p, everywhere.Plans false (.ofClass (.empty .default) "demo/A")
        nestedMerges a p →
      p.maxStack ≤ Plan.depthLimit ∧ p.nextLocal ≤ localLimit := by
    intro p hp
    have hplanned : everywhere.plannedLimits? false (.ofClass (.empty .default) "demo/A")
        nestedMerges = some (5, 8) := by decide +kernel
    obtain ⟨hstack, hlocals⟩ := Prod.mk.inj (Option.some.inj (hp.plannedLimits.symm.trans hplanned))
    exact ⟨hstack ▸ by decide, hlocals ▸ by decide⟩
  obtain ⟨⟨result, pool', hweave, -, hresult⟩, htracked⟩ :=
    weaveMethod_succeeds (w := everywhere) hanalysed nestedMerges_calls
      (LiteralPool.ofClass_usable (.empty .default) "demo/A") hlimits
  have hchanged : (everywhere.weaveMethod false (.ofClass (.empty .default) "demo/A")
      nestedMerges).1.toOption.join.isSome = true := by decide +kernel
  rw [hweave] at hchanged
  obtain ⟨⟨m', kinds⟩, rfl⟩ := Option.isSome_iff_exists.mp (show result.isSome = true from hchanged)
  obtain ⟨required, hrequired, hle⟩ := hresult m' kinds rfl
  have htop : f.top 0 ∈ f.stack := by
    have hhead : f.stack[0]? = some v := List.head?_eq_getElem? ▸ hv
    simp only [Frame.top, Frame.peek?, hhead, Option.getD_some]
    exact List.mem_of_getElem? hhead
  obtain ⟨p, q, hp, hq, hload⟩ := htracked (Site.find nestedMerges a false) [f.top 0]
    (fun _ hs => hs) fun v hv => List.mem_singleton.mp hv ▸ .onStack hf htop
  obtain ⟨code, hcode⟩ := hload (f.top 0) (by simp)
  exact ⟨a, f, m', kinds, pool', required, p, q, code, hanalysed, hf, hweave,
    hrequired, hle, hp, hq, hcode⟩

/-- A call that takes three of five operands, one of them of a class whose name spells two classes,
so that its descriptor reads like the one of the bulk copy. -/
def spelledAlike : Method :=
  ⟨"demo/A", "run", ⟨[.array .char, .array .char], .void⟩, true, 2, 0,
    [.load 0, .const (.int 0), .load 1, .const (.int 0), .const (.int 1),
      .invoke ⟨.static, Carrier.systemClass, "arraycopy",
        ⟨[.object "java/lang/Object;ILjava/lang/Object", .int, .int], .void⟩⟩,
      .pop, .pop, .ret .void]⟩

/-- A weaver that gives an analysis a single step. -/
def hasty : Weaver :=
  { everywhere with settings := { everywhere.settings with maxIterations := 1 } }

/-- **Weaving fails on a method that was analysed** if it takes a call for the bulk copy that only
reads like it, or if it gives up its own analysis before that one came to an end. -/
theorem weaveMethod_fails :
    (Analysis.ofMethod .fifo 100 spelledAlike).isOk = true ∧
    (∀ target, .invoke target ∈ spelledAlike.insns → target.MadeAsNamed) ∧
    everywhere.plannedLimits? false (.ofClass (.empty .default) "demo/A") spelledAlike =
      some (5, 2) ∧
    (everywhere.weaveMethod false (.ofClass (.empty .default) "demo/A") spelledAlike).1 =
      .error (.stackUnderflow 6) ∧
    (Analysis.ofMethod .fifo Analysis.defaultLimit nestedMerges).isOk = true ∧
    (∀ target, .invoke target ∈ nestedMerges.insns → target.MadeAsNamed) ∧
    everywhere.plannedLimits? false (.ofClass (.empty .default) "demo/A") nestedMerges =
      some (5, 8) ∧
    (hasty.weaveMethod false (.ofClass (.empty .default) "demo/A") nestedMerges).1 =
      .error (.noConvergence 1) := by
  have hspelled : ∀ target, .invoke target ∈ spelledAlike.insns → target.MadeAsNamed := by
    simp only [spelledAlike, List.mem_cons, reduceCtorEq, false_or, or_false, Insn.invoke.injEq,
      List.not_mem_nil]
    rintro target rfl
    exact ⟨by decide, by decide, by decide⟩
  have hmerges : ∀ target, .invoke target ∈ nestedMerges.insns → target.MadeAsNamed :=
    fun target h => (nestedMerges_calls target h).toMadeAsNamed
  exact ⟨by decide +kernel, hspelled, by decide +kernel, by decide +kernel, by decide +kernel,
    hmerges, by decide +kernel, by decide +kernel⟩

end Weaver

end Provenance
