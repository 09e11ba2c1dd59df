/-
# A merge is given the point of its newest member

Block by block, the locals of a woven method show what belongs there: a block is entered with locals
that do, and hands such locals to every block that may follow (`Woven.renews_block`).  So in every
run, whatever point is stored for values that meet is null or that of the newest member
(`Weaver.weaveMethod_storesNewest`).

That is the point of the value that is stored only if this value is the newest member.  An older
member that was put aside while a newer one was made is given the point of the newer one
(`delayLine_storesNewest`).
-/
import Provenance.Proofs.Attributing
import Provenance.Proofs.Renewing

namespace Provenance

open Happening (latest?)

namespace Woven

variable {v : Woven} {Q : Account → Prop} {g g' : Account} {evs : List Happening} {u : LocalUse}
  {o : Origin} {b : Bool} {code rest : List Insn} {k l : Nat} {i : Insn} {f : Frame}
  {waits : Option LocalUse} {e : Execution} {es : List Execution} {edits : List (Nat × List Insn)}

/-! ## 1. The instruction and what stands in its place -/

/-- What does not touch the locals of weaving. -/
theorem Pending.keeps (h : v.Pending waits evs e es [] g) (hhere : g'.origins.here = g.origins.here)
    (hbegun : g'.begun = g.begun) (hlocals : ∀ u l, v.plan.localOf u = some l →
      g'.origins.locals l = g.origins.locals l ∧ g'.nulls.locals l = g.nulls.locals l) :
    v.Pending waits evs e es [] g' where
  settled := h.settled
  here := hhere.trans h.here
  begun := hbegun.trans h.begun
  shows u l hu hl hwrites := by
    obtain ⟨horigin, hnull⟩ := hlocals u l hl
    rw [horigin, hnull]
    exact h.shows u l hu hl hwrites

/-- What is shown stays right when an instruction is done that makes no member of a merge. -/
theorem shows_did (h : v.Shows evs u o b) (hmakes : ∀ s, u = .merge s →
    ∀ w ∈ v.context.analysis.merges.members s, ¬(Happening.did e).Brings w) :
    v.Shows (.did e :: evs) u o b := by
  refine h.imp_right fun hu => ?_
  cases u with
  | merge s =>
    obtain ⟨d, e, hn, ho⟩ := hu
    exact ⟨d, e, .stays (hmakes s rfl) hn, ho⟩
  | _ => exact hu

/-- A method whose pieces are in order, and where jumps make no members. -/
structure Renewable (v : Woven) : Prop where
  before : Plan.Settled v.plan.before
  after : Plan.Settled v.plan.after
  /-- Every local but that of the method's own record is null at the start. -/
  nulls : ∀ u l, v.plan.localOf u = some l → u ≠ .own → l ∈ v.plan.nullLocals
  straight : ∀ slot, ∀ w ∈ v.context.analysis.merges.members slot, w.Straight v.method

/-- **On the way to the block that a jump leads to**, all locals show what belongs there. -/
theorem Renewable.jump (hv : v.Renewable) (hi : v.method.insns[e.insn]? = some i)
    (hf : v.frame? e.insn = some f) (h : v.Pending none (Happening.now (e :: es)) e es [] g)
    (hl : i.jumpTarget? = some l) (ht : v.method.labelAt? l = some k) : v.Ready k g := by
  refine ⟨hasFrame_jump hi hf hl ht, fun u j hj => ?_⟩
  rw [h.begun]
  refine shows_did (h.shows u j (by simp) hj (by simp)) fun s _ w hw hbrings => ?_
  cases hbrings with
  | made hmerged hcreated =>
    exact nomatch hl.symm.trans (hv.straight s w hw hmerged _ i hcreated hi)

/-- The points of marked operands are pushed one after the other. -/
theorem renews_marked {ts : List Ty} {ws : List FlowValue} {mask : List Char} {loads : List Insn}
    (points : Nat) (hm : v.plan.Marked ts ws mask loads)
    (hshows : ∀ slot l, v.plan.localOf (.merge slot) = some l →
      v.Shows evs (.merge slot) (g.origins.locals l) (g.nulls.locals l)) :
    ws = (List.range mask.length).reverse.map f.top → ∀ ps : List (Origin × Bool),
    (∀ qs : List (Origin × Bool), qs.length = mask.count 'T' →
      (∀ s ∈ Storing.marked points mask, ∀ t slot, (f.top s.operand).base = .merged t slot →
        ∀ below below', Nulls.onto (qs.map Prod.snd) below s.point = true ∨
          ∃ d e, v.context.analysis.merges.Newest evs slot d e ∧
            v.plan.PointOf d e (Origins.onto (qs.map Prod.fst) below' s.point)) →
      v.Renews Q rest (g.pushAll (qs ++ ps))) → v.Renews Q (loads ++ rest) (g.pushAll ps) := by
  have hnext : ∀ {w : FlowValue} {ws : List FlowValue} {mark : Char} {mask : List Char},
      w :: ws = (List.range (mark :: mask).length).reverse.map f.top →
      w = f.top mask.length ∧ ws = (List.range mask.length).reverse.map f.top := by
    intro w ws mark mask h
    rw [List.length_cons, List.range_succ, List.reverse_append] at h
    exact List.cons.inj h
  induction hm with
  | done => exact fun _ ps hrest => hrest [] rfl fun s hs => nomatch hs
  | @marked w ts ws mask code loads hcode _ ih =>
    intro hall ps hrest
    obtain ⟨rfl, hws⟩ := hnext hall
    rw [List.append_assoc]
    refine renews_stored evs (.inl hcode)
      (fun t slot l _ hl _ => hshows slot l hl) fun o b hnewest => ?_
    refine ih hws ((o, b) :: ps) fun qs hqs hstored => ?_
    have hgoal := hrest (qs ++ [(o, b)]) (by simp [hqs]) fun s hs t slot hb below below' => ?_
    · rwa [List.append_assoc] at hgoal
    · rw [List.map_append, List.map_append, Nulls.onto_append, Origins.onto_append]
      rcases List.mem_cons.mp hs with rfl | hs
      · have horigin := Origins.onto_add (qs.map Prod.fst) (Origins.onto [o] below') 0
        have hnull := Nulls.onto_add (qs.map Prod.snd) (Nulls.onto [b] below) 0
        rw [List.length_map, hqs, Nat.zero_add] at horigin hnull
        rw [List.map_singleton, List.map_singleton, horigin, hnull]
        exact hnewest t slot hb
      · exact hstored s hs t slot hb _ _
  | @unmarked t w ts ws mask loads _ ih =>
    intro hws ps hrest
    exact ih (hnext hws).2 ps hrest

/-- **The code in the place of an instruction.** -/
theorem renews_replaced (hv : v.Renewable) (hi : v.method.insns[e.insn]? = some i)
    (hf : v.frame? e.insn = some f) (h : v.Pending none (Happening.now (e :: es)) e es [] g)
    (hpiece : Plan.ReplacedPiece v.context v.sites v.plan e.insn code)
    (hrest : i.fallsThrough = true → ∀ g', v.Pending none (Happening.now (e :: es)) e es [] g' →
      v.Renews Q rest g') : v.Renews Q (code ++ rest) g := by
  have hinsn {j : Insn} (hj : v.method.insns[e.insn]? = some j) : i = j :=
    Option.some.inj (hi.symm.trans hj)
  have hi' : v.method.insns[g.origins.here.insn]? = some i := h.here.symm ▸ hi
  have hf' : v.frame? g.origins.here.insn = some f := h.here.symm ▸ hf
  have hshows (slot : MergeSlot) (l : Nat) (hl : v.plan.localOf (.merge slot) = some l) :
      v.Shows (Happening.now (e :: es)) (.merge slot) (g.origins.locals l) (g.nulls.locals l) :=
    h.shows _ l (by simp) hl (by simp)
  cases hpiece with
  | @arrayStore f'' elem code hj hf'' hcode =>
    obtain rfl := hinsn hj
    obtain rfl := Option.some.inj (hf.symm.trans hf'')
    rw [List.append_assoc]
    refine renews_stored (Happening.now (e :: es)) hcode (fun t slot l _ hl _ => hshows slot l hl)
      fun o b hnewest => ?_
    refine renews_hook hi' hf' (fun s hs t slot hb => ?_)
      (hrest rfl _ (h.keeps rfl rfl fun _ _ _ => ⟨rfl, rfl⟩))
    obtain rfl := List.mem_singleton.mp hs
    exact h.begun ▸ hnewest t slot hb
  | @concat f'' args mask loads hj hf'' hmarked =>
    obtain rfl := hinsn hj
    obtain rfl := Option.some.inj (hf.symm.trans hf'')
    rw [List.append_assoc]
    refine renews_marked (mask.count 'T') hmarked hshows (by rw [mask_length hmarked]) []
      fun qs hqs hstored => ?_
    rw [List.append_nil]
    refine renews_hook hi' hf' (fun s hs t slot hb => ?_)
      (hrest rfl _ (h.keeps rfl rfl fun _ _ _ => ⟨rfl, rfl⟩))
    have hmask : (String.ofList mask).toList = mask := String.toList_ofList
    simp only [Insn.stores, markedCount, hmask] at hs
    exact h.begun ▸ hstored s hs t slot hb _ _
  | @stringComparison equal target hj hsite =>
    obtain rfl := hinsn hj
    have hfalls : (if equal then Insn.ifRefEq target else .ifRefNe target).fallsThrough = true := by
      cases equal <;> rfl
    have hjump : (if equal then Insn.ifRefEq target else .ifRefNe target).jumpTarget? =
        some target := by
      cases equal <;> rfl
    have hnext : v.Pending none (Happening.now (e :: es)) e es []
        ((Noting.account v.method).after (.ifZero (if equal then .ne else .eq) target)
          ((Noting.account v.method).after (.hook .stringEquals) g)) :=
      h.keeps rfl rfl fun _ _ _ => ⟨rfl, rfl⟩
    refine renews_silent (fun _ => rfl) ⟨fun h hh => (by cases hh), fun l k hl hk => ?_,
      fun _ => hrest hfalls _ hnext⟩
    obtain rfl : target = l := Option.some.inj hl
    exact hv.jump hi hf hnext hjump hk
  | @arrayCopy target hj hcopy =>
    obtain rfl := hinsn hj
    exact renews_silent (fun _ => rfl) (hrest rfl _ (h.keeps rfl rfl fun _ _ _ => ⟨rfl, rfl⟩))
  | @arrayClone target hj hcopy hclone =>
    obtain rfl := hinsn hj
    exact renews_silent (fun _ => rfl) (hrest rfl _ (h.keeps rfl rfl fun _ _ _ => ⟨rfl, rfl⟩))

/-- **An instruction that stays what it was.** -/
theorem renews_insn (hv : v.Renewable) (hi : v.method.insns[e.insn]? = some i)
    (hf : v.frame? e.insn = some f) (h : v.Pending none (Happening.now (e :: es)) e es [] g)
    (hrest : i.fallsThrough = true → ∀ g', v.Pending none (Happening.now (e :: es)) e es [] g' →
      v.Renews Q rest g') : v.Renews Q (i :: rest) g := by
  obtain ⟨out, hout, -⟩ := v.analysed.edges _ i f hi hf
  have hafter : v.Pending none (Happening.now (e :: es)) e es []
      ((Noting.account v.method).after i g) := by
    refine h.keeps rfl rfl fun u l hl => ?_
    cases i with
    | store j =>
      have hj := Frame.after_local hout rfl
      rw [v.analysed.locals _ f hf] at hj
      have hjl : l ≠ j := Nat.ne_of_gt (Nat.lt_of_lt_of_le hj (v.planned.above u l hl).1)
      exact ⟨if_neg hjl, if_neg hjl⟩
    | _ => exact ⟨rfl, rfl⟩
  refine ⟨fun h hh => ?_, fun l k hl hk => hv.jump hi hf hafter hl hk,
    fun hfalls => hrest hfalls _ hafter⟩
  rw [hh] at hout
  cases hout

theorem renews_inPlace (hv : v.Renewable) (hi : v.method.insns[e.insn]? = some i)
    (hf : v.frame? e.insn = some f) (h : v.Pending none (Happening.now (e :: es)) e es [] g)
    (hrest : i.fallsThrough = true → ∀ g', v.Pending none (Happening.now (e :: es)) e es [] g' →
      v.Renews Q rest g') : v.Renews Q (v.plan.inPlace e.insn i ++ rest) g := by
  unfold Plan.inPlace
  cases hreplaced : v.plan.replaced.lookup e.insn with
  | some code =>
    exact renews_replaced hv hi hf h (v.planned.replaced _ (mem_of_lookup hreplaced)) hrest
  | none => exact renews_insn hv hi hf h hrest

/-! ## 2. Behind an instruction -/

/-- The instruction is done. -/
theorem Renewable.done (hv : v.Renewable) (h : v.Pending none (Happening.now (e :: es)) e es [] g) :
    v.Pending none (Happening.past (e :: es)) e es v.plan.after g where
  settled := hv.after
  here := h.here
  begun := h.begun
  shows u l hu hl hwrites := by
    refine shows_did (h.shows u l hu hl (by simp)) ?_
    -- a member that comes now is noted behind the instruction
    rintro s rfl w hw hbrings
    obtain ⟨l', hl', hstashed⟩ := v.noted s l hl
    obtain rfl := Option.some.inj (hl.symm.trans hl')
    cases hbrings with
    | made hmerged hcreated =>
      obtain ⟨code, -, ⟨t, inner, rfl, -⟩ | ⟨k, -, hk, hmem⟩⟩ := hstashed w hw
      · exact hmerged t inner rfl
      · obtain rfl := Option.some.inj (hcreated.symm.trans hk)
        exact hwrites _ hmem (by simp)

/-- **The code behind an instruction.** -/
theorem renews_afterPiece
    (hpiece : Plan.AfterPiece v.context v.sites v.plan e.insn code)
    (h : v.Pending none (Happening.past (e :: es)) e es ((e.insn, code) :: edits) g)
    (hrest : ∀ g', v.Pending none (Happening.past (e :: es)) e es edits g' → v.Renews Q rest g') :
    v.Renews Q (code ++ rest) g := by
  cases hpiece with
  | member hl hmember hmerged hk hcode =>
    exact renews_stash h hl hmember (.made hmerged hk) hcode (fun _ _ _ _ => by simp) hrest
  | literal =>
    exact renews_silent (fun _ => rfl)
      (hrest _ (h.idle (fun l hl => by simp at hl) rfl rfl rfl rfl))

theorem renews_behind (hv : v.Renewable) (h : v.Pending none (Happening.now (e :: es)) e es [] g)
    (hrest : ∀ g', v.Pending none (Happening.past (e :: es)) e es [] g' → v.Renews Q rest g') :
    v.Renews Q (v.plan.behind e.insn ++ rest) g :=
  renews_codeAt (Plan.AfterPiece v.context v.sites v.plan e.insn)
    (fun hpiece h hrest => renews_afterPiece hpiece h hrest)
    (fun x hx hk => hk ▸ v.planned.after x hx) (hv.done h) hrest

/-! ## 3. Blocks -/

/-- **A block is entered.** -/
theorem Renewable.entered (hv : v.Renewable) (h : v.Ready k g) :
    v.Pending (some (.record k)) (Happening.now (⟨k, g.origins.here.visit + 1⟩ :: g.begun))
      ⟨k, g.origins.here.visit + 1⟩ g.begun v.plan.before
        ((Noting.account v.method).enter k g) where
  settled := hv.before
  here := rfl
  begun := rfl
  shows u l hu hl hwrites := by
    refine (h.shows u l hl).imp_right fun hshows => ?_
    cases u with
    | point j =>
      obtain ⟨e, he, ho⟩ := hshows
      have hjk : k ≠ j := by
        rintro rfl
        rcases v.planned.served _ l hl with ⟨-, hmem⟩ | ⟨fd, -, hmem⟩ <;>
          exact hwrites _ hmem (by simp)
      exact ⟨e, (if_neg hjk).trans he, ho⟩
    | record j =>
      obtain ⟨e, he, ho⟩ := hshows
      have hjk : k ≠ j := by
        rintro rfl
        exact hu rfl
      exact ⟨e, (if_neg hjk).trans he, ho⟩
    | own => exact hshows
    | merge s =>
      obtain ⟨d, e, hn, ho⟩ := hshows
      refine ⟨d, e, .stays (fun w hw hbrings => ?_) hn, ho⟩
      -- a merge that comes now is noted in front of the instruction
      obtain ⟨l', hl', hstashed⟩ := v.noted s l hl
      obtain rfl := Option.some.inj (hl.symm.trans hl')
      cases hbrings with
      | @join _ t inner hinner =>
        obtain ⟨code, -, ⟨t', inner', hw', hmem⟩ | ⟨j, hmerged, -⟩⟩ := hstashed _ hw
        · obtain ⟨-, rfl⟩ := FlowValue.merged.inj hw'
          rw [hinner] at hmem
          exact hwrites _ hmem (by simp)
        · exact hmerged t inner rfl

/-- **A whole block** stores the points of the newest members, and hands over what belongs there. -/
theorem renews_block (hv : v.Renewable) (hi : v.method.insns[k]? = some i) (h : v.Ready k g) :
    v.Renews (v.Ready (k + 1)) (v.plan.block k i) ((Noting.account v.method).enter k g) := by
  obtain ⟨f, hf⟩ := h.reached i hi
  have hentered := hv.entered h
  generalize (Noting.account v.method).enter k g = g₀ at hentered
  obtain ⟨e, he⟩ : ∃ e : Execution, e = ⟨k, g.origins.here.visit + 1⟩ := ⟨_, rfl⟩
  rw [← he] at hentered
  obtain rfl : e.insn = k := congrArg Execution.insn he
  have hbehind (hfalls : i.fallsThrough = true) {g' : Account}
      (h' : v.Pending none (Happening.now (e :: g.begun)) e g.begun [] g') :
      v.Renews (v.Ready (e.insn + 1)) (v.plan.behind e.insn ++ []) g' := by
    refine renews_behind hv h' fun g'' h'' => ⟨hasFrame_next hi hf hfalls, fun u l hl => ?_⟩
    rw [h''.begun]
    exact h''.shows u l (by simp) hl (by simp)
  rw [← List.append_nil (v.plan.block e.insn i)]
  cases hlabel : i.label? with
  | none =>
    rw [Plan.block_other _ _ hlabel, List.append_assoc, List.append_assoc, Plan.ahead,
      List.append_assoc]
    refine renews_before hf hentered fun g₁ h₁ => renews_record hi hf h₁ fun g₂ h₂ => ?_
    exact renews_inPlace hv hi hf h₂ fun hfalls g₃ h₃ => hbehind hfalls h₃
  | some l =>
    obtain rfl : i = .label l := by
      cases i <;> simp [Insn.label?] at hlabel
      rw [hlabel]
    rw [Plan.block_label, List.cons_append, List.append_assoc, Plan.ahead, List.append_assoc]
    refine renews_silent rfl (renews_before hf (?_ : v.Pending _ _ _ g.begun _ _) fun g₁ h₁ =>
      renews_record hi hf h₁ fun g₂ h₂ => hbehind rfl h₂)
    exact ⟨hentered.settled, hentered.here, hentered.begun, hentered.shows⟩

/-! ## 4. The start of a method -/

/-- Locals that become null are null. -/
theorem renews_nulls : ∀ {nulls : List Nat} {g : Account} (known : Nat → Prop), g.begun = [] →
    (∀ l, known l → g.nulls.locals l = true) →
    (∀ g', g'.begun = [] → (∀ l, known l ∨ l ∈ nulls → g'.nulls.locals l = true) →
      v.Renews Q rest g') →
    v.Renews Q ((nulls.flatMap fun l => [.const .null, .store l]) ++ rest) g := by
  intro nulls
  induction nulls with
  | nil => exact fun _ hbegun h hrest => hrest _ hbegun fun l hl => h l (by simpa using hl)
  | cons l nulls ih =>
    intro g known hbegun h hrest
    refine renews_silent rfl (renews_silent rfl (ih (fun j => known j ∨ j = l) hbegun
      (fun j hj => ?_) fun g' hbegun' h' => hrest g' hbegun' fun j hj => h' j ?_))
    · show (if j = l then true else g.nulls.locals j) = true
      split
      · rfl
      · rename_i hjl
        exact h j (hj.resolve_right hjl)
    · simpa [or_assoc] using hj

/-- **The prologue** leads to locals that are null, or show the method's own record. -/
theorem renews_prologue (hv : v.Renewable) :
    v.Renews (v.Ready 0) (v.plan.prologue v.method) (Noting.account v.method).start := by
  refine renews_nulls (fun _ => False) rfl (fun _ h => h.elim) fun g hbegun hnulls => ?_
  have hnull {u : LocalUse} {l : Nat} (hl : v.plan.localOf u = some l) (hu : u ≠ .own) :
      g.nulls.locals l = true := hnulls l (.inr (hv.nulls u l hl hu))
  cases hown : v.plan.ownRecord with
  | none =>
    refine ⟨v.hasFrame_zero, fun u l hl => .inl (hnull hl ?_)⟩
    rintro rfl
    exact nomatch hown.symm.trans hl
  | some j =>
    refine renews_silent (fun _ => rfl) (renews_silent rfl ⟨v.hasFrame_zero, fun u l hl => ?_⟩)
    by_cases hu : u = .own
    · subst hu
      obtain rfl := Option.some.inj (hown.symm.trans hl)
      exact .inr (if_pos rfl)
    · have hjl : l ≠ j := by
        rintro rfl
        exact hu (v.planned.apart u .own l hl hown)
      exact .inl ((if_neg hjl).trans (hnull hl hu))

/-- **A woven method stores the points of the newest members.** -/
theorem upholds_newest (hv : v.Renewable) : v.Upholds (.account v.method) v.newest where
  prologue := renews_prologue hv
  block hi h := renews_block hv hi h
  entered _ _ := rfl
  inside h := h

end Woven

/-! ## 5. Methods that are woven -/

variable {w : Weaver} {breakInterning : Bool} {pool : LiteralPool} {m : Method}
    {a : Analysis} {p : Plan}

/-- What is woven can be gone through in this way. -/
theorem Weaver.Plans.renewable (h : w.Plans breakInterning pool m a p) : h.woven.Renewable where
  before := h.orderly.before
  after := h.orderly.after
  nulls u l hl hu := by
    obtain ⟨done, htidy⟩ := h.tidy
    obtain ⟨hroom, hlt⟩ := h.woven.planned.above u l hl
    refine (htidy.locals l hroom hlt).resolve_right fun hown => hu ?_
    exact h.woven.planned.apart u .own l hl hown
  straight := Analysis.ofMethod_straight h.analysed

/-- What an account says of a hook, the run bears out. -/
theorem Account.StoresNewest.borne {g : Account} {stack : List Value} {h : Hook}
    (hstores : g.StoresNewest p m a h)
    (hnull : ∀ n, g.nulls.stack n = true → stack[n]? = some .null) :
    p.StoresNewest m a g.toTrail stack h := by
  intro i f hi hf s hs t slot hb
  refine (hstores i f hi hf s hs t slot hb).imp (hnull s.point) ?_
  rintro ⟨d, e, hn, ho⟩
  exact ⟨d, e, hn, ho, ho.exact hn⟩

/-- **Values that meet are given the point of the newest of them.**  In every run of a woven method,
whatever point is stored for a value that the analysis describes by a merge is null, or it is that
of the member of the merge that came last, and exact if the value is this member.  In the code that
was made of an instruction, the execution under way is one of that instruction. -/
theorem Weaver.weaveMethod_storesNewest {pool' : LiteralPool} {m' : Method} {kinds : List SiteKind}
    (hweave : w.weaveMethod breakInterning pool m = (.ok (some (m', kinds)), pool')) :
    ∃ a p, w.Plans breakInterning pool m a p ∧ p.woven m = m' ∧
      ∀ (program : Program) (limits : MachineSettings) (s : RunState) (g : Trail) (gs : List Trail),
        (p.notes m (.trail m)).Traced program limits s (g :: gs) →
        s.current.routine = .ofMethod m' → ∀ h, m'.insns[s.current.pc]? = some (.hook h) →
        p.StoresNewest m a (p.noteAt m (.trail m) s.current.pc g) s.current.stack h ∧
        ∀ k, p.startOf m k ≤ s.current.pc → s.current.pc < p.startOf m (k + 1) →
          (p.noteAt m (.trail m) s.current.pc g).origins.here.insn = k := by
  obtain ⟨a, p, hplans, rfl, -⟩ := weaveMethod_plans hweave
  refine ⟨a, p, hplans, rfl, fun program limits s g gs htraced hroutine h hi => ?_⟩
  -- beside the trail it can be noted what is null
  have htrail := Noting.account_trail m
  obtain ⟨accounts, hsame, haccount⟩ := htrail.notes.traced htraced
  obtain ⟨account, accounts, rfl, rfl, -⟩ := List.map_eq_cons_iff.mp hsame
  have hnull := Nulls.traced ((p.account_nulls m).blurred haccount)
  obtain ⟨hsees, hinside⟩ := (Woven.upholds_newest hplans.renewable).traced haccount hroutine hi
  rw [← htrail.noteAt]
  refine ⟨(hsees h rfl).borne fun n hn => hnull.stack n ?_, hinside⟩
  rwa [Woven.method, Plan.nulls_noteAt] at hn

/-! ## 6. A delay line -/

theorem Noting.trail_origins (m : Method) : (trail m).Refines (origins m) Trail.origins :=
  ⟨rfl, fun _ _ => rfl, fun _ _ => rfl⟩

/-- Writes to one array the characters of another, each one place later. -/
def delayLine : Trial where
  method := ⟨"demo/Delay", "run", ⟨[.array .char, .array .char, .int], .void⟩, true, 6, 4,
    [.const (.int 97), .store 3, .const (.int 0), .store 4, .label 0, .load 4,
      .load 2, .ifCmp .ge 1, .load 3, .store 5, .load 0, .load 4, .arrayLoad .char, .store 3,
      .load 1, .load 4, .load 5, .arrayStore .char, .load 4, .const (.int 1), .binary .add .int,
      .store 4, .goto 0, .label 1, .ret .void]⟩
  world := ⟨((Heap.empty.allocate (.charArray "xyz")).2.allocate (.charArray "abc")).2,
    ((Store.empty .default).addTracker (.new .origin [120, 121, 122] none)).2.setTracker
    (fun _ => true) 1 1, [], [], []⟩
  args := [.ref 1, .ref 2, .int 2]

namespace Trial

variable {x : Trial} {n : Nat} {s : RunState} {gs : List Origins}

/-- A run that is reached is one of the woven method, and there is a trail of it. -/
theorem traced_of_run? (h : x.run? n = some (a, p, s, gs)) :
    Weaver.everywhere.Plans false x.literals x.method a p ∧ ∃ ts, ts.map Trail.origins = gs ∧
      (p.notes x.method (.trail x.method)).Traced (program (p.woven x.method)) ⟨8, 1000⟩ s ts := by
  obtain ⟨⟨a', p'⟩, hplan, hrun⟩ := Option.bind_eq_some_iff.mp h
  obtain ⟨⟨s', gs'⟩, hfollow, hsame⟩ := Option.map_eq_some_iff.mp hrun
  simp only [Prod.mk.injEq] at hsame
  obtain ⟨rfl, rfl, rfl, rfl⟩ := hsame
  refine ⟨plans_of_plan? hplan, (Noting.trail_origins x.method).notes.traced ?_⟩
  exact ⟨_, _, _, _, _, n, hfollow⟩

end Trial

/-- The first character that is written is the literal.  It is stored with the point of the
character that was read in the meantime, the first of the array, since this is the newest member of
the merge. -/
theorem delayLine_storesNewest :
    ∃ m' kinds pool', Weaver.everywhere.weaveMethod false delayLine.literals delayLine.method =
        (.ok (some (m', kinds)), pool') ∧
      ∃ a p s t, Weaver.everywhere.Plans false delayLine.literals delayLine.method a p ∧
        (p.notes delayLine.method (.trail delayLine.method)).Traced (Trial.program m')
          ⟨8, 1000⟩ s [t] ∧
        s.current.routine = .ofMethod m' ∧
        m'.insns[s.current.pc]? = some (.hook (.arrayStoreWithPoint .char)) ∧
        s.current.stack[0]? = some (.point ⟨1, 0, 1⟩) ∧
        let here := p.noteAt delayLine.method (.trail delayLine.method) s.current.pc t
        here.origins.stack 0 = .readPoint ⟨12, 13⟩ ∧ here.origins.stack 1 = .literal ⟨0, 1⟩ ∧
        p.StoresNewest delayLine.method a here s.current.stack (.arrayStoreWithPoint .char) ∧
        a.merges.Newest (Happening.now here.begun) ⟨4, .variable, 3⟩ (.read 12) (some ⟨12, 13⟩) ∧
        ¬p.Exact (here.origins.stack 0) (here.origins.stack 1) (.literal 0) := by
  obtain ⟨m', kinds, pool', hweave⟩ := Trial.weaves (x := delayLine) (by decide +kernel)
  have hstand : delayLine.stand? 29 = some (some (.hook (.arrayStoreWithPoint .char)),
      [(⟨17, 18⟩, .readPoint ⟨12, 13⟩, .literal ⟨0, 1⟩)]) := by decide +kernel
  have htop : (delayLine.run? 29).map (fun r => r.2.2.1.current.stack[0]?) =
      some (some (.point ⟨1, 0, 1⟩)) := by decide +kernel
  have hbase : (delayLine.run? 29).map (fun r => (r.1.frame? 17).map fun f => (f.top 0).base) =
      some (some (.merged .int ⟨4, .variable, 3⟩)) := by decide +kernel
  cases hrun : delayLine.run? 29 with
  | none => simp [Trial.stand?, hrun] at hstand
  | some r =>
    obtain ⟨a, p, s, gs⟩ := r
    rw [hrun] at htop hbase
    rw [Trial.stand?, hrun] at hstand
    obtain ⟨hinsn, horigins⟩ := Prod.mk.inj (Option.some.inj hstand)
    obtain ⟨f, hf, hmerged⟩ := Option.map_eq_some_iff.mp (Option.some.inj hbase)
    obtain ⟨hplans, ts, rfl, htraced⟩ := Trial.traced_of_run? hrun
    obtain ⟨t, rfl, ht⟩ := List.map_eq_singleton_iff.mp ((List.map_map).symm.trans horigins)
    obtain ⟨a', p', hplans', rfl, hstores⟩ := Weaver.weaveMethod_storesNewest hweave
    obtain ⟨rfl, rfl⟩ := hplans.unique hplans'
    have hroutine := Trial.routine_of_traced htraced
    rw [hroutine, Routine.insns_getElem?] at hinsn
    have hnewest := (hstores _ _ s t [] htraced hroutine _ hinsn).1
    refine ⟨_, kinds, pool', hweave, a', p', s, t, hplans, htraced, hroutine, hinsn,
      Option.some.inj htop, ?_⟩
    have hsame := (Noting.trail_origins delayLine.method).noteAt (p := p') (m := delayLine.method)
      s.current.pc t
    obtain ⟨hhere, hpoint, hvalue⟩ :
        let here := p'.noteAt delayLine.method (.trail delayLine.method) s.current.pc t
        here.origins.here = ⟨17, 18⟩ ∧ here.origins.stack 0 = .readPoint ⟨12, 13⟩ ∧
          here.origins.stack 1 = .literal ⟨0, 1⟩ := by
      intro here
      rw [hsame]
      exact ⟨congrArg (·.1) ht, congrArg (·.2.1) ht, congrArg (·.2.2) ht⟩
    generalize p'.noteAt delayLine.method (.trail delayLine.method) s.current.pc t = here at *
    refine ⟨hpoint, hvalue, hnewest, ?_, ?_⟩
    · -- the point is neither null nor that of another definition
      obtain hnull | ⟨d, e, hmember, hof, -⟩ := hnewest (.arrayStore .char) f (by rw [hhere]; rfl)
        (hhere ▸ hf) ⟨0, 1, 0⟩ (by simp [Insn.stores]) .int ⟨4, .variable, 3⟩ hmerged
      · simp [hnull] at htop
      · rw [hpoint] at hof
        cases d with
        | read k =>
          obtain ⟨e', rfl, he⟩ := hof
          obtain rfl := Origin.readPoint.inj he
          obtain rfl := hmember.insn rfl rfl
          exact hmember
        | literal => obtain ⟨_, _, he⟩ := hof; cases he
        | result => obtain ⟨_, _, he⟩ := hof; cases he
        | parameter => cases hof
    · rw [hpoint]
      rintro ⟨_, _, _, _, _, he⟩
      cases he

end Provenance
