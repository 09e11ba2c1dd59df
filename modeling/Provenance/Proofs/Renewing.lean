/-
# The locals of merges are renewed

Where a woven method stands between two blocks, each of its own locals is null or shows what belongs
there after all that has happened: the latest point or record of its instruction, or the point of
the newest member of its merge (`Woven.Shows`).

In a block this is so of a local once the pieces that write it are behind (`Woven.Pending`).  Pieces
for one instruction stand in the order of planning, and a piece reads no local that is still to be
written there (`Plan.Settled`), so what it reads is what belongs there.  Section 5 goes through all
that stands in front of an instruction, one piece after the other.
-/
import Provenance.Proofs.Newest
import Provenance.Proofs.Nulls
import Provenance.Proofs.Pervading
import Provenance.Proofs.PlannedOnce
import Provenance.Proofs.Pointing
import Provenance.Proofs.Settling

namespace Provenance

/-! ## 1. Accounts -/

/-- A trail, and what is null on it. -/
structure Account extends Trail where
  nulls : Nulls

namespace Account

/-- With another operand. -/
def push (g : Account) (o : Origin) (b : Bool) : Account :=
  { g with origins := g.origins.push o, nulls := g.nulls.push b }

/-- With another value in a local. -/
def setLocal (g : Account) (l : Nat) (o : Origin) (b : Bool) : Account :=
  { g with origins := g.origins.setLocal l o, nulls := g.nulls.setLocal l b }

/-- With several operands, the last of them on top. -/
def pushAll (g : Account) (ps : List (Origin × Bool)) : Account :=
  { g with
    origins := { g.origins with stack := Origins.onto (ps.map Prod.fst) g.origins.stack }
    nulls := { g.nulls with stack := Nulls.onto (ps.map Prod.snd) g.nulls.stack } }

end Account

/-- Keeping the account of a woven method. -/
def Noting.account (m : Method) : Noting Account where
  start := ⟨(Noting.trail m).start, .unknown⟩
  enter k g := ⟨(Noting.trail m).enter k g.toTrail, g.nulls⟩
  after i g := ⟨(Noting.trail m).after i g.toTrail, g.nulls.after i⟩

theorem Noting.account_trail (m : Method) : (account m).Refines (trail m) Account.toTrail :=
  ⟨rfl, fun _ _ => rfl, fun _ _ => rfl⟩

/-- Entering a block makes nothing null. -/
theorem Plan.nulls_noteAt (p : Plan) (m : Method) (pc : Nat) (g : Account) :
    (p.noteAt m (.account m) pc g).nulls = g.nulls := by
  unfold Plan.noteAt
  split <;> rfl

theorem Plan.account_nulls (p : Plan) (m : Method) :
    (p.notes m (.account m)).Refines Nulls.notes Account.nulls where
  start _ := rfl
  after s i g := congrArg (Nulls.after · i) (p.nulls_noteAt m s.current.pc g)

/-- Whatever points a hook stores for merges, they are null or those of the newest members. -/
def Account.StoresNewest (p : Plan) (m : Method) (a : Analysis) (g : Account) (h : Hook) : Prop :=
  ∀ i f, m.insns[g.origins.here.insn]? = some i → a.frame? g.origins.here.insn = some f →
    ∀ s ∈ i.stores h, ∀ t slot, (f.top s.operand).base = .merged t slot →
      g.nulls.stack s.point = true ∨ ∃ d e, a.merges.Newest (Happening.now g.begun) slot d e ∧
        p.PointOf d e (g.origins.stack s.point)

open Happening (latest?)

namespace Woven

variable {v : Woven} {Q : Account → Prop} {g g' : Account} {evs : List Happening} {u : LocalUse}
  {o : Origin} {b : Bool} {code rest : List Insn} {w : FlowValue} {slot : MergeSlot} {t : Ty}
  {d : Definition} {k l : Nat} {i : Insn} {f : Frame}

/-! ## 2. What locals show -/

/-- A local that serves a purpose is null, or shows what belongs there after what has happened. -/
def Shows (v : Woven) (evs : List Happening) (u : LocalUse) (o : Origin) (b : Bool) : Prop :=
  b = true ∨
    match u with
    | .point k => ∃ e, latest? evs k = some e ∧ o = .readPoint e
    | .record k => ∃ e, latest? evs k = some e ∧ o = .record e
    | .own => o = .ownRecord
    | .merge s => ∃ d e, v.context.analysis.merges.Newest evs s d e ∧ v.plan.PointOf d e o

/-- Between two blocks all locals show what belongs there, and the next one is reached. -/
structure Ready (v : Woven) (k : Nat) (g : Account) : Prop where
  reached : v.HasFrame k
  shows : ∀ u l, v.plan.localOf u = some l →
    v.Shows (Happening.past g.begun) u (g.origins.locals l) (g.nulls.locals l)

/-- What is stored for merges are the points of the newest members. -/
def newest (v : Woven) : Outlook Account where
  Sees i g := ∀ h, i = .hook h → g.StoresNewest v.plan v.method v.context.analysis h
  Ready := v.Ready
  Inside k g := g.origins.here.insn = k

/-- Code along which only points of newest members are stored for merges. -/
abbrev Renews (v : Woven) (Q : Account → Prop) : List Insn → Account → Prop :=
  v.Course (.account v.method) v.newest Q

theorem renews_silent (hi : i.Silent)
    (h : v.Renews Q rest ((Noting.account v.method).after i g)) : v.Renews Q (i :: rest) g := by
  refine ⟨fun hk hhook j f _ _ s hs => ?_, fun l t hl => ?_, fun _ => h⟩
  · subst hhook
    rw [hi j] at hs
    cases hs
  · cases i with
    | hook hk => cases hl
    | _ => exact nomatch hi.symm.trans hl

/-- A hook that stores points. -/
theorem renews_hook {h : Hook} (hi : v.method.insns[g.origins.here.insn]? = some i)
    (hf : v.frame? g.origins.here.insn = some f)
    (hstores : ∀ s ∈ i.stores h, ∀ t slot, (f.top s.operand).base = .merged t slot →
      g.nulls.stack s.point = true ∨ ∃ d e, v.context.analysis.merges.Newest
      (Happening.now g.begun) slot d e ∧
        v.plan.PointOf d e (g.origins.stack s.point))
    (hrest : v.Renews Q rest ((Noting.account v.method).after (.hook h) g)) :
    v.Renews Q (.hook h :: rest) g := by
  refine ⟨fun h' hh j f' hj hf' => ?_, (fun l t hl => nomatch hl), fun _ => hrest⟩
  obtain rfl := Insn.hook.inj hh
  obtain rfl := Option.some.inj (hi.symm.trans hj)
  obtain rfl := Option.some.inj (hf.symm.trans hf')
  exact hstores

/-! ## 3. Pushing points -/

/-- The point that is pushed for a value, where the locals that are read show what belongs there:
null, or that of the definition of the value, or of the newest member. -/
inductive Fetched (v : Woven) (evs : List Happening) (w : FlowValue) (o : Origin)
    (b : Bool) : Prop where
  | null (h : b = true)
  | defined (d : Definition) (hd : w.definition? = some d)
      (ho : v.plan.PointOf d (d.insn?.bind (latest? evs)) o)
  | newest (t : Ty) (slot : MergeSlot) (d : Definition) (e : Option Execution)
      (hb : w.base = .merged t slot) (hn : v.context.analysis.merges.Newest evs slot d e)
      (ho : v.plan.PointOf d e o)

theorem Fetched.of_merged (h : v.Fetched evs w o b) (hb : w.base = .merged t slot) :
    b = true ∨ ∃ d e, v.context.analysis.merges.Newest evs slot d e ∧ v.plan.PointOf d e o := by
  cases h with
  | null h => exact .inl h
  | defined d hd => exact nomatch hd.symm.trans (MergeIndex.definition?_of_merged hb)
  | newest t' slot' d e hb' hn ho =>
    obtain ⟨-, rfl⟩ := FlowValue.merged.inj (hb.symm.trans hb')
    exact .inr ⟨d, e, hn, ho⟩

/-- The code for the point of a merge. -/
theorem code_of_merged (hcode : v.plan.PointCode w code) (hb : w.base = .merged t slot) :
    code = [.const .null] ∨ ∃ l, v.plan.localOf (.merge slot) = some l ∧ code = [.load l] := by
  rcases hcode with h | ⟨-, rfl⟩
  · unfold Plan.loadPoint at h
    rw [hb] at h
    cases hk : v.plan.mergeLocals.lookup slot with
    | none => simp [hk] at h
    | some r =>
      cases r with
      | none => exact .inl (by simpa [hk] using h.symm)
      | some l => exact .inr ⟨l, by simp [Plan.localOf, hk], by simpa [hk] using h.symm⟩
  · exact .inl rfl

variable (evs) in
/-- **The code for a point** pushes what belongs there, if the locals that it reads show what
belongs there. -/
theorem renews_point (hcode : v.plan.PointCode w code)
    (hrest : ∀ o b, ((∀ u l, v.plan.localOf u = some l → .load l ∈ code →
        v.Shows evs u (g.origins.locals l) (g.nulls.locals l)) → v.Fetched evs w o b) →
      v.Renews Q rest (g.push o b)) : v.Renews Q (code ++ rest) g := by
  cases hd : w.definition? with
  | some d =>
    cases Plan.fetches_of_pointCode hcode hd with
    | @literal k place hplace =>
      exact renews_silent (fun _ => rfl) (hrest _ _ fun _ => .defined _ hd ⟨place, hplace, rfl⟩)
    | @read k l hl =>
      refine renews_silent rfl (hrest _ _ fun hshows => ?_)
      exact (hshows _ l hl (by simp)).elim .null fun ho => .defined _ hd ho
    | @result k l hl =>
      refine renews_silent rfl (renews_silent (fun _ => rfl)
        (hrest (g.origins.locals l).returned (g.nulls.locals l) fun hshows => ?_))
      refine (hshows _ l hl (by simp)).elim .null fun ⟨e, he, ho⟩ => .defined _ hd ⟨e, he, ?_⟩
      rw [ho]
      rfl
    | @parameter n l hl =>
      refine renews_silent rfl (renews_silent (fun _ => rfl)
        (hrest ((g.origins.locals l).argument n) (g.nulls.locals l) fun hshows => ?_))
      refine (hshows _ l hl (by simp)).elim .null fun ho => .defined _ hd ?_
      rw [show g.origins.locals l = .ownRecord from ho]
      rfl
  | none =>
    rcases FlowValue.base_of_no_definition hd with ⟨ty, hb⟩ | ⟨t, slot, hb⟩
    · obtain rfl : code = [.const .null] := by
        rcases hcode with h | ⟨-, rfl⟩
        · unfold Plan.loadPoint at h
          rw [hb] at h
          simpa using h.symm
        · rfl
      exact renews_silent rfl (hrest _ _ fun _ => .null rfl)
    · rcases code_of_merged hcode hb with rfl | ⟨l, hl, rfl⟩
      · exact renews_silent rfl (hrest _ _ fun _ => .null rfl)
      · refine renews_silent rfl (hrest _ _ fun hshows => ?_)
        exact (hshows _ l hl (by simp)).elim .null fun ⟨d, e, hn, ho⟩ => .newest t slot d e hb hn ho

/-! ## 4. In a block -/

/-- Where pieces of a block are still to come, with the execution `e` under way after `es`: what
they do not write shows what belongs there, but for one purpose that waits. -/
structure Pending (v : Woven) (waits : Option LocalUse) (evs : List Happening) (e : Execution)
    (es : List Execution) (edits : List (Nat × List Insn)) (g : Account) : Prop where
  settled : Plan.Settled edits
  here : g.origins.here = e
  begun : g.begun = e :: es
  shows : ∀ u l, waits ≠ some u → v.plan.localOf u = some l →
    (∀ code, (e.insn, code) ∈ edits → .store l ∉ code) →
    v.Shows evs u (g.origins.locals l) (g.nulls.locals l)

variable {waits : Option LocalUse} {e : Execution} {es : List Execution}
  {edits : List (Nat × List Insn)}

theorem settled_tail {x : Nat × List Insn} (h : Plan.Settled (x :: edits)) : Plan.Settled edits :=
  ⟨(List.pairwise_cons.mp h.pairs).2, fun y hy => h.each y (List.mem_cons_of_mem x hy)⟩

/-- A piece for another instruction is passed over. -/
theorem Pending.other (h : v.Pending waits evs e es ((k, code) :: edits) g) (hk : k ≠ e.insn) :
    v.Pending waits evs e es edits g where
  settled := settled_tail h.settled
  here := h.here
  begun := h.begun
  shows u l hu hl hwrites := by
    refine h.shows u l hu hl fun code' hmem => ?_
    rcases List.mem_cons.mp hmem with hmem | hmem
    · exact absurd (Prod.mk.inj hmem).1.symm hk
    · exact hwrites code' hmem

/-- What a piece reads shows what belongs there. -/
theorem Pending.reads (h : v.Pending waits evs e es ((e.insn, code) :: edits) g)
    (hu : waits ≠ some u) (hl : v.plan.localOf u = some l) (hmem : .load l ∈ code) :
    v.Shows evs u (g.origins.locals l) (g.nulls.locals l) := by
  refine h.shows u l hu hl fun code' hcode' => ?_
  rcases List.mem_cons.mp hcode' with hcode' | hcode'
  · obtain ⟨-, rfl⟩ := Prod.mk.inj hcode'
    exact h.settled.each _ List.mem_cons_self l hmem
  · exact (List.pairwise_cons.mp h.settled.pairs).1 _ hcode' l hmem

/-- A piece that writes no local. -/
theorem Pending.idle (h : v.Pending waits evs e es ((e.insn, code) :: edits) g)
    (hcode : ∀ l, .store l ∉ code) (hhere : g'.origins.here = g.origins.here)
    (hbegun : g'.begun = g.begun) (horigins : g'.origins.locals = g.origins.locals)
    (hnulls : g'.nulls.locals = g.nulls.locals) :
    v.Pending waits evs e es edits g' where
  settled := settled_tail h.settled
  here := hhere.trans h.here
  begun := hbegun.trans h.begun
  shows u l hu hl hwrites := by
    rw [horigins, hnulls]
    refine h.shows u l hu hl fun code' hmem => ?_
    rcases List.mem_cons.mp hmem with hmem | hmem
    · obtain ⟨-, rfl⟩ := Prod.mk.inj hmem
      exact hcode l
    · exact hwrites code' hmem

/-- A piece that writes one local, and what belongs there. -/
theorem Pending.writes (h : v.Pending waits evs e es ((e.insn, code) :: edits) g)
    (hl : v.plan.localOf u = some l) (hshows : v.Shows evs u o b)
    (hcode : ∀ j, .store j ∈ code → j = l) (hhere : g'.origins.here = g.origins.here)
    (hbegun : g'.begun = g.begun) (horigins : g'.origins.locals = (g.setLocal l o b).origins.locals)
    (hnulls : g'.nulls.locals = (g.setLocal l o b).nulls.locals) :
    v.Pending waits evs e es edits g' where
  settled := settled_tail h.settled
  here := hhere.trans h.here
  begun := hbegun.trans h.begun
  shows u' j hu' hj hwrites := by
    rw [horigins, hnulls]
    by_cases hjl : j = l
    · subst hjl
      obtain rfl := v.planned.apart u' u j hj hl
      simpa only [Account.setLocal, Origins.setLocal, Nulls.setLocal, if_true] using hshows
    · simp only [Account.setLocal, Origins.setLocal, Nulls.setLocal, if_neg hjl]
      refine h.shows u' j hu' hj fun code' hmem => ?_
      rcases List.mem_cons.mp hmem with hmem | hmem
      · obtain ⟨-, rfl⟩ := Prod.mk.inj hmem
        exact fun hstore => hjl (hcode j hstore)
      · exact hwrites code' hmem

/-- All pieces for an instruction, one after the other. -/
theorem renews_codeAt (Piece : List Insn → Prop)
    (hpiece : ∀ {code : List Insn} {edits : List (Nat × List Insn)} {g : Account}
      {rest : List Insn}, Piece code → v.Pending waits evs e es ((e.insn, code) :: edits) g →
      (∀ g', v.Pending waits evs e es edits g' → v.Renews Q rest g') →
        v.Renews Q (code ++ rest) g) :
    ∀ {edits : List (Nat × List Insn)} {g : Account}, (∀ x ∈ edits, x.1 = e.insn → Piece x.2) →
    v.Pending waits evs e es edits g →
    (∀ g', v.Pending waits evs e es [] g' → v.Renews Q rest g') →
    v.Renews Q (Plan.codeAt e.insn edits ++ rest) g := by
  intro edits
  induction edits with
  | nil => exact fun _ h hrest => hrest _ h
  | cons x edits ih =>
    intro g hpieces h hrest
    obtain ⟨k, code⟩ := x
    obtain ⟨hcode, hothers⟩ := List.forall_mem_cons.mp hpieces
    have hcodeAt : Plan.codeAt e.insn ((k, code) :: edits) =
        (if k = e.insn then code else []) ++ Plan.codeAt e.insn edits := rfl
    rw [hcodeAt, List.append_assoc]
    by_cases hk : k = e.insn
    · subst hk
      rw [if_pos rfl]
      exact hpiece (hcode rfl) h fun g' h' => ih hothers h' hrest
    · rw [if_neg hk, List.nil_append]
      exact ih hothers (h.other hk) hrest

/-! ## 5. Pieces -/

/-- **A member is noted**: its merge shows the newest member. -/
theorem renews_stash {ev : Happening}
    (h : v.Pending waits (ev :: evs) e es ((e.insn, code ++ [.store l]) :: edits) g)
    (hl : v.plan.localOf (.merge slot) = some l)
    (hmember : w ∈ v.context.analysis.merges.members slot) (hbrings : ev.Brings w)
    (hcode : v.plan.loadPoint w = .ok code)
    (hwaits : ∀ u l, v.plan.localOf u = some l → .load l ∈ code → waits ≠ some u)
    (hrest : ∀ g', v.Pending waits (ev :: evs) e es edits g' → v.Renews Q rest g') :
    v.Renews Q ((code ++ [.store l]) ++ rest) g := by
  rw [List.append_assoc]
  refine renews_point (ev :: evs) (.inl hcode) fun o b hfetched => renews_silent rfl ?_
  have hshows : v.Shows (ev :: evs) (.merge slot) o b := by
    have hfetched := hfetched fun u j hj hmem =>
      h.reads (hwaits u j hj hmem) hj (List.mem_append_left _ hmem)
    cases hfetched with
    | null hb => exact .inl hb
    | defined d hd ho => exact .inr ⟨d, _, .made hmember hbrings hd, ho⟩
    | newest t inner d e hb hn ho => exact .inr ⟨d, e, .inner hmember hbrings hb hn, ho⟩
  refine hrest (g.setLocal l o b) (h.writes hl hshows (fun j hj => ?_) rfl rfl rfl rfl)
  rcases List.mem_append.mp hj with hj | hj
  · exact absurd hj ((Plan.loading_of_loadPoint hcode).store_not_mem j)
  · exact Insn.store.inj (List.mem_singleton.mp hj)

/-- What the code for the point of a merge reads is the local of the merge. -/
theorem use_of_merged (hcode : v.plan.PointCode w code) (hb : w.base = .merged t slot)
    (hl : v.plan.localOf u = some l) (hmem : .load l ∈ code) : u = .merge slot := by
  rcases code_of_merged hcode hb with rfl | ⟨j, hj, rfl⟩
  · simp at hmem
  · obtain rfl : l = j := by simpa using hmem
    exact v.planned.apart _ _ l hl hj

variable (evs) in
/-- The code for the point of a value, in front of what stores it: if the value is a merge, that of
the newest member is pushed. -/
theorem renews_stored (hcode : v.plan.PointCode w code)
    (hshows : ∀ t slot l, w.base = .merged t slot → v.plan.localOf (.merge slot) = some l →
      .load l ∈ code → v.Shows evs (.merge slot) (g.origins.locals l) (g.nulls.locals l))
    (hrest : ∀ o b, (∀ t slot, w.base = .merged t slot →
        b = true ∨ ∃ d e, v.context.analysis.merges.Newest evs slot d e ∧ v.plan.PointOf d e o) →
      v.Renews Q rest (g.push o b)) : v.Renews Q (code ++ rest) g := by
  refine renews_point evs hcode fun o b hfetched => hrest o b fun t slot hb => ?_
  refine (hfetched fun u l hl hmem => ?_).of_merged hb
  obtain rfl := use_of_merged hcode hb hl hmem
  exact hshows t slot l hb hl hmem

/-- **The code in front of an instruction.** -/
theorem renews_beforePiece (hf : v.frame? e.insn = some f)
    (hpiece : Plan.BeforePiece v.context v.plan e.insn code)
    (h : v.Pending (some (.record e.insn)) (Happening.now (e :: es)) e es
      ((e.insn, code) :: edits) g)
    (hrest : ∀ g', v.Pending (some (.record e.insn)) (Happening.now (e :: es)) e es edits g' →
      v.Renews Q rest g') : v.Renews Q (code ++ rest) g := by
  have hpoint : v.Shows (Happening.now (e :: es)) (.point e.insn)
      (.readPoint g.origins.here) false :=
    .inr ⟨e, if_pos rfl, congrArg Origin.readPoint h.here⟩
  have hi' {i : Insn} (hi : v.method.insns[e.insn]? = some i) :
      v.method.insns[g.origins.here.insn]? = some i := h.here.symm ▸ hi
  have hf' : v.frame? g.origins.here.insn = some f := h.here.symm ▸ hf
  cases hpiece with
  | @element l hl hi =>
    refine renews_silent rfl (renews_silent (fun _ => rfl) (renews_silent rfl (hrest _ ?_)))
    exact h.writes hl hpoint (fun j hj => by simpa using hj) rfl rfl rfl rfl
  | @field l fd hl hi =>
    refine renews_silent rfl (renews_silent (fun _ => rfl) (renews_silent rfl (hrest _ ?_)))
    exact h.writes hl hpoint (fun j hj => by simpa using hj) rfl rfl rfl rfl
  | @join slot inner l t code hl hmember hk hcode =>
    refine renews_stash h hl hmember (.join hk) hcode (fun u l hl hmem => ?_) hrest
    rw [use_of_merged (.inl hcode) rfl hl hmem]
    simp
  | @fieldStore f' fd code hi hf'' hcode =>
    obtain rfl := Option.some.inj (hf.symm.trans hf'')
    rw [List.append_assoc, List.append_assoc, List.cons_append, List.cons_append, List.nil_append]
    refine renews_silent rfl (renews_silent rfl ?_)
    refine renews_stored (Happening.now (e :: es)) hcode (fun t slot l _ hl hmem => ?_)
      fun o b hnewest => ?_
    · exact h.reads (by simp) hl (by simp [hmem])
    · refine renews_hook (hi' hi) hf' (fun s hs t slot hb => ?_) (hrest _ ?_)
      · obtain rfl := List.mem_singleton.mp hs
        exact h.begun ▸ hnewest t slot hb
      · refine h.idle (fun l hmem => ?_) rfl rfl rfl rfl
        exact (Plan.loading_of_pointCode hcode).store_not_mem l (by simpa using hmem)
  | @returning f' t l code hi ht hf'' hl hcode =>
    obtain rfl := Option.some.inj (hf.symm.trans hf'')
    rw [List.append_assoc]
    refine renews_silent rfl ?_
    refine renews_stored (Happening.now (e :: es)) (.inl hcode) (fun t slot l _ hl hmem => ?_)
      fun o b hnewest => ?_
    · exact h.reads (by simp) hl (by simp [hmem])
    · refine renews_hook (hi' hi) hf' (fun s hs t slot hb => ?_) (hrest _ ?_)
      · obtain rfl := List.mem_singleton.mp hs
        exact h.begun ▸ hnewest t slot hb
      · refine h.idle (fun l hmem => ?_) rfl rfl rfl rfl
        exact (Plan.loading_of_loadPoint hcode).store_not_mem l (by simpa using hmem)

/-- All code in front of an instruction, but for its record. -/
theorem renews_before (hf : v.frame? e.insn = some f)
    (h : v.Pending (some (.record e.insn)) (Happening.now (e :: es)) e es v.plan.before g)
    (hrest : ∀ g', v.Pending (some (.record e.insn)) (Happening.now (e :: es)) e es [] g' →
      v.Renews Q rest g') : v.Renews Q (Plan.codeAt e.insn v.plan.before ++ rest) g :=
  renews_codeAt (Plan.BeforePiece v.context v.plan e.insn)
    (fun hpiece h hrest => renews_beforePiece hf hpiece h hrest)
    (fun x hx hk => hk ▸ v.planned.before x hx) h hrest

/-- The points of the arguments of a call, put into its record one after the other. -/
theorem renews_arguments (hf : v.frame? g.origins.here.insn = some f)
    (hshows : ∀ slot l, v.plan.localOf (.merge slot) = some l →
      v.Shows (Happening.now g.begun) (.merge slot) (g.origins.locals l) (g.nulls.locals l)) :
    ∀ {args : List (Nat × Nat × List Insn)} {b : Bool},
    (∀ x ∈ args, Plan.ArgumentPiece v.context v.plan g.origins.here.insn x.2.1 x.2.2) →
    (∀ b, v.Renews Q rest (g.push o b)) →
    v.Renews Q ((args.flatMap fun x => x.2.2 ++ [.hook (.invocationSetArg x.2.1)]) ++ rest)
      (g.push o b) := by
  intro args
  induction args with
  | nil => exact fun _ hrest => hrest _
  | cons x args ih =>
    intro b hpieces hrest
    obtain ⟨hpiece, hpieces⟩ := List.forall_mem_cons.mp hpieces
    obtain ⟨target, f', ⟨hi, -⟩, -, hf', hcode⟩ := hpiece.call
    obtain rfl := Option.some.inj (hf.symm.trans hf')
    rw [List.flatMap_cons, List.append_assoc, List.append_assoc]
    refine renews_stored (Happening.now g.begun) (.inl hcode)
      (fun t slot l _ hl _ => hshows slot l hl) fun o' b' hnewest => ?_
    refine renews_hook hi hf (fun s hs t slot hb => ?_) (ih (b := false) hpieces hrest)
    obtain rfl := List.mem_singleton.mp hs
    exact hnewest t slot hb

/-- **The code that gives a call its record.** -/
theorem renews_record (hi : v.method.insns[e.insn]? = some i) (hf : v.frame? e.insn = some f)
    (h : v.Pending (some (.record e.insn)) (Happening.now (e :: es)) e es [] g)
    (hrest : ∀ g', v.Pending none (Happening.now (e :: es)) e es [] g' → v.Renews Q rest g') :
    v.Renews Q (v.plan.recordCode e.insn i ++ rest) g := by
  have hshows {u : LocalUse} {l : Nat} (hu : u ≠ .record e.insn) (hl : v.plan.localOf u = some l) :
      v.Shows (Happening.now (e :: es)) u (g.origins.locals l) (g.nulls.locals l) :=
    h.shows u l (fun hwaits => hu (Option.some.inj hwaits).symm) hl (by simp)
  have hunkept (hnone : v.plan.localOf (.record e.insn) = none) : v.Renews Q rest g := by
    refine hrest g ⟨h.settled, h.here, h.begun, fun u l _ hl _ => hshows (fun hu => ?_) hl⟩
    rw [hu, hnone] at hl
    cases hl
  rcases Plan.recordCode_cases v.planned hi with hnone | ⟨target, put, rfl, -, hput, hcode⟩
  · rw [hnone]
    exact hunkept (Plan.localOf_record_of_recordCode_nil hnone)
  · rw [hcode, List.cons_append, List.append_assoc]
    refine renews_silent (fun _ => rfl) ?_
    refine renews_arguments (g := g) (o := .record g.origins.here) (b := false) (h.here.symm ▸ hf)
      (fun slot l hl => h.begun.symm ▸ hshows (by simp) hl) (fun x hx => ?_)
      fun b => renews_silent (fun _ => rfl) ?_
    · obtain ⟨hmem, hk⟩ := List.mem_filter.mp hx
      rw [h.here, ← of_decide_eq_true hk]
      exact v.planned.arguments x hmem
    · cases hput with
      | dropped hl => exact renews_silent rfl (hunkept hl)
      | @kept l hl =>
        refine renews_silent rfl (hrest (g.setLocal l (.record g.origins.here) false) ?_)
        refine ⟨h.settled, h.here, h.begun, fun u j _ hj _ => ?_⟩
        by_cases hjl : j = l
        · subst hjl
          obtain rfl := v.planned.apart u _ j hj hl
          refine .inr ⟨e, if_pos rfl, ?_⟩
          exact (if_pos rfl).trans (congrArg Origin.record h.here)
        · have hu : u ≠ .record e.insn := by
            rintro rfl
            exact hjl (Option.some.inj (hj.symm.trans hl))
          simpa only [Account.setLocal, Origins.setLocal, Nulls.setLocal,
            if_neg hjl] using hshows hu hj

end Woven

end Provenance
