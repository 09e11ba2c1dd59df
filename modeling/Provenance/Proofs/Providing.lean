/-
# Planning never fails

A plan is ready (`Plan.Ready`) if planning can go on from it: its pool takes literals, and every
merge that was judged trackable has members and every member an instruction that makes it.  It is
ready also in that all its code fits: every piece of code comes back to the height of the stack at
which it begins, or leaves the height that the instruction leaves in whose place it stands, touches
only locals that were handed out, and stays within the depth that is declared.

Each step of planning goes well from a ready plan and leads to a ready one.  The depth is declared
by the step that adds a piece of code, for the arguments of a call only once all of them are added;
until then they are late.
-/
import Provenance.Proofs.Descriptors
import Provenance.Proofs.Grounding
import Provenance.Proofs.Layout
import Provenance.Proofs.Levels
import Provenance.Proofs.Reaching
import Provenance.Proofs.Registering

namespace Provenance

/-! ## 1. What was judged -/

namespace MergeIndex

/-- A merge all of whose members are made by instructions. -/
def Made (x : MergeIndex) (slot : MergeSlot) : Prop :=
  x.members slot ≠ [] ∧ ∀ v ∈ x.members slot, v.creation?.isSome

/-- A merge with members has an entry. -/
theorem exists_entry (x : MergeIndex) {slot : MergeSlot} (h : x.members slot ≠ []) :
    ∃ vs, (slot, vs) ∈ x.entries := by
  cases hl : x.entries.lookup slot with
  | none => exact absurd (by simp [members, hl]) h
  | some vs => exact ⟨vs, mem_of_lookup hl⟩

/-- Decisions for merges all of whose members are made by instructions. -/
def MemoSound (x : MergeIndex) (memo : TrackMemo) : Prop :=
  ∀ slot, memo.lookup slot = some true → x.Made slot

/-- A decision that leaves sound decisions; if it is in favour, then of something. -/
def Judges (x : MergeIndex) (r : Bool × TrackMemo) (P : Prop) : Prop :=
  x.MemoSound r.2 ∧ (r.1 = true → P)

theorem allWith_judges {x : MergeIndex} {test : FlowValue → TrackMemo → Bool × TrackMemo}
    {P : FlowValue → Prop} (htest : ∀ v memo, x.MemoSound memo → x.Judges (test v memo) (P v)) :
    ∀ (vs : List FlowValue) (memo : TrackMemo), x.MemoSound memo →
      x.Judges (allWith test vs memo) (∀ v ∈ vs, P v)
  | [], _, hmemo => ⟨hmemo, fun _ => by simp⟩
  | v :: vs, memo, hmemo => by
    obtain ⟨hsound, hv⟩ := htest v memo hmemo
    unfold allWith
    split
    · rename_i memo' heq
      rw [heq] at hsound hv
      obtain ⟨hsound', hvs⟩ := allWith_judges htest vs memo' hsound
      exact ⟨hsound', fun h => List.forall_mem_cons.mpr ⟨hv rfl, hvs h⟩⟩
    · rename_i memo' heq
      rw [heq] at hsound
      exact ⟨hsound, fun h => absurd h (by simp)⟩

/-- **A merge that is judged trackable** has members, and all of them are made by instructions. -/
theorem trackableFrom_judges (x : MergeIndex) : ∀ (fuel : Nat) (visiting : List MergeSlot)
    (v : FlowValue) (memo : TrackMemo), x.MemoSound memo →
      x.Judges (x.trackableFrom fuel visiting v memo)
        (∀ t slot, v.base = .merged t slot → x.Made slot)
  | fuel, visiting, v, memo, hmemo => by
    unfold trackableFrom
    split
    · exact ⟨hmemo, fun h => absurd h (by simp)⟩
    · rename_i t slot hb
      rw [hb]
      split
      · rename_i known hknown
        refine ⟨hmemo, fun h t' slot' heq => ?_⟩
        cases heq
        exact hmemo slot (hknown.trans (congrArg some h))
      · split
        · exact ⟨hmemo, fun h => absurd h (by simp)⟩
        · cases fuel with
          | zero => exact ⟨hmemo, fun h => absurd h (by simp)⟩
          | succ fuel =>
            have htest : ∀ m memo, x.MemoSound memo → x.Judges
                (if m.creation?.isSome then x.trackableFrom fuel (slot :: visiting) m memo
                  else (false, memo)) (m.creation?.isSome) := by
              intro m memo hmemo
              split
              · rename_i hm
                exact ⟨(trackableFrom_judges x fuel _ m memo hmemo).1, fun _ => hm⟩
              · exact ⟨hmemo, fun h => absurd h (by simp)⟩
            obtain ⟨hsound, hall⟩ := allWith_judges htest (x.members slot) memo hmemo
            have hmade : (!(x.members slot).isEmpty && (allWith (fun m memo =>
                if m.creation?.isSome then x.trackableFrom fuel (slot :: visiting) m memo
                  else (false, memo)) (x.members slot) memo).1) = true → x.Made slot := by
              intro h
              rw [Bool.and_eq_true] at h
              exact ⟨by simpa using h.1, hall h.2⟩
            refine ⟨fun s hs => ?_, fun h t' slot' heq => ?_⟩
            · simp only [lookup_cons_if] at hs
              split at hs
              · rename_i hslot
                exact hslot ▸ hmade (Option.some.inj hs)
              · exact hsound s hs
            · cases heq
              exact hmade h
    · rename_i hmerged
      exact ⟨hmemo, fun _ t slot hb => absurd hb (hmerged t slot)⟩

end MergeIndex

/-! ## 2. Plans that are ready -/

/-- A method whose analysis is one, and whose calls are made as their names say. -/
structure PlanContext.Regular (c : PlanContext) : Prop where
  sound : c.analysis.Sound c.method
  grounded : c.analysis.Grounded c.method
  calls : ∀ target, .invoke target ∈ c.method.insns → target.Regular

namespace PlanContext.Regular

variable {c : PlanContext} {k : Nat} {i : Insn} {f : Frame}

theorem clone_ret (hc : c.Regular) (hi : c.method.insns[k]? = some i) (target : MethodRef)
    (htarget : i = .invoke target) (hclone : (Carrier.clonedArray? target).isSome) :
    target.desc.ret ≠ .void :=
  ((hc.calls target (List.mem_of_getElem? (htarget ▸ hi))).clone hclone).2

variable (hc : c.Regular) (hi : c.method.insns[k]? = some i) (hf : c.analysis.frame? k = some f)
include hc hi hf

theorem pops_le : i.pops ≤ f.stack.length := hc.sound.pops_le hi hf (hc.clone_ret hi)

theorem stays : i.Stays c.method.maxLocals c.analysis.maxStack f.stack.length where
  slot _ hl := hc.sound.local_lt hi hf hl
  operands := hc.pops_le hi hf
  before := (hc.grounded.heights k i f hi hf).1
  after := (hc.grounded.heights k i f hi hf).2

omit hi in
/-- An element that is read is told by two operands. -/
theorem element_room (hk : Plan.ReadsElement c.method k) : 2 ≤ f.stack.length := by
  rcases hk with ⟨t, hi⟩ | ⟨target, hi, hchar⟩
  · exact hc.pops_le hi hf
  · have hpops : (Insn.invoke target).pops = target.operandCount := rfl
    have hcount := (hc.calls target (List.mem_of_getElem? hi)).charAt_operandCount hchar
    exact hcount ▸ hpops ▸ hc.pops_le hi hf

end PlanContext.Regular

namespace Plan

variable {c : PlanContext} {S : List Site} {late : Nat → Prop} {p q : Plan} {k : Nat} {i : Insn}
  {f : Frame} {v : FlowValue} {code : List Insn}

/-- Code in front of an instruction comes back to the height there. -/
def FitsBefore (c : PlanContext) (slots depth : Nat) (e : Nat × List Insn) : Prop :=
  ∃ f, c.analysis.frame? e.1 = some f ∧ Straight slots depth f.stack.length e.2 f.stack.length

/-- Code behind an instruction comes back to the height that the instruction leaves. -/
def FitsAfter (c : PlanContext) (slots depth : Nat) (e : Nat × List Insn) : Prop :=
  ∃ i f, c.method.insns[e.1]? = some i ∧ c.analysis.frame? e.1 = some f ∧
    Straight slots depth (f.stack.length - i.pops + i.pushes) e.2
      (f.stack.length - i.pops + i.pushes)

/-- Code in place of an instruction goes on where the instruction does, at the height that it
leaves. -/
def Replaces (slots depth : Nat) (i : Insn) (height : Nat) (code : List Insn) : Prop :=
  ∃ straight j h, code = straight ++ [j] ∧ Straight slots depth height straight h ∧
    j.Stays slots depth h ∧ j.fallsThrough = i.fallsThrough ∧
    j.jumpTarget? = i.jumpTarget? ∧ h - j.pops + j.pushes = height - i.pops + i.pushes

def FitsInPlace (c : PlanContext) (slots depth : Nat) (e : Nat × List Insn) : Prop :=
  ∃ i f, c.method.insns[e.1]? = some i ∧ c.analysis.frame? e.1 = some f ∧
    Replaces slots depth i f.stack.length e.2

/-- Room above the stack in front of an instruction. -/
def RoomAt (c : PlanContext) (depth k room : Nat) : Prop :=
  ∃ f, c.analysis.frame? k = some f ∧ f.stack.length + room ≤ depth

/-- A plan from which planning can go on. -/
structure Ready (c : PlanContext) (late : Nat → Prop) (p : Plan) : Prop where
  pool : p.pool.Usable
  memo : c.analysis.merges.MemoSound p.memo
  depth : c.analysis.maxStack ≤ p.maxStack
  before : ∀ e ∈ p.before, FitsBefore c p.nextLocal p.maxStack e
  after : ∀ e ∈ p.after, FitsAfter c p.nextLocal p.maxStack e
  replaced : ∀ e ∈ p.replaced, FitsInPlace c p.nextLocal p.maxStack e
  /-- Beside the record of a call there is room for the point of an argument. -/
  arguments : ∀ e ∈ p.arguments, late e.1 ∨ RoomAt c p.maxStack e.1 2
  kept : ∀ e ∈ p.kept, RoomAt c p.maxStack e.1 1
  own : p.ownRecord.isSome → 1 ≤ p.maxStack

/-- More locals and more depth. -/
structure Widens (p q : Plan) : Prop where
  slots : p.nextLocal ≤ q.nextLocal
  depth : p.maxStack ≤ q.maxStack

section

variable {slots slots' depth depth' : Nat} {e : Nat × List Insn}

theorem FitsBefore.mono (hs : slots ≤ slots') (hd : depth ≤ depth')
    (h : FitsBefore c slots depth e) : FitsBefore c slots' depth' e := by
  obtain ⟨f, hf, hcode⟩ := h
  exact ⟨f, hf, hcode.mono hs hd⟩

theorem FitsAfter.mono (hs : slots ≤ slots') (hd : depth ≤ depth')
    (h : FitsAfter c slots depth e) : FitsAfter c slots' depth' e := by
  obtain ⟨i, f, hi, hf, hcode⟩ := h
  exact ⟨i, f, hi, hf, hcode.mono hs hd⟩

theorem FitsInPlace.mono (hs : slots ≤ slots') (hd : depth ≤ depth')
    (h : FitsInPlace c slots depth e) : FitsInPlace c slots' depth' e := by
  obtain ⟨i, f, hi, hf, straight, j, x, hcode, hstraight, hj, hrest⟩ := h
  exact ⟨i, f, hi, hf, straight, j, x, hcode, hstraight.mono hs hd, hj.mono hs hd, hrest⟩

theorem RoomAt.mono {room : Nat} (hd : depth ≤ depth') (h : RoomAt c depth k room) :
    RoomAt c depth' k room := by
  obtain ⟨f, hf, hroom⟩ := h
  exact ⟨f, hf, Nat.le_trans hroom hd⟩

end

namespace Ready

/-- A ready plan with other locals, and with room for more. -/
theorem widen (h : p.Ready c late) (hw : p.Widens q) (hpool : q.pool = p.pool)
    (hmemo : q.memo = p.memo) (hbefore : q.before = p.before) (hafter : q.after = p.after)
    (hreplaced : q.replaced = p.replaced) (harguments : q.arguments = p.arguments)
    (hkept : q.kept = p.kept) (hown : q.ownRecord = p.ownRecord) : q.Ready c late where
  pool := hpool ▸ h.pool
  memo := hmemo ▸ h.memo
  depth := Nat.le_trans h.depth hw.depth
  before e he := (h.before e (hbefore ▸ he)).mono hw.slots hw.depth
  after e he := (h.after e (hafter ▸ he)).mono hw.slots hw.depth
  replaced e he := (h.replaced e (hreplaced ▸ he)).mono hw.slots hw.depth
  arguments e he := (h.arguments e (harguments ▸ he)).imp_right (RoomAt.mono hw.depth)
  kept e he := (h.kept e (hkept ▸ he)).mono hw.depth
  own hq := Nat.le_trans (h.own (hown ▸ hq)) hw.depth

theorem raise (h : p.Ready c late) (depth : Nat) :
    Ready c late { p with maxStack := max p.maxStack depth } :=
  h.widen ⟨Nat.le_refl _, Nat.le_max_left _ _⟩ rfl rfl rfl rfl rfl rfl rfl rfl

theorem addBefore (h : p.Ready c late) {e : Nat × List Insn}
    (he : FitsBefore c p.nextLocal p.maxStack e) :
    Ready c late { p with before := p.before ++ [e] } where
  __ := h
  before e' he' := by
    rcases List.mem_append.mp he' with he' | he'
    · exact h.before e' he'
    · exact List.mem_singleton.mp he' ▸ he

theorem addAfter (h : p.Ready c late) {e : Nat × List Insn}
    (he : FitsAfter c p.nextLocal p.maxStack e) :
    Ready c late { p with after := p.after ++ [e] } where
  __ := h
  after e' he' := by
    rcases List.mem_append.mp he' with he' | he'
    · exact h.after e' he'
    · exact List.mem_singleton.mp he' ▸ he

theorem replace (h : p.Ready c late) {e : Nat × List Insn}
    (he : FitsInPlace c p.nextLocal p.maxStack e) :
    Ready c late { p with replaced := e :: p.replaced } where
  __ := h
  replaced := List.forall_mem_cons.mpr ⟨he, h.replaced⟩

end Ready

/-! ## 3. Small steps -/

theorem stackBefore_gives (hf : c.analysis.frame? k = some f) (p : Plan) :
    Planning.Gives (stackBefore c k) p f.stack.length p := by
  unfold stackBefore
  rw [hf]
  exact Planning.gives_pure.mpr ⟨rfl, rfl⟩

theorem stackAfter_gives (hi : c.method.insns[k]? = some i) (hf : c.analysis.frame? k = some f)
    (p : Plan) :
    Planning.Gives (stackAfter c k) p (f.stack.length - i.pops + i.pushes) p := by
  unfold stackAfter
  refine Planning.gives_bind.mpr ⟨_, p, stackBefore_gives hf p, ?_⟩
  rw [hi]
  exact Planning.gives_pure.mpr ⟨rfl, rfl⟩

theorem newNullLocal_gives (p : Plan) : Planning.Gives newNullLocal p p.nextLocal
    { p with nextLocal := p.nextLocal + 1, nullLocals := p.nullLocals ++ [p.nextLocal] } := rfl

theorem requireStack_gives (depth : Nat) (p : Plan) :
    Planning.Gives (requireStack depth) p () { p with maxStack := max p.maxStack depth } := rfl

theorem pointCode_gives (h : p.loadPoint v = .ok code) : Planning.Gives (pointCode v) p code p := by
  unfold pointCode
  refine Planning.gives_read.mpr ?_
  rw [h]
  exact Planning.gives_pure.mpr ⟨rfl, rfl⟩

/-- **A value is judged**, and the plan stays ready. -/
theorem isTrackable_gives (h : p.Ready c late) (v : FlowValue) :
    ∃ followed memo, Planning.Gives (isTrackable c v) p followed { p with memo } ∧
      Ready c late { p with memo } ∧
      (followed = true → ∀ t slot, v.base = .merged t slot → c.analysis.merges.Made slot) := by
  obtain ⟨hsound, hmade⟩ := c.analysis.merges.trackableFrom_judges
    (c.analysis.merges.size + 1) [] v p.memo h.memo
  exact ⟨_, _, rfl, { h with memo := hsound }, hmade⟩

/-- **The own record** is there, and there is room for it. -/
theorem ensureStarted_gives (h : p.Ready c late) :
    ∃ l q, Planning.Gives ensureStarted p l q ∧ q.Ready c late := by
  unfold ensureStarted
  cases hown : p.ownRecord with
  | some l =>
    refine ⟨l, p, Planning.gives_read.mpr ?_, h⟩
    rw [hown]
    exact Planning.gives_pure.mpr ⟨rfl, rfl⟩
  | none =>
    let q : Plan := { p with
      nextLocal := p.nextLocal + 1, ownRecord := some p.nextLocal, maxStack := max p.maxStack 1 }
    have hw : p.Widens q := ⟨Nat.le_succ _, Nat.le_max_left _ _⟩
    refine ⟨p.nextLocal, q, Planning.gives_read.mpr ?_,
      ?_⟩
    · rw [hown]
      rfl
    · have hplain : Ready c late { q with ownRecord := p.ownRecord } :=
        h.widen ⟨hw.slots, hw.depth⟩ rfl rfl rfl rfl rfl rfl rfl rfl
      exact { hplain with own := fun _ => Nat.le_max_right _ _ }

/-! ## 4. Pieces of code -/

section Pieces

variable {slots depth h l : Nat}

/-- **The code for a point** puts it on the stack. -/
theorem Loading.straight (hp : p.Sound c S) (hcode : p.Loading code) (hd : h + 1 ≤ depth) :
    Straight p.nextLocal depth h code (h + 1) := by
  have hlocal : ∀ u l, p.localOf u = some l → l < p.nextLocal := fun u l hl => (hp.above u l hl).2
  cases hcode with
  | constant place | null =>
    simp [straight_cons, Insn.fallsThrough, Insn.jumpTarget?, Insn.local?, Insn.effect, Hook.effect]
    omega
  | read hl | merge hl | result hl | argument n hl =>
    have := hlocal _ _ hl
    simp [straight_cons, Insn.fallsThrough, Insn.jumpTarget?, Insn.local?, Insn.effect, Hook.effect]
    omega

/-- A point that is put into a local. -/
theorem straight_store (hl : l < slots) (hd : h + 1 ≤ depth) :
    Straight slots depth (h + 1) [.store l] h := by
  simp [straight_cons, Insn.fallsThrough, Insn.jumpTarget?, Insn.local?, Insn.effect]
  omega

/-- The point of an element is taken in front of the read. -/
theorem straight_element (hl : l < slots) (hh : 2 ≤ h) (hd : h + 2 ≤ depth) :
    Straight slots depth h ([.dup2, .hook .elementPoint] ++ [.store l]) h := by
  simp [straight_cons, Insn.fallsThrough, Insn.jumpTarget?, Insn.local?, Insn.effect, Hook.effect]
  omega

/-- Likewise the point of a field. -/
theorem straight_field {key : String} (hl : l < slots) (hh : 1 ≤ h) (hd : h + 1 ≤ depth) :
    Straight slots depth h ([.dup, .hook (.fieldPoint key)] ++ [.store l]) h := by
  simp [straight_cons, Insn.fallsThrough, Insn.jumpTarget?, Insn.local?, Insn.effect, Hook.effect]
  omega

/-- A field that is written gets its point first. -/
theorem straight_fieldStore {key : String} (hh : 2 ≤ h) (hd : h + 2 ≤ depth)
    (hcode : Straight slots depth (h + 1) code (h + 1 + 1)) :
    Straight slots depth h ([.dup2, .pop] ++ code ++ [.hook (.setFieldPoint key)]) h := by
  refine (Straight.append ?_ hcode).append ?_
  all_goals
    simp [straight_cons, Insn.fallsThrough, Insn.jumpTarget?, Insn.local?, Insn.effect, Hook.effect]
    omega

/-- A result is noted in the own record. -/
theorem straight_returning (hl : l < slots) (hd : h + 2 ≤ depth)
    (hcode : Straight slots depth (h + 1) code (h + 1 + 1)) :
    Straight slots depth h (.load l :: code ++ [.hook .invocationReturning]) h := by
  have hload : Straight slots depth h (.load l :: code) (h + 1 + 1) := by
    rw [straight_cons]
    simp [Insn.fallsThrough, Insn.jumpTarget?, Insn.local?, Insn.effect, hcode]
    omega
  refine hload.append ?_
  simp [straight_cons, Insn.fallsThrough, Insn.jumpTarget?, Insn.local?, Insn.effect, Hook.effect]
  omega

end Pieces

/-! ## 5. What the point of a value needs -/

theorem ensurePointLocal_gives {room : Nat} {take : List Insn} (h : p.Ready c late)
    (hf : c.analysis.frame? k = some f) (htake : ∀ slots depth l, l < slots →
      f.stack.length + room ≤ depth →
      Straight slots depth f.stack.length (take ++ [.store l]) f.stack.length) :
    ∃ q l, Planning.Gives (ensurePointLocal c k room take) p () q ∧ q.Ready c late ∧
      q.pointLocals.lookup k = some l := by
  unfold ensurePointLocal
  cases hk : p.pointLocals.lookup k with
  | some l =>
    refine ⟨p, l, Planning.gives_read.mpr ?_, h, hk⟩
    rw [if_neg (by simp [hk])]
    exact Planning.gives_pure.mpr ⟨rfl, rfl⟩
  | none =>
    let q₀ : Plan := { p with
      nextLocal := p.nextLocal + 1, nullLocals := p.nullLocals ++ [p.nextLocal]
      pointLocals := (k, p.nextLocal) :: p.pointLocals
      maxStack := max p.maxStack (f.stack.length + room) }
    let q : Plan := { q₀ with before := p.before ++ [(k, take ++ [.store p.nextLocal])] }
    have hw : p.Widens q := ⟨Nat.le_succ _, Nat.le_max_left _ _⟩
    have h₀ : q₀.Ready c late := h.widen ⟨hw.slots, hw.depth⟩ rfl rfl rfl rfl rfl rfl rfl rfl
    refine ⟨q, p.nextLocal, Planning.gives_read.mpr ?_,
      h₀.addBefore ⟨f, hf, htake _ _ _ (Nat.lt_succ_self _) (Nat.le_max_right _ _)⟩, ?_⟩
    · rw [if_pos (by simp [hk])]
      refine Planning.gives_bind.mpr ⟨_, _, newNullLocal_gives p, ?_⟩
      refine Planning.gives_bind.mpr ⟨(), _, Planning.gives_modify.mpr rfl, ?_⟩
      refine Planning.gives_bind.mpr ⟨(), _, Planning.gives_modify.mpr rfl, ?_⟩
      exact Planning.gives_bind.mpr ⟨_, _, stackBefore_gives hf _, rfl⟩
    · show ((k, p.nextLocal) :: p.pointLocals).lookup k = _
      simp

theorem keepRecord_gives (h : p.Ready c late) (hf : c.analysis.frame? k = some f) :
    ∃ q l, Planning.Gives (do
      let l ← newNullLocal
      modify fun p => { p with kept := (k, l) :: p.kept }
      requireStack ((← stackBefore c k) + 1)) p () q ∧ q.Ready c late ∧
      q.kept.lookup k = some l := by
  let q₀ : Plan := { p with
    nextLocal := p.nextLocal + 1, nullLocals := p.nullLocals ++ [p.nextLocal]
    maxStack := max p.maxStack (f.stack.length + 1) }
  let q : Plan := { q₀ with kept := (k, p.nextLocal) :: p.kept }
  have hw : p.Widens q := ⟨Nat.le_succ _, Nat.le_max_left _ _⟩
  have h₀ : q₀.Ready c late := h.widen ⟨hw.slots, hw.depth⟩ rfl rfl rfl rfl rfl rfl rfl rfl
  refine ⟨q, p.nextLocal, ?_, { h₀ with
    kept := List.forall_mem_cons.mpr ⟨⟨f, hf, Nat.le_max_right _ _⟩, h₀.kept⟩ }, ?_⟩
  · refine Planning.gives_bind.mpr ⟨_, _, newNullLocal_gives p, ?_⟩
    refine Planning.gives_bind.mpr ⟨(), _, Planning.gives_modify.mpr rfl, ?_⟩
    exact Planning.gives_bind.mpr ⟨_, _, stackBefore_gives hf _, rfl⟩
  · show ((k, p.nextLocal) :: p.kept).lookup k = _
    simp

theorem trackConstant_gives (h : p.Ready c late) (k : Nat) (value : Int64) :
    ∃ q place, Planning.Gives (do
      let place ← trackConstant c value
      modify fun p => { p with constants := (k, place) :: p.constants }) p () q ∧ q.Ready c late ∧
      q.constants.lookup k = some place := by
  obtain ⟨place, pool, hpool, husable⟩ := LiteralPool.constant_isOk h.pool c.method value
  refine ⟨{ p with pool, constants := (k, place) :: p.constants }, place, ?_,
    { h with pool := husable }, by simp⟩
  refine Planning.gives_bind.mpr ⟨place, { p with pool }, ?_, Planning.gives_modify.mpr rfl⟩
  unfold trackConstant
  refine Planning.gives_read.mpr ?_
  rw [hpool]
  rfl

/-- **A member is noted** as soon as it is there. -/
theorem stashMember_gives (hc : c.Regular) (hp : p.Sound c S) (h : p.Ready c late)
    {slot : MergeSlot} {l : Nat} (hl : p.localOf (.merge slot) = some l)
    (hload : p.loadPoint v = .ok code) (hknows : c.analysis.Knows v) (hmade : v.creation?.isSome) :
    ∃ q, Planning.Gives (stashMember c slot l v) p () q ∧ q.Ready c late := by
  have hslot : l < p.nextLocal := (hp.above _ l hl).2
  have hstraight : ∀ h depth, h + 1 ≤ depth →
      Straight p.nextLocal depth h (code ++ [.store l]) h := fun h depth hd =>
    ((loading_of_loadPoint hload).straight hp hd).append (straight_store hslot hd)
  unfold stashMember
  split
  · rename_i t inner
    obtain ⟨f, hf⟩ := Option.isSome_iff_exists.mp (hknows inner.insn (List.mem_singleton.mpr rfl))
    have hr := h.raise (f.stack.length + 1)
    refine ⟨_, ?_, hr.addBefore (e := (inner.insn, code ++ [.store l]))
      ⟨f, hf, hstraight _ _ (Nat.le_max_right _ _)⟩⟩
    refine Planning.gives_bind.mpr ⟨code, p, pointCode_gives hload, ?_⟩
    refine Planning.gives_bind.mpr ⟨_, _, stackBefore_gives hf p, ?_⟩
    exact Planning.gives_bind.mpr ⟨_, _, requireStack_gives _ p, rfl⟩
  · obtain ⟨k, hk⟩ := Option.isSome_iff_exists.mp hmade
    obtain ⟨f, hf⟩ := Option.isSome_iff_exists.mp (hknows k (FlowValue.mem_places_of_creation hk))
    obtain ⟨i, hi⟩ := hc.grounded.inside k f hf
    have hr := h.raise (f.stack.length - i.pops + i.pushes + 1)
    refine ⟨_, ?_, hr.addAfter (e := (k, code ++ [.store l]))
      ⟨i, f, hi, hf, hstraight _ _ (Nat.le_max_right _ _)⟩⟩
    refine Planning.gives_bind.mpr ⟨code, p, pointCode_gives hload, ?_⟩
    rw [hk]
    refine Planning.gives_bind.mpr ⟨_, _, stackAfter_gives hi hf p, ?_⟩
    exact Planning.gives_bind.mpr ⟨_, _, requireStack_gives _ p, rfl⟩

/-! ## 6. Merges below each other -/

/-- How many merges have not been planned. -/
def unplanned (c : PlanContext) (p : Plan) : Nat :=
  c.analysis.merges.entries.countP fun e => (p.mergeLocals.lookup e.1).isNone

theorem Extends.planned (h : p.Extends q) {slot : MergeSlot}
    (hq : q.mergeLocals.lookup slot = none) : p.mergeLocals.lookup slot = none := by
  cases hp : p.mergeLocals.lookup slot with
  | none => rfl
  | some r =>
    cases r with
    | none => simp [h.untracked slot hp] at hq
    | some l =>
      have hl := h.localOf (.merge slot) l (by simp [Plan.localOf, hp])
      simp [Plan.localOf, hq] at hl

theorem Extends.unplanned_le (h : p.Extends q) : unplanned c q ≤ unplanned c p := by
  refine List.countP_mono_left fun e _ he => ?_
  rw [Option.isNone_iff_eq_none] at he ⊢
  exact h.planned he

/-- **A merge with members that is planned** leaves fewer that are not. -/
theorem Extends.unplanned_lt (h : p.Extends q) {slot : MergeSlot}
    (hmembers : c.analysis.merges.members slot ≠ []) (hp : p.mergeLocals.lookup slot = none)
    (hq : q.mergeLocals.lookup slot ≠ none) : unplanned c q < unplanned c p := by
  obtain ⟨vs, hentry⟩ := c.analysis.merges.exists_entry hmembers
  obtain ⟨a, b, hab⟩ := List.append_of_mem hentry
  have hle (l : List (MergeSlot × List FlowValue)) :
      l.countP (fun e => (q.mergeLocals.lookup e.1).isNone) ≤
        l.countP fun e => (p.mergeLocals.lookup e.1).isNone := by
    refine List.countP_mono_left fun e _ he => ?_
    rw [Option.isNone_iff_eq_none] at he ⊢
    exact h.planned he
  have ha := hle a
  have hb := hle b
  have hq' : (q.mergeLocals.lookup slot).isNone = false := by simpa using hq
  simp only [unplanned, hab, List.countP_append, List.countP_cons, hp, hq', Option.isNone_none]
  simp only [Bool.false_eq_true, if_false, if_true]
  omega

theorem unplanned_pos {slot : MergeSlot} (hmembers : c.analysis.merges.members slot ≠ [])
    (hp : p.mergeLocals.lookup slot = none) : 0 < unplanned c p := by
  obtain ⟨vs, hentry⟩ := c.analysis.merges.exists_entry hmembers
  exact List.countP_pos_iff.mpr ⟨_, hentry, by simp [hp]⟩

theorem unplanned_le_size (c : PlanContext) (p : Plan) :
    unplanned c p ≤ c.analysis.merges.size + 1 :=
  Nat.le_succ_of_le List.countP_le_length

/-- Every member is planned and noted. -/
theorem noteMembers_gives (hc : c.Regular) {slot : MergeSlot} {l fuel : Nat}
    (hbelow : ∀ v ∈ c.analysis.merges.members slot, ∀ p : Plan, p.Sound c S → p.Ready c late →
      unplanned c p ≤ fuel → ∃ q code, Planning.Gives (ensureTrackedFrom c fuel v) p () q ∧
        q.Ready c late ∧ q.loadPoint v = .ok code) :
    ∀ (ms : List FlowValue) {p : Plan},
    (∀ v ∈ ms, v ∈ c.analysis.merges.members slot ∧ v.creation?.isSome) →
    p.localOf (.merge slot) = some l → p.Sound c S → p.Ready c late → unplanned c p ≤ fuel →
    ∃ q, Planning.Gives (forEach (fun v => do
      ensureTrackedFrom c fuel v
      stashMember c slot l v) ms) p () q ∧ q.Ready c late ∧ p.Extends q := by
  intro ms
  induction ms with
  | nil => exact fun _ _ _ h _ => ⟨_, Planning.gives_pure.mpr ⟨rfl, rfl⟩, h, .refl _⟩
  | cons v ms ih =>
    intro p hms hl hp h hfuel
    obtain ⟨⟨hmember, hmade⟩, hrest⟩ := List.forall_mem_cons.mp hms
    obtain ⟨p₁, code, htrack, h₁, hload⟩ := hbelow v hmember p hp h hfuel
    obtain ⟨hp₁, hext₁⟩ := (ensureTrackedFrom_steps hc.sound fuel (V := [])
      (hc.sound.members slot v hmember) (by simp) htrack).leads hp
    have hl₁ := hext₁.localOf _ _ hl
    obtain ⟨p₂, hstash, h₂⟩ := stashMember_gives hc hp₁ h₁ hl₁ hload
      (hc.grounded.members slot v hmember) hmade
    obtain ⟨hp₂, hext₂⟩ := (stashMember_steps (V := []) hstash hl₁ hmember).1.leads hp₁
    have hfuel₂ := Nat.le_trans (hext₁.trans hext₂).unplanned_le hfuel
    obtain ⟨q, hq, hready, hext₃⟩ := ih hrest (hext₂.localOf _ _ hl₁) hp₂ h₂ hfuel₂
    exact ⟨q,
      Planning.gives_bind.mpr ⟨(), p₂, Planning.gives_bind.mpr ⟨(), p₁, htrack, hstash⟩, hq⟩,
      hready, (hext₁.trans hext₂).trans hext₃⟩

/-- A merge that was judged trackable and is planned for the first time. -/
theorem ensureMerge_gives (hc : c.Regular) {slot : MergeSlot} (fuel : Nat)
    (hmade : c.analysis.merges.Made slot) (hfree : p.mergeLocals.lookup slot = none)
    (hbelow : ∀ v ∈ c.analysis.merges.members slot, ∀ p : Plan, p.Sound c S → p.Ready c late →
      unplanned c p ≤ fuel → ∃ q code, Planning.Gives (ensureTrackedFrom c fuel v) p () q ∧
        q.Ready c late ∧ q.loadPoint v = .ok code)
    (hp : p.Sound c S) (h : p.Ready c late) (hfuel : unplanned c p ≤ fuel + 1) :
    ∃ q l, Planning.Gives (do
      let l ← newNullLocal
      modify fun p => { p with mergeLocals := (slot, some l) :: p.mergeLocals }
      forEach (fun member => do
        ensureTrackedFrom c fuel member
        stashMember c slot l member) (c.analysis.merges.members slot)) p () q ∧ q.Ready c late ∧
      q.mergeLocals.lookup slot = some (some l) := by
  let p₁ : Plan := { p with
    nextLocal := p.nextLocal + 1, nullLocals := p.nullLocals ++ [p.nextLocal]
    mergeLocals := (slot, some p.nextLocal) :: p.mergeLocals }
  have hlookup : p₁.mergeLocals.lookup slot = some (some p.nextLocal) := by simp [p₁]
  have hl : p₁.localOf (.merge slot) = some p.nextLocal := by simp [localOf, hlookup]
  obtain ⟨hp₁, hext⟩ := leads_newMerge (S := S) hfree hp
  have hlt : unplanned c p₁ < unplanned c p :=
    hext.unplanned_lt hmade.1 hfree (by rw [hlookup]; simp)
  have hfuel₁ : unplanned c p₁ ≤ fuel := by omega
  have h₁ : p₁.Ready c late :=
    h.widen ⟨Nat.le_succ _, Nat.le_refl _⟩ rfl rfl rfl rfl rfl rfl rfl rfl
  obtain ⟨q, hq, hready, hext'⟩ := noteMembers_gives hc hbelow
    (c.analysis.merges.members slot) (fun v hv => ⟨hv, hmade.2 v hv⟩) hl hp₁ h₁ hfuel₁
  have hq' := hext'.localOf _ _ hl
  refine ⟨q, p.nextLocal, ?_, hready, by simpa [localOf, Option.join_eq_some_iff] using hq'⟩
  refine Planning.gives_bind.mpr ⟨_, _, newNullLocal_gives p, ?_⟩
  exact Planning.gives_bind.mpr ⟨(), p₁, Planning.gives_modify.mpr rfl, hq⟩

/-- **The point of a merge**: what is there already, null if the merge cannot be followed, or a
local of its own.  The fuel is the number of merges left, so it does not run out. -/
theorem mergePoint_gives (hc : c.Regular) {t : Ty} {slot : MergeSlot} {fuel : Nat}
    (hb : v.base = .merged t slot)
    (hbelow : ∀ less, fuel = less + 1 → ∀ v ∈ c.analysis.merges.members slot, ∀ p : Plan,
      p.Sound c S → p.Ready c late → unplanned c p ≤ less →
      ∃ q code, Planning.Gives (ensureTrackedFrom c less v) p () q ∧ q.Ready c late ∧
        q.loadPoint v = .ok code)
    (hp : p.Sound c S) (h : p.Ready c late) (hfuel : unplanned c p ≤ fuel) :
    ∃ q code, Planning.Gives (ensureTrackedFrom c fuel v) p () q ∧ q.Ready c late ∧
      q.loadPoint v = .ok code := by
  unfold ensureTrackedFrom loadPoint
  simp only [hb]
  cases hk : p.mergeLocals.lookup slot with
  | some r =>
    refine ⟨p, r.elim [.const .null] fun l => [.load l], Planning.gives_read.mpr ?_, h,
      by cases r <;> simp only [hk, Option.elim]⟩
    rw [if_pos (by simp [hk])]
    exact Planning.gives_pure.mpr ⟨rfl, rfl⟩
  | none =>
    obtain ⟨followed, memo, hfollowed, h₁, hmade⟩ := isTrackable_gives h (.merged t slot)
    have hp₁ := (leads_memo p memo hp).1
    cases followed with
    | false =>
      refine ⟨{ p with memo, mergeLocals := (slot, none) :: p.mergeLocals }, [.const .null],
        Planning.gives_read.mpr ?_,
        h₁.widen ⟨Nat.le_refl _, Nat.le_refl _⟩ rfl rfl rfl rfl rfl rfl rfl rfl, by simp⟩
      rw [if_neg (by simp [hk])]
      exact Planning.gives_bind.mpr ⟨false, _, hfollowed, Planning.gives_modify.mpr rfl⟩
    | true =>
      have hslot := hmade rfl t slot rfl
      obtain ⟨less, rfl⟩ : ∃ less, fuel = less + 1 :=
        Nat.exists_eq_add_one.mpr (Nat.lt_of_lt_of_le (unplanned_pos hslot.1 hk) hfuel)
      obtain ⟨q, l, hq, hready, hl⟩ := ensureMerge_gives (S := S) hc (p := { p with memo })
        less hslot hk (hbelow less rfl) hp₁ h₁ hfuel
      refine ⟨q, [.load l], Planning.gives_read.mpr ?_, hready, by simp only [hl]⟩
      rw [if_neg (by simp [hk])]
      exact Planning.gives_bind.mpr ⟨true, _, hfollowed, hq⟩

/-- **Planning what the point of a value needs goes well**, and in the plan that it leads to there
is code for the point. -/
theorem ensureTrackedFrom_gives (hc : c.Regular) (fuel : Nat) : ∀ {v : FlowValue} {p : Plan},
    v.MadeIn c.method → c.analysis.Knows v → p.Sound c S → p.Ready c late → unplanned c p ≤ fuel →
    ∃ q code, Planning.Gives (ensureTrackedFrom c fuel v) p () q ∧ q.Ready c late ∧
      q.loadPoint v = .ok code := by
  induction fuel using Nat.strongRecOn with
  | ind fuel ih =>
    intro v p hmade hknows hp h hfuel
    have hplace : ∀ k ∈ v.base.places, ∃ f, c.analysis.frame? k = some f := fun k hk =>
      Option.isSome_iff_exists.mp (hknows k (v.base_places hk))
    unfold FlowValue.MadeIn at hmade
    unfold ensureTrackedFrom loadPoint
    cases hb : v.base with
    | constant t k value =>
      cases hk : p.constants.lookup k with
      | some place =>
        refine ⟨p, [.hook (.constantPoint place)], ?_, h, by simp only [hk]⟩
        refine Planning.gives_read.mpr ?_
        rw [if_neg (by simp [hk])]
        exact Planning.gives_pure.mpr ⟨rfl, rfl⟩
      | none =>
        obtain ⟨q, place, hq, hready, hk'⟩ := trackConstant_gives h k value
        refine ⟨q, [.hook (.constantPoint place)], ?_, hready, by simp only [hk']⟩
        refine Planning.gives_read.mpr ?_
        rw [if_pos (by simp [hk])]
        exact hq
    | element t k =>
      rw [hb] at hmade hplace
      obtain ⟨f, hf⟩ := hplace k (by simp [FlowValue.places])
      obtain ⟨q, l, hq, hready, hk⟩ := ensurePointLocal_gives h hf fun slots depth l hl hd =>
        straight_element hl (hc.element_room hf hmade) hd
      exact ⟨q, [.load l], hq, hready, by simp only [hk]⟩
    | field t k key =>
      rw [hb] at hmade hplace
      obtain ⟨fd, hi, rfl⟩ := hmade
      obtain ⟨f, hf⟩ := hplace k (by simp [FlowValue.places])
      obtain ⟨q, l, hq, hready, hk⟩ := ensurePointLocal_gives h hf fun slots depth l hl hd =>
        straight_field hl (hc.pops_le hi hf) hd
      exact ⟨q, [.load l], hq, hready, by simp only [hk]⟩
    | returned t k =>
      rw [hb] at hplace
      obtain ⟨f, hf⟩ := hplace k (by simp [FlowValue.places])
      cases hk : p.kept.lookup k with
      | some l =>
        refine ⟨p, [.load l, .hook .invocationReturnPoint], ?_, h, by simp only [hk]⟩
        refine Planning.gives_read.mpr ?_
        rw [if_neg (by simp [hk])]
        exact Planning.gives_pure.mpr ⟨rfl, rfl⟩
      | none =>
        obtain ⟨q, l, hq, hready, hk'⟩ := keepRecord_gives h hf
        refine ⟨q, [.load l, .hook .invocationReturnPoint], ?_, hready, by simp only [hk']⟩
        refine Planning.gives_read.mpr ?_
        rw [if_pos (by simp [hk])]
        exact hq
    | argument t n =>
      obtain ⟨l, q, hq, hready⟩ := ensureStarted_gives h
      obtain ⟨-, hl⟩ := ensureStarted_steps (c := c) (V := []) hq
      have hown : q.ownRecord = some l := hl
      exact ⟨q, [.load l, .hook (.invocationArgPoint n)],
        Planning.gives_bind.mpr ⟨l, q, hq, Planning.gives_pure.mpr ⟨rfl, rfl⟩⟩, hready,
        by simp only [hown]⟩
    | merged t slot =>
      have hmerge := mergePoint_gives hc hb (fun less hless v hv p hp h hfuel => ih less (by omega)
        (hc.sound.members slot v hv) (hc.grounded.members slot v hv) hp h hfuel) hp h hfuel
      unfold ensureTrackedFrom loadPoint at hmerge
      rwa [hb] at hmerge
    | untrackable t => exact ⟨p, [.const .null], Planning.gives_pure.mpr ⟨rfl, rfl⟩, h, rfl⟩
    | cast t k v' => exact ⟨p, [.const .null], Planning.gives_pure.mpr ⟨rfl, rfl⟩, h, rfl⟩
    | copy k v' => exact ⟨p, [.const .null], Planning.gives_pure.mpr ⟨rfl, rfl⟩, h, rfl⟩

/-- **Every value gets code for its point**, from whichever plan on. -/
theorem ensureTracked_gives (hc : c.Regular) (hmade : v.MadeIn c.method)
    (hknows : c.analysis.Knows v) (hp : p.Sound c S) (h : p.Ready c late) :
    ∃ q code, Planning.Gives (ensureTracked c v) p () q ∧ q.Ready c late ∧
      q.loadPoint v = .ok code :=
  ensureTrackedFrom_gives hc _ hmade hknows hp h (unplanned_le_size c p)

theorem pointOrNull_gives (hc : c.Regular) (hmade : v.MadeIn c.method)
    (hknows : c.analysis.Knows v) (hp : p.Sound c S) (h : p.Ready c late) :
    ∃ q code, Planning.Gives (pointOrNull c v) p code q ∧ q.Ready c late := by
  obtain ⟨followed, memo, hfollowed, h₁, -⟩ := isTrackable_gives h v
  unfold pointOrNull
  cases followed with
  | false =>
    exact ⟨_, [.const .null],
      Planning.gives_bind.mpr ⟨false, _, hfollowed, Planning.gives_pure.mpr ⟨rfl, rfl⟩⟩, h₁⟩
  | true =>
    obtain ⟨q, code, hq, hready, hload⟩ :=
      ensureTracked_gives (S := S) hc hmade hknows (leads_memo p memo hp).1 h₁
    exact ⟨q, code, Planning.gives_bind.mpr ⟨true, _, hfollowed,
      Planning.gives_bind.mpr ⟨(), q, hq, pointCode_gives hload⟩⟩, hready⟩

end Plan

end Provenance
