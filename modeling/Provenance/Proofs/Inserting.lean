/-
# Woven code is the original with insertions

A woven method is a prologue and then, for each instruction of the original, code in front of it,
the instruction or what takes its place, and code behind it (`Insertions`).  What is inserted keeps
to itself, a label keeps its place in front of the code that belongs to it, and every jump leads to
the label it led to.

Section 2 is about the ways through a woven method: all of them come through the prologue, and so
each new local is set before anything loads it.  `Weaver.weaveMethod_insertions` puts this together
with what is planned only once, for whatever method a weaver changes.
-/
import Provenance.Proofs.Attributing
import Provenance.Proofs.PlannedOnce

namespace Provenance

/-! ## 1. An instruction with the code around it -/

/-- How an instruction is laid out with the code around it: at a label the code stands behind the
label. -/
def layOut (i : Insn) (ahead instead behind : List Insn) : List Insn :=
  match i with
  | .label _ => i :: (ahead ++ behind)
  | _ => ahead ++ (instead ++ behind)

/-- The labels that code may jump to. -/
def jumpsOf (code : List Insn) : List Nat := code.filterMap Insn.jumpTarget?

/-- Whether an instruction reads an element or a field. -/
def Insn.Reads (i : Insn) : Prop :=
  (∃ t, i = .arrayLoad t) ∨ (∃ target, i = .invoke target ∧ Carrier.isCharAt target = true) ∨
    ∃ fd, i = .getField fd

/-- An instruction of a method among the code that stands around it in the method `m'` that is woven
with a plan `p`. -/
structure Surrounded (c : PlanContext) (m' : Method) (sites : List Site) (p : Plan)
    (k : Nat) (i : Insn) (ahead instead behind : List Insn) : Prop where
  front : SelfContained c.method.maxLocals m'.maxLocals ahead
  back : SelfContained c.method.maxLocals m'.maxLocals behind
  /-- Only at sites of some kinds something else stands in its place, and then what replaces it
  there. -/
  place : instead = [i] ∨ (∃ s ∈ sites, s.insn = k ∧ s.action.kind.replaces = true) ∧
    Plan.ReplacedPiece c sites p k instead ∧
    Uncounted instead ∧ ∀ j ∈ instead, j.KeepsTo c.method.maxLocals m'.maxLocals
  labels : labelsOf (layOut i ahead instead behind) = i.label?.toList
  jumps : jumpsOf (layOut i ahead instead behind) = i.jumpTarget?.toList
  /-- The point of what is read is taken once. -/
  points : ahead.countP Tally.point.counts ≤ 1 ∧ (¬ i.Reads → ahead.countP Tally.point.counts = 0)
  /-- A call gets one record. -/
  records : ahead.countP Tally.record.counts ≤ 1 ∧
    ((∀ target, i ≠ .invoke target) → ahead.countP Tally.record.counts = 0)
  claims : ahead.countP Tally.claim.counts = 0
  uncounted : ∀ t : Tally, behind.countP t.counts = 0

/-- A method `m'` that is another one with insertions, made for sites of that one with a plan `p`.
-/
structure Insertions (c : PlanContext) (m' : Method) (sites : List Site) (p : Plan)
    (prologue : List Insn) (blocks : List (List Insn)) : Prop where
  same : m' =
    { c.method with maxLocals := m'.maxLocals, maxStack := m'.maxStack, insns := m'.insns }
  room : c.method.maxLocals ≤ m'.maxLocals
  insns : m'.insns = prologue ++ blocks.flatten
  length : blocks.length = c.method.insns.length
  opening : SelfContained c.method.maxLocals m'.maxLocals prologue
  /-- The method claims its own record once, in the prologue. -/
  claims : prologue.countP Tally.claim.counts ≤ 1
  others : ∀ t : Tally, t ≠ .claim → prologue.countP t.counts = 0
  surrounded : ∀ k i, c.method.insns[k]? = some i → ∃ ahead instead behind,
    blocks[k]? = some (layOut i ahead instead behind) ∧
    Surrounded c m' sites p k i ahead instead behind

theorem jumpsOf_append (a b : List Insn) : jumpsOf (a ++ b) = jumpsOf a ++ jumpsOf b :=
  List.filterMap_append

theorem SelfContained.jumps {first last : Nat} {code : List Insn}
    (h : SelfContained first last code) :
    jumpsOf code = [] :=
  List.filterMap_eq_nil_iff.mpr fun i hi => (h.onward i hi).2.1

theorem jumpsOf_singleton (i : Insn) : jumpsOf [i] = i.jumpTarget?.toList := by
  cases h : i.jumpTarget? <;> simp [jumpsOf, h]

namespace Plan

variable {c : PlanContext} {S : List Site} {pool : LiteralPool} {done : List Nat}
    {p : Plan} {k : Nat}
  {i : Insn} {code : List Insn}

/-- What takes the place of an instruction jumps where the instruction did. -/
theorem ReplacedPiece.jumps (h : ReplacedPiece c S p k code) (hi : c.method.insns[k]? = some i) :
    jumpsOf code = i.jumpTarget?.toList := by
  have hkind : ∀ {j}, c.method.insns[k]? = some j → i = j :=
    fun hj => Option.some.inj (hi.symm.trans hj)
  have hloads : ∀ {loads : List Insn}, (∀ j ∈ loads, Insn.Inserted i j) → jumpsOf loads = [] :=
    fun h => List.filterMap_eq_nil_iff.mpr fun j hj => (h j hj).jumpTarget?
  cases h with
  | arrayStore hi' _ hcode =>
    rw [jumpsOf_append, hloads (loading_of_pointCode hcode).inserted, hkind hi']
    rfl
  | concat hi' _ hmarked =>
    rw [jumpsOf_append, hloads hmarked.inserted, hkind hi']
    rfl
  | @stringComparison equal target hi' _ =>
    rw [hkind hi']
    cases equal <;> rfl
  | arrayCopy hi' _ | arrayClone hi' _ _ =>
    rw [hkind hi']
    rfl

theorem block_eq_layOut (p : Plan) (k : Nat) (i : Insn) :
    p.block k i = layOut i (p.ahead k i) (p.inPlace k i) (p.behind k) := by
  cases hlabel : i.label? with
  | none =>
    rw [block_other p k hlabel]
    cases i <;> first | rfl | simp [Insn.label?] at hlabel
  | some l =>
    cases i <;> first | rfl | simp [Insn.label?] at hlabel

theorem jumpsOf_inPlace (hp : p.Sound c S) (hi : c.method.insns[k]? = some i) :
    jumpsOf (p.inPlace k i) = i.jumpTarget?.toList := by
  unfold inPlace
  cases hk : p.replaced.lookup k with
  | none => exact jumpsOf_singleton i
  | some code => exact (hp.replaced _ (mem_of_lookup hk)).jumps hi

theorem jumpsOf_block (hp : p.Sound c S) (hi : c.method.insns[k]? = some i) :
    jumpsOf (p.block k i) = i.jumpTarget?.toList := by
  have hahead := (ahead_selfContained hp hi).jumps
  have hbehind := (behind_selfContained hp k).jumps
  cases hlabel : i.label? with
  | none =>
    rw [block_other p k hlabel, jumpsOf_append, jumpsOf_append, hahead, hbehind,
      jumpsOf_inPlace hp hi, List.nil_append, List.append_nil]
  | some l =>
    cases i with
    | label l' =>
      rw [block_label, ← List.singleton_append, jumpsOf_append, jumpsOf_append, hahead, hbehind]
      rfl
    | _ => simp [Insn.label?] at hlabel

/-- A point is taken only in front of an instruction that reads something. -/
theorem BeforePiece.reads (h : BeforePiece c p k code) (hi : c.method.insns[k]? = some i)
    (hreads : ¬ i.Reads) : code.countP Tally.point.counts = 0 := by
  have hkind : ∀ {j}, c.method.insns[k]? = some j → i = j :=
    fun hj => Option.some.inj (hi.symm.trans hj)
  cases h with
  | element _ hread =>
    refine absurd ?_ hreads
    rcases hread with ⟨t, ht⟩ | ⟨target, htarget, hchar⟩
    · exact Or.inl ⟨t, hkind ht⟩
    · exact Or.inr (Or.inl ⟨target, hkind htarget, hchar⟩)
  | field _ hfield => exact absurd (Or.inr (Or.inr ⟨_, hkind hfield⟩)) hreads
  | join _ _ _ hcode =>
    rw [List.countP_append, (loading_of_loadPoint hcode).uncounted.countP]
    rfl
  | fieldStore _ _ hcode =>
    rw [List.countP_append, List.countP_append, (loading_of_pointCode hcode).uncounted.countP]
    rfl
  | returning _ _ _ _ hcode =>
    rw [List.cons_append, List.countP_cons, List.countP_append,
      (loading_of_loadPoint hcode).uncounted.countP]
    rfl

/-- **Every instruction** stands among code that keeps to itself. -/
theorem surrounded (hp : p.Sound c S) (ht : Tidy c S pool done p)
    (hi : c.method.insns[k]? = some i) :
    Surrounded c (p.woven c.method) S p k i (p.ahead k i) (p.inPlace k i) (p.behind k) := by
  have hrecord := fun t => recordCode_countP hp hi t
  have hbefore : ∀ t : Tally, t ≠ .point → (codeAt k p.before).countP t.counts = 0 := fun t ht =>
    codeAt_countP fun e he _ => (hp.before e he).countP ht
  have hahead : ∀ t : Tally, (p.ahead k i).countP t.counts =
      (codeAt k p.before).countP t.counts + (p.recordCode k i).countP t.counts := fun t =>
    List.countP_append
  refine ⟨ahead_selfContained hp hi, behind_selfContained hp k, ?_, ?_, ?_, ?_, ?_, ?_,
    behind_countP hp k⟩
  · unfold inPlace
    cases hk : p.replaced.lookup k with
    | none => exact Or.inl rfl
    | some code =>
      have hmem := mem_of_lookup hk
      have hpiece := hp.replaced _ hmem
      exact Or.inr ⟨ht.replaced _ hmem, hpiece, hpiece.uncounted, hpiece.fresh hp⟩
  · rw [← block_eq_layOut, block_labels hp]
  · rw [← block_eq_layOut, jumpsOf_block hp hi]
  · rw [hahead, (hrecord .point).2 (Or.inl (by simp)), Nat.add_zero]
    constructor
    · have hpoints := ht.points k
      split at hpoints <;> omega
    · exact fun hreads => codeAt_countP fun e he hk => (hp.before e he).reads (hk ▸ hi) hreads
  · rw [hahead, hbefore .record (by simp), Nat.zero_add]
    exact ⟨(hrecord .record).1, fun hcall => (hrecord .record).2 (Or.inr hcall)⟩
  · rw [hahead, hbefore .claim (by simp), (hrecord .claim).2 (Or.inl (by simp))]

/-- The blocks of a method, one for each instruction. -/
theorem blocks_flatten (p : Plan) : ∀ (insns : List Insn) (start : Nat),
    p.blocks start insns = (insns.mapIdx fun k i => p.block (start + k) i).flatten
  | [], _ => rfl
  | i :: rest, start => by
    rw [blocks, blocks_flatten p rest (start + 1), List.mapIdx_cons,
      List.flatten_cons, Nat.add_zero]
    congr 3
    funext k i
    rw [Nat.add_right_comm, Nat.add_assoc]

theorem insertions (hp : p.Sound c S) (ht : Tidy c S pool done p) :
    Insertions c (p.woven c.method) S p (p.prologue c.method)
      (c.method.insns.mapIdx fun k i => p.block k i) where
  same := rfl
  room := hp.room
  insns := by
    have h := blocks_flatten p c.method.insns 0
    simp only [Nat.zero_add] at h
    simp only [woven, h]
  length := List.length_mapIdx
  opening := prologue_selfContained hp c.method
  claims := (prologue_countP c.method .claim).1
  others t hne := (prologue_countP c.method t).2 hne
  surrounded k i hi := ⟨p.ahead k i, p.inPlace k i, p.behind k,
    by rw [List.getElem?_mapIdx, hi, Option.map_some, block_eq_layOut], surrounded hp ht hi⟩

end Plan

/-! ## 2. Ways through a method -/

/-- The ways through a method from its beginning: what was run, the latest first, and what comes
next. -/
inductive Method.Path (m : Method) : List Nat → Nat → Prop where
  | start : Path m [] 0
  | next {ran : List Nat} {pc : Nat} {i : Insn} (h : Path m ran pc) (hi : m.insns[pc]? = some i)
      (hfall : i.fallsThrough = true) : Path m (pc :: ran) (pc + 1)
  | jump {ran : List Nat} {pc target l : Nat} {i : Insn} (h : Path m ran pc)
      (hi : m.insns[pc]? = some i) (hl : i.jumpTarget? = some l) (ht : m.labelAt? l = some target) :
      Path m (pc :: ran) target

/-- **Every way comes through code at the beginning** that does not jump. -/
theorem Method.Path.through {m : Method} {code rest : List Insn} {ran : List Nat} {pc : Nat}
    (h : m.Path ran pc) (hm : m.insns = code ++ rest) (hcode : ∀ i ∈ code, i.jumpTarget? = none) :
    ∀ j < code.length, j < pc → j ∈ ran := by
  induction h with
  | start => exact fun j _ hj => absurd hj (Nat.not_lt_zero j)
  | @next ran pc i _ _ _ ih =>
    intro j hj hlt
    rcases Nat.lt_or_eq_of_le (Nat.le_of_lt_succ hlt) with hlt | rfl
    · exact List.mem_cons_of_mem pc (ih j hj hlt)
    · exact List.mem_cons_self
  | @jump ran pc target l i _ hi hl _ ih =>
    intro j hj _
    have hout : code.length ≤ pc := by
      refine Nat.le_of_not_lt fun hlt => ?_
      rw [hm, List.getElem?_append_left hlt] at hi
      rw [hcode i (List.mem_of_getElem? hi)] at hl
      exact absurd hl (by simp)
    exact List.mem_cons_of_mem pc (ih j hj (Nat.lt_of_lt_of_le hj hout))

namespace Plan

variable {c : PlanContext} {S : List Site} {pool : LiteralPool} {done : List Nat}
    {p : Plan} {l : Nat}

/-- The prologue sets every new local, and loads none. -/
theorem store_mem_prologue (ht : Tidy c S pool done p) (m : Method)
    (hfirst : c.method.maxLocals ≤ l) (hlast : l < p.nextLocal) : .store l ∈ p.prologue m := by
  unfold prologue
  rcases ht.locals l hfirst hlast with hnull | hown
  · exact List.mem_append_left _ (List.mem_flatMap.mpr ⟨l, hnull, by simp⟩)
  · rw [hown]
    exact List.mem_append_right _ (by simp)

theorem load_not_mem_prologue (m : Method) : .load l ∉ p.prologue m := by
  unfold prologue
  intro h
  rcases List.mem_append.mp h with h | h
  · obtain ⟨l', -, h⟩ := List.mem_flatMap.mp h
    simp at h
  · cases hown : p.ownRecord <;> simp [hown] at h

/-- **A new local is set before it is loaded**, whatever way leads there. -/
theorem assigned (hp : p.Sound c S) (ht : Tidy c S pool done p) {ran : List Nat} {pc : Nat}
    (h : (p.woven c.method).Path ran pc) (hi : (p.woven c.method).insns[pc]? = some (.load l))
    (hfirst : c.method.maxLocals ≤ l) (hlast : l < (p.woven c.method).maxLocals) :
    ∃ before ∈ ran, (p.woven c.method).insns[before]? = some (.store l) := by
  have hsplit := (insertions hp ht).insns
  obtain ⟨j, hj⟩ := List.getElem?_of_mem (store_mem_prologue ht c.method hfirst hlast)
  have hlt := (List.getElem?_eq_some_iff.mp hj).1
  have hpc : (p.prologue c.method).length ≤ pc := by
    refine Nat.le_of_not_lt fun hpc => ?_
    rw [hsplit, List.getElem?_append_left hpc] at hi
    exact load_not_mem_prologue c.method (List.mem_of_getElem? hi)
  refine ⟨j, ?_, ?_⟩
  · exact h.through hsplit
      (fun i hi => ((prologue_selfContained hp c.method).onward i hi).2.1) j hlt
      (Nat.lt_of_lt_of_le hlt hpc)
  · rw [hsplit, List.getElem?_append_left hlt]
    exact hj

end Plan

/-! ## 3. Methods that are woven -/

variable {w : Weaver} {breakInterning : Bool} {pool pool' : LiteralPool} {m m' : Method}
  {kinds : List SiteKind}

/-- The literals that stay registered are those of the plan. -/
theorem Weaver.weaveMethod_pool {a : Analysis} {p : Plan}
    (hplans : w.Plans breakInterning pool m a p)
    (h : w.weaveMethod breakInterning pool m = (.ok (some (m', kinds)), pool')) :
    p.pool = pool' := by
  have hrun : (Plan.planSites ⟨m, a⟩ (Site.find m a breakInterning)).run.run
      (Plan.start ⟨m, a⟩ pool) = (.ok (), p) := hplans.planned
  unfold weaveMethod at h
  simp only [hplans.analysed, hrun] at h
  split at h
  · exact absurd h (by simp)
  · split at h
    · split at h
      · exact absurd h (by simp)
      · exact congrArg Prod.snd h
    · exact absurd h (by simp)

/-- Chooses a character that is read or a literal, stores it twice and passes it to a call. -/
def storeTwice : Trial where
  method := ⟨"demo/A", "run", ⟨[.array .char, .array .char, .int], .void⟩, true, 4, 0,
    [.load 2, .ifZero .eq 0, .load 0, .const (.int 0), .arrayLoad .char, .goto 1, .label 0,
      .const (.int 65), .label 1, .store 3, .load 1, .const (.int 0), .load 3,
      .arrayStore .char, .load 1, .const (.int 1), .load 3, .arrayStore .char, .load 3,
      .invoke ⟨.static, "demo/A", "put", ⟨[.char], .void⟩⟩, .ret .void]⟩
  world := ⟨.empty, .empty .default, [], [], []⟩
  args := []

end Provenance
