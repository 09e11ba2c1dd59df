/-
# Heights of woven code

A woven method is its prologue, which begins with an empty stack, and one block for each instruction
of the original, which begins at the height that the analysis found there.  Along a block the height
comes back to the one before the instruction, follows the instruction or what stands in its place,
and stays from there on as the instruction left it (`Plan.block_along`).  So the blocks fit together
as the instructions did (`Plan.woven_fits`), and the depth that the woven method needs is not
greater than the one it declares.
-/
import Provenance.Proofs.Succeeding

namespace Provenance

namespace Plan

variable {c : PlanContext} {S : List Site} {p : Plan} {k : Nat} {i : Insn} {f : Frame}

/-! ## 1. Passages -/

/-- The height before an instruction of the original, if it is reached. -/
def heightBefore (c : PlanContext) (k : Nat) : Option Nat :=
  (c.analysis.frame? k).map fun f => f.stack.length

theorem heightBefore_of_frame (hf : c.analysis.frame? k = some f) :
    heightBefore c k = some f.stack.length := by
  simp [heightBefore, hf]

/-- The blocks of instructions, each at the height of its instruction. -/
def blockPassages (c : PlanContext) (p : Plan) (index : Nat) : List Insn → List Passage
  | [] => []
  | i :: rest => ⟨heightBefore c index, p.block index i⟩ :: blockPassages c p (index + 1) rest

/-- The passages of a woven method. -/
def passages (c : PlanContext) (p : Plan) : List Passage :=
  ⟨some 0, p.prologue c.method⟩ :: blockPassages c p 0 c.method.insns

theorem insns_blockPassages (c : PlanContext) (p : Plan) : ∀ (index : Nat) (insns : List Insn),
    Passage.insns (blockPassages c p index insns) = p.blocks index insns
  | _, [] => rfl
  | index, i :: rest => congrArg (p.block index i ++ ·) (insns_blockPassages c p (index + 1) rest)

/-- **The code of the passages** is the code of the woven method. -/
theorem insns_passages (c : PlanContext) (p : Plan) :
    (p.woven c.method).insns = Passage.insns (passages c p) :=
  congrArg (p.prologue c.method ++ ·) (insns_blockPassages c p 0 c.method.insns).symm

theorem take_blockPassages (c : PlanContext) (p : Plan) : ∀ (index n : Nat) (insns : List Insn),
    (blockPassages c p index insns).take n = blockPassages c p index (insns.take n)
  | _, 0, _ => rfl
  | _, _ + 1, [] => rfl
  | index, n + 1, _ :: rest => congrArg (_ :: ·) (take_blockPassages c p (index + 1) n rest)

/-- A block begins where its passage does. -/
theorem offset_passages (c : PlanContext) (p : Plan) (k : Nat) :
    Passage.offset (passages c p) (k + 1) = p.startOf c.method k := by
  unfold Passage.offset passages startOf
  rw [List.take_succ_cons, take_blockPassages, ← insns_blockPassages c]
  simp [Passage.insns]

theorem getElem?_blockPassages (c : PlanContext) (p : Plan) :
    ∀ (index k : Nat) (insns : List Insn), (blockPassages c p index insns)[k]? =
      (insns[k]?).map fun i => ⟨heightBefore c (index + k), p.block (index + k) i⟩
  | _, _, [] => rfl
  | _, 0, _ :: _ => rfl
  | index, k + 1, i :: rest => by
    simp only [blockPassages, List.getElem?_cons_succ,
      getElem?_blockPassages c p (index + 1) k rest, Nat.add_right_comm index 1 k, Nat.add_assoc]

theorem getElem?_passages (hi : c.method.insns[k]? = some i) :
    (passages c p)[k + 1]? = some ⟨heightBefore c k, p.block k i⟩ := by
  simp [passages, getElem?_blockPassages, hi]

/-- Every passage behind the prologue is a block. -/
theorem exists_block {s : Passage} (hs : (passages c p)[k + 1]? = some s) :
    ∃ i, c.method.insns[k]? = some i ∧ s = ⟨heightBefore c k, p.block k i⟩ := by
  simp only [passages, List.getElem?_cons_succ, getElem?_blockPassages, Option.map_eq_some_iff,
    Nat.zero_add] at hs
  obtain ⟨i, hi, rfl⟩ := hs
  exact ⟨i, hi, rfl⟩

/-! ## 2. The pieces of a block -/

/-- The depth that a woven method declares, if so much can be declared. -/
def depth (p : Plan) : Nat := if p.nullLocals.isEmpty then p.maxStack else max p.maxStack 1

theorem maxStack_le_depth (p : Plan) : p.maxStack ≤ p.depth := by
  unfold depth
  split
  · exact Nat.le_refl _
  · exact Nat.le_max_left _ _

section Pieces

variable {slots depth : Nat}

theorem codeAt_straight {h : Nat} {edits : List (Nat × List Insn)}
    (hall : ∀ e ∈ edits, e.1 = k → Straight slots depth h e.2 h) :
    Straight slots depth h (codeAt k edits) h := by
  refine straight_flatMap fun e he => ?_
  obtain ⟨j, code⟩ := e
  simp only
  split
  · rename_i hj
    exact hall _ he hj
  · rfl

variable (hp : p.Sound c S) (h : p.Ready c fun _ => False)
include hp h

/-- **The prologue** leaves an empty stack. -/
theorem prologue_straight (m : Method) : Straight p.nextLocal p.depth 0 (p.prologue m) 0 := by
  unfold prologue
  refine Straight.append (straight_flatMap fun l hl => ?_) ?_
  · have hroom : 1 ≤ p.depth := by
      unfold Plan.depth
      rw [if_neg (by simpa using List.ne_nil_of_mem hl)]
      exact Nat.le_max_right _ _
    have hslot := (hp.nulls l hl).2
    simp [straight_cons, Insn.fallsThrough, Insn.jumpTarget?, Insn.local?, Insn.effect]
    omega
  · cases hown : p.ownRecord with
    | none => rfl
    | some l =>
      have hroom : 1 ≤ p.depth :=
        Nat.le_trans (h.own (by simp [hown])) p.maxStack_le_depth
      have hslot := (hp.above .own l hown).2
      simp [straight_cons, Insn.fallsThrough, Insn.jumpTarget?, Insn.local?, Insn.effect,
        Hook.effect]
      omega

omit hp in
/-- A call that gets a record leaves room for it. -/
theorem recordCode_room (hcode : p.recordCode k i ≠ []) : RoomAt c p.maxStack k 1 := by
  unfold recordCode at hcode
  simp only at hcode
  split at hcode
  · exact absurd rfl hcode
  · rename_i hsome
    cases hkept : p.kept.lookup k with
    | some l => exact h.kept _ (mem_of_lookup hkept)
    | none =>
      simp only [hkept, Option.isNone_none, Bool.and_true, List.isEmpty_iff] at hsome
      obtain ⟨e, he⟩ := List.exists_mem_of_ne_nil _ hsome
      obtain ⟨hmem, hk⟩ := List.mem_filter.mp he
      obtain rfl : e.1 = k := of_decide_eq_true hk
      obtain ⟨f, hf, hroom⟩ := (h.arguments e hmem).resolve_left id
      exact ⟨f, hf, Nat.le_of_succ_le hroom⟩

variable (hf : c.analysis.frame? k = some f)
include hf

/-- The points of arguments are put into the record, which stays on top. -/
theorem argumentCode_straight :
    Straight p.nextLocal p.maxStack (f.stack.length + 1) (p.argumentCode k)
      (f.stack.length + 1) := by
  refine straight_flatMap fun e he => ?_
  obtain ⟨hmem, hk⟩ := List.mem_filter.mp he
  obtain rfl : e.1 = k := of_decide_eq_true hk
  obtain ⟨f', hf', hroom⟩ := (h.arguments e hmem).resolve_left id
  obtain rfl := Option.some.inj (hf.symm.trans hf')
  obtain ⟨_, _, _, _, _, hcode⟩ := (hp.arguments e hmem).call
  refine ((loading_of_loadPoint hcode).straight hp hroom).append ?_
  simp [straight_cons, Insn.fallsThrough, Insn.jumpTarget?, Insn.local?, Insn.effect, Hook.effect]
  omega

/-- **The code that gives a call its record** comes back to the height before the call. -/
theorem recordCode_straight (hi : c.method.insns[k]? = some i) :
    Straight p.nextLocal p.maxStack f.stack.length (p.recordCode k i) f.stack.length := by
  rcases recordCode_cases hp hi with hnil | ⟨target, put, rfl, -, hput, hcode⟩
  · rw [hnil]
    rfl
  · obtain ⟨f', hf', hroom⟩ := recordCode_room h (hcode ▸ List.cons_ne_nil _ _)
    obtain rfl := Option.some.inj (hf.symm.trans hf')
    rw [hcode, straight_cons]
    refine ⟨by simp [Insn.fallsThrough, Insn.jumpTarget?, Insn.local?],
      by simp [Insn.effect, Hook.effect]; omega, (argumentCode_straight hp h hf).append ?_⟩
    cases hput with
    | kept hl =>
      have hslot := (hp.above _ _ hl).2
      simp [straight_cons, Insn.fallsThrough, Insn.jumpTarget?, Insn.local?,
        Insn.effect, Hook.effect]
      omega
    | dropped _ =>
      simp [straight_cons, Insn.fallsThrough, Insn.jumpTarget?, Insn.local?,
        Insn.effect, Hook.effect]
      omega

theorem ahead_straight (hi : c.method.insns[k]? = some i) :
    Straight p.nextLocal p.maxStack f.stack.length (p.ahead k i) f.stack.length := by
  refine Straight.append (codeAt_straight fun e he hk => ?_) (recordCode_straight hp h hf hi)
  obtain ⟨f', hf', hcode⟩ := h.before e he
  rw [hk, hf] at hf'
  exact Option.some.inj hf' ▸ hcode

omit hp in
theorem behind_straight (hi : c.method.insns[k]? = some i) :
    Straight p.nextLocal p.maxStack (f.stack.length - i.pops + i.pushes) (p.behind k)
      (f.stack.length - i.pops + i.pushes) := by
  refine codeAt_straight fun e he hk => ?_
  obtain ⟨i', f', hi', hf', hcode⟩ := h.after e he
  rw [hk, hi] at hi'
  rw [hk, hf] at hf'
  obtain rfl := Option.some.inj hi'
  obtain rfl := Option.some.inj hf'
  exact hcode

/-- **An instruction, or what stands in its place**, does to the height what the instruction does.
-/
theorem inPlace_replaces (hc : c.Regular) (hi : c.method.insns[k]? = some i) :
    Replaces p.nextLocal p.maxStack i f.stack.length (p.inPlace k i) := by
  unfold inPlace
  cases hk : p.replaced.lookup k with
  | none =>
    exact ⟨[], i, f.stack.length, rfl, rfl, h.stays hc hp hi hf, rfl, rfl, rfl⟩
  | some code =>
    obtain ⟨i', f', hi', hf', hcode⟩ := h.replaced _ (mem_of_lookup hk)
    obtain rfl := Option.some.inj (hi.symm.trans hi')
    obtain rfl := Option.some.inj (hf.symm.trans hf')
    exact hcode

end Pieces

/-! ## 3. A block -/

theorem codeAt_eq_nil {edits : List (Nat × List Insn)} (h : ∀ e ∈ edits, e.1 ≠ k) :
    codeAt k edits = [] := by
  refine List.flatMap_eq_nil_iff.mpr fun e he => ?_
  obtain ⟨j, code⟩ := e
  exact if_neg (h _ he)

/-- **Nothing is planned for an instruction that is not reached.** -/
theorem block_of_unreached (h : p.Ready c fun _ => False) (hf : c.analysis.frame? k = none)
    (i : Insn) : p.block k i = [i] := by
  have hbefore : codeAt k p.before = [] := codeAt_eq_nil fun e he hk => by
    obtain ⟨f, hf', -⟩ := h.before e he
    simp [hk, hf] at hf'
  have hafter : codeAt k p.after = [] := codeAt_eq_nil fun e he hk => by
    obtain ⟨i, f, -, hf', -⟩ := h.after e he
    simp [hk, hf] at hf'
  have hrecord : p.recordCode k i = [] := Decidable.byContradiction fun hne => by
    obtain ⟨f, hf', -⟩ := recordCode_room h hne
    simp [hf] at hf'
  have hreplaced : p.replaced.lookup k = none := by
    refine Option.eq_none_iff_forall_not_mem.mpr fun code hk => ?_
    obtain ⟨i, f, -, hf', -⟩ := h.replaced _ (mem_of_lookup hk)
    simp [hf] at hf'
  unfold block
  cases i <;> simp [hbefore, hafter, hrecord, hreplaced]

theorem block_ne_nil (h : p.Ready c fun _ => False) (k : Nat) (i : Insn) : p.block k i ≠ [] := by
  cases hl : i.label? with
  | some l =>
    cases i with
    | label l' => simp [block_label]
    | _ => simp [Insn.label?] at hl
  | none =>
    have hne : p.inPlace k i ≠ [] := by
      unfold inPlace
      cases hk : p.replaced.lookup k with
      | none => simp
      | some code =>
        obtain ⟨_, _, _, _, straight, j, _, hcode, -⟩ := h.replaced _ (mem_of_lookup hk)
        have hcode' : code = straight ++ [j] := hcode
        simp [hcode']
    rw [block_other p k hl]
    simp [hne]

/-- **The height at the beginning of a block** is the one before its instruction. -/
theorem heightAt_startOf (h : p.Ready c fun _ => False) (hi : c.method.insns[k]? = some i) :
    Passage.heightAt (passages c p) (p.startOf c.method k) = heightBefore c k := by
  rw [← offset_passages]
  exact Passage.heightAt_offset (getElem?_passages hi) (block_ne_nil h k i)

theorem Replaces.prepend {slots depth h : Nat} {a code : List Insn}
    (ha : Straight slots depth h a h) (hcode : Replaces slots depth i h code) :
    Replaces slots depth i h (a ++ code) := by
  obtain ⟨straight, j, x, rfl, hstraight, hrest⟩ := hcode
  exact ⟨a ++ straight, j, x, (List.append_assoc _ _ _).symm, ha.append hstraight, hrest⟩

/-- **A block** begins with code that does to the height what its instruction does, and goes on with
code that leaves it so. -/
theorem block_parts (hc : c.Regular) (hp : p.Sound c S) (h : p.Ready c fun _ => False)
    (hi : c.method.insns[k]? = some i) (hf : c.analysis.frame? k = some f) :
    ∃ code rest, p.block k i = code ++ rest ∧
      Replaces p.nextLocal p.maxStack i f.stack.length code ∧
      Straight p.nextLocal p.maxStack (f.stack.length - i.pops + i.pushes) rest
        (f.stack.length - i.pops + i.pushes) := by
  have hahead := ahead_straight hp h hf hi
  have hbehind := behind_straight h hf hi
  cases hl : i.label? with
  | some l =>
    cases i with
    | label l' =>
      exact ⟨[.label l'], _, block_label p k l',
        ⟨[], .label l', _, rfl, rfl, h.stays hc hp hi hf, rfl, rfl, rfl⟩, hahead.append hbehind⟩
    | _ => simp [Insn.label?] at hl
  | none =>
    exact ⟨p.ahead k i ++ p.inPlace k i, p.behind k, by simp [block_other p k hl],
      (inPlace_replaces hp h hf hc hi).prepend hahead, hbehind⟩

section Blocks

variable (hc : c.Regular) (hp : p.Sound c S) (h : p.Ready c fun _ => False)
variable (hi : c.method.insns[k]? = some i) (hf : c.analysis.frame? k = some f)
include hc hp h hi hf

/-- Wherever an instruction jumps to, its height is found in the woven method. -/
theorem jump_placed {l : Nat} (hjump : i.jumpTarget? = some l) :
    ∃ t, (p.woven c.method).labelAt? l = some t ∧
      Passage.heightAt (passages c p) t = some (f.stack.length - i.pops + i.pushes) := by
  obtain ⟨t, hlabel, hreached⟩ := hc.sound.reached_jump hi hf (hc.clone_ret hi) hjump
  obtain ⟨j, hj⟩ : ∃ j, c.method.insns[t]? = some j := by
    unfold Method.labelAt? at hlabel
    obtain ⟨hlt, -⟩ := List.findIdx?_eq_some_iff_getElem.mp hlabel
    exact ⟨_, List.getElem?_eq_getElem hlt⟩
  obtain ⟨g, hg, hheight⟩ := hreached j hj
  refine ⟨p.startOf c.method t, by rw [labelAt?_woven hp, hlabel]; rfl, ?_⟩
  rw [heightAt_startOf h hj, heightBefore_of_frame hg, hheight]

/-- An instruction that jumps as the one of the block does, if it jumps. -/
theorem placed {j : Insn} {height : Nat} (hstays : j.Stays p.nextLocal p.maxStack height)
    (hjump : ∀ l, j.jumpTarget? = some l →
      i.jumpTarget? = some l ∧ height - j.pops + j.pushes = f.stack.length - i.pops + i.pushes) :
    Passage.Placed (p.woven c.method) (passages c p) p.depth j height := by
  refine ⟨hstays.mono (Nat.le_refl _) p.maxStack_le_depth, fun l hl => ?_⟩
  obtain ⟨hl', hsame⟩ := hjump l hl
  exact hsame ▸ jump_placed hc hp h hi hf hl'

omit hc hp h hi hf in
/-- Code that leads straight on is in its place. -/
theorem along_of_straight {code : List Insn} {bound height height' : Nat} (hd : bound ≤ p.depth)
    (hcode : Straight p.nextLocal bound height code height') :
    Along (Passage.Placed (p.woven c.method) (passages c p) p.depth) (some height) code :=
  hcode.along fun j x honward hstays =>
    ⟨hstays.mono (Nat.le_refl _) hd, fun l hl => absurd (honward.2.symm.trans hl) (by simp)⟩

/-- **Along a block** everything is in its place, and the height comes out as behind the
instruction. -/
theorem block_along :
    Along (Passage.Placed (p.woven c.method) (passages c p) p.depth) (some f.stack.length)
        (p.block k i) ∧
      leave (some f.stack.length) (p.block k i) = Insn.carry (some f.stack.length) i := by
  obtain ⟨_, rest, hblock,
      ⟨straight, j, x, rfl, hstraight, hstays, hfall, hjump, hheight⟩, hrest⟩ :=
    block_parts hc hp h hi hf
  have hdepth := p.maxStack_le_depth
  have hcarry : Insn.carry (some x) j = Insn.carry (some f.stack.length) i := by
    rw [Insn.carry_some, Insn.carry_some, hfall, hheight]
  have hplaced := placed hc hp h hi hf hstays fun l hl => ⟨hjump ▸ hl, hheight⟩
  -- what stands behind an instruction that does not fall through is not come to
  have hbehind : Along (Passage.Placed (p.woven c.method) (passages c p) p.depth)
        (Insn.carry (some f.stack.length) i) rest ∧
      leave (Insn.carry (some f.stack.length) i) rest = Insn.carry (some f.stack.length) i := by
    rw [Insn.carry_some]
    split
    · exact ⟨along_of_straight hdepth hrest, hrest.leave_eq⟩
    · exact ⟨along_none _ _, leave_none _⟩
  have hleave : leave (some f.stack.length) (straight ++ [j]) =
      Insn.carry (some f.stack.length) i := by
    rw [leave_append, hstraight.leave_eq, leave_cons, leave_nil, hcarry]
  rw [hblock, leave_append, hleave]
  refine ⟨Along.append ((along_of_straight hdepth hstraight).append ?_) (hleave ▸ hbehind.1),
    hbehind.2⟩
  rw [hstraight.leave_eq]
  exact ⟨fun y hy => Option.some.inj hy ▸ hplaced, trivial⟩

end Blocks

/-! ## 4. The woven method -/

section Woven

variable (hc : c.Regular) (hp : p.Sound c S) (h : p.Ready c fun _ => False)
include hc hp h

omit hp h in
theorem heightBefore_zero (hi : c.method.insns[0]? = some i) : heightBefore c 0 = some 0 := by
  obtain ⟨f, hf, hheight⟩ := hc.sound.reached_start i hi
  rw [heightBefore_of_frame hf, hheight]

omit hp h in
/-- A method has a first instruction. -/
theorem exists_first : ∃ i, c.method.insns[0]? = some i :=
  ⟨_, List.getElem?_eq_getElem (List.length_pos_iff.mpr hc.sound.graph.nonempty)⟩

/-- **Each passage leads to the next one.** -/
theorem passages_joined : Passage.Joined (passages c p) := by
  intro n s height hs hleave
  cases n with
  | zero =>
    obtain rfl : ⟨some 0, p.prologue c.method⟩ = s := Option.some.inj hs
    rw [(prologue_straight hp h c.method).leave_eq] at hleave
    obtain ⟨i, hi⟩ := exists_first hc
    exact ⟨_, getElem?_passages hi, (heightBefore_zero hc hi).trans hleave, block_ne_nil h 0 i⟩
  | succ k =>
    obtain ⟨i, hi, rfl⟩ := exists_block hs
    cases hf : c.analysis.frame? k with
    | none => simp [heightBefore, hf] at hleave
    | some f =>
      rw [heightBefore_of_frame hf, (block_along hc hp h hi hf).2, Insn.carry_some] at hleave
      split at hleave
      · rename_i hfall
        -- an instruction that is reached does not fall through past the end
        obtain ⟨-, -, hinside⟩ := FlowGraph.ofMethod_reached hc.grounded.graph
        have hj := List.getElem?_eq_getElem
          (hinside k (hc.grounded.reached k f hf) i hi hfall)
        obtain ⟨g, hg, hheight⟩ := hc.sound.reached_next hi hf (hc.clone_ret hi) hfall _ hj
        refine ⟨_, getElem?_passages hj, ?_, block_ne_nil h _ _⟩
        rw [heightBefore_of_frame hg, hheight, hleave]
      · exact absurd hleave (by simp)

/-- **The heights of a woven method fit together**, within the depth that it declares. -/
theorem woven_fits :
    Fits (p.woven c.method) (Passage.heightAt (passages c p)) p.depth := by
  refine Passage.fits (insns_passages c p) ?_ (passages_joined hc hp h) fun n s hs => ?_
  · obtain ⟨i, hi⟩ := exists_first hc
    by_cases hprologue : p.prologue c.method = []
    · have hstart : p.startOf c.method 0 = 0 := by rw [startOf_zero, hprologue]; rfl
      have hblock := heightAt_startOf h hi
      rwa [hstart, heightBefore_zero hc hi] at hblock
    · have hs : (passages c p)[0]? = some ⟨some 0, p.prologue c.method⟩ := rfl
      exact Passage.heightAt_offset hs hprologue
  · cases n with
    | zero =>
      obtain rfl : ⟨some 0, p.prologue c.method⟩ = s := Option.some.inj hs
      exact along_of_straight (Nat.le_refl _) (prologue_straight hp h c.method)
    | succ k =>
      obtain ⟨i, hi, rfl⟩ := exists_block hs
      cases hf : c.analysis.frame? k with
      | none =>
        rw [show heightBefore c k = none by simp [heightBefore, hf]]
        exact along_none _ _
      | some f =>
        rw [heightBefore_of_frame hf]
        exact (block_along hc hp h hi hf).1

/-- A block jumps only where its instruction does. -/
theorem block_jumps (hi : c.method.insns[k]? = some i) {j : Insn} (hj : j ∈ p.block k i) {l : Nat}
    (hl : j.jumpTarget? = some l) : i.jumpTarget? = some l := by
  cases hf : c.analysis.frame? k with
  | none =>
    rw [block_of_unreached h hf] at hj
    exact List.mem_singleton.mp hj ▸ hl
  | some f =>
    obtain ⟨_, rest, hblock, ⟨straight, j', _, rfl, hstraight, _, _, hjump, _⟩, hrest⟩ :=
      block_parts hc hp h hi hf
    have honward : ¬ j.Onward := fun honward => absurd (honward.2.symm.trans hl) (by simp)
    rw [hblock, List.mem_append, List.mem_append, List.mem_singleton] at hj
    rcases hj with (hj | rfl) | hj
    · exact absurd (hstraight.onward j hj) honward
    · exact hjump ▸ hl
    · exact absurd (hrest.onward j hj) honward

/-- Every jump of a woven method is one of the original. -/
theorem woven_jumps {j : Insn} (hj : j ∈ (p.woven c.method).insns) {l : Nat}
    (hl : j.jumpTarget? = some l) : ∃ i ∈ c.method.insns, i.jumpTarget? = some l := by
  rw [insns_passages, Passage.insns, List.mem_flatMap] at hj
  obtain ⟨s, hs, hj⟩ := hj
  obtain ⟨n, hn⟩ := List.mem_iff_getElem?.mp hs
  cases n with
  | zero =>
    obtain rfl : ⟨some 0, p.prologue c.method⟩ = s := Option.some.inj hn
    have honward := (prologue_straight hp h c.method).onward j hj
    exact absurd (honward.2.symm.trans hl) (by simp)
  | succ k =>
    obtain ⟨i, hi, rfl⟩ := exists_block hn
    exact ⟨i, List.mem_of_getElem? hi, block_jumps hc hp h hi hj hl⟩

/-- **The depth that a woven method needs** is found, and is not greater than the one declared. -/
theorem requiredStack_woven (hdepth : p.maxStack ≤ depthLimit) :
    ∃ required, requiredStack (p.woven c.method) = .ok required ∧
      required ≤ (p.woven c.method).maxStack := by
  have hfits := woven_fits hc hp h
  have hlabels := repeatedLabel?_woven hp hc.sound.graph.labels
  obtain ⟨g, hg⟩ := FlowGraph.ofMethod_of_fits hlabels (fun j hj l hl => by
    obtain ⟨i, hi, hl⟩ := woven_jumps hc hp h hj hl
    obtain ⟨k, hk⟩ := List.mem_iff_getElem?.mp hi
    obtain ⟨t, ht, -⟩ := hc.sound.graph.jump hk hl
    rw [labelAt?_woven hp, ht]
    rfl) hfits
  obtain ⟨required, hrequired, hle⟩ := requiredStack_of_fits hg hfits
  refine ⟨required, hrequired, Nat.le_trans hle (Nat.le_min.mpr ⟨Nat.le_refl _, ?_⟩)⟩
  unfold Plan.depth
  split
  · exact hdepth
  · exact Nat.max_le.mpr ⟨hdepth, by decide⟩

end Woven

end Plan

end Provenance
