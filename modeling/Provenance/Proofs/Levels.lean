/-
# Heights along passages of code

The height of the stack is followed along code from a given one on (`Insn.carry`): it is lost where
code does not fall through.  A method that is put together from passages, each beginning at a
height of its own, has heights that fit together (`Passage.fits`) if every passage keeps within
bounds and hands on to the next one the height at which that one begins.  Heights that fit are all
that the flow graph of a method needs beside labels (`FlowGraph.ofMethod_of_fits`).
-/
import Provenance.Proofs.Heights

namespace Provenance

/-! ## 1. Along code -/

/-- The height behind an instruction, as far as the way leads on there. -/
def Insn.carry (height : Option Nat) (i : Insn) : Option Nat :=
  height.bind fun h => if i.fallsThrough then some (h - i.pops + i.pushes) else none

@[simp] theorem Insn.carry_none (i : Insn) : Insn.carry none i = none := rfl

theorem Insn.carry_some (h : Nat) (i : Insn) :
    Insn.carry (some h) i = if i.fallsThrough then some (h - i.pops + i.pushes) else none := rfl

/-- The height behind code. -/
def leave (height : Option Nat) (code : List Insn) : Option Nat := code.foldl Insn.carry height

@[simp] theorem leave_nil (height : Option Nat) : leave height [] = height := rfl

@[simp] theorem leave_cons (height : Option Nat) (i : Insn) (code : List Insn) :
    leave height (i :: code) = leave (i.carry height) code := rfl

theorem leave_append (height : Option Nat) (a b : List Insn) :
    leave height (a ++ b) = leave (leave height a) b := List.foldl_append

@[simp] theorem leave_none (code : List Insn) : leave none code = none := by
  induction code with
  | nil => rfl
  | cons i code ih => simpa using ih

/-- The heights before the instructions of code. -/
def levels : Option Nat → List Insn → List (Option Nat)
  | _, [] => []
  | height, i :: code => height :: levels (i.carry height) code

@[simp] theorem length_levels : ∀ (height : Option Nat) (code : List Insn),
    (levels height code).length = code.length
  | _, [] => rfl
  | height, i :: code => congrArg (· + 1) (length_levels (i.carry height) code)

theorem levels_append : ∀ (height : Option Nat) (a b : List Insn),
    levels height (a ++ b) = levels height a ++ levels (leave height a) b
  | _, [], _ => rfl
  | height, i :: a, b => congrArg (height :: ·) (levels_append (i.carry height) a b)

/-- **Before an instruction** stands the height behind what is in front of it. -/
theorem levels_getElem? {height : Option Nat} {a b : List Insn} {i : Insn} :
    (levels height (a ++ i :: b))[a.length]? = some (leave height a) := by
  rw [levels_append, List.getElem?_append_right (by simp)]
  simp [levels]

/-- Whether an instruction may stand at a height: its local is there, it has its operands, and no
height goes beyond the depth. -/
structure Insn.Stays (slots depth : Nat) (i : Insn) (height : Nat) : Prop where
  slot : ∀ l, i.local? = some l → l < slots
  operands : i.pops ≤ height
  before : height ≤ depth
  after : height - i.pops + i.pushes ≤ depth

theorem Insn.Stays.mono {slots slots' depth depth' height : Nat} {i : Insn}
    (h : i.Stays slots depth height) (hs : slots ≤ slots') (hd : depth ≤ depth') :
    i.Stays slots' depth' height :=
  ⟨fun l hl => Nat.lt_of_lt_of_le (h.slot l hl) hs, h.operands, Nat.le_trans h.before hd,
    Nat.le_trans h.after hd⟩

/-- Whether all instructions of code that have a height satisfy a condition at it. -/
def Along (P : Insn → Nat → Prop) : Option Nat → List Insn → Prop
  | _, [] => True
  | height, i :: code => (∀ h, height = some h → P i h) ∧ Along P (i.carry height) code

section

variable {P Q : Insn → Nat → Prop}

theorem Along.append : ∀ {height : Option Nat} {a b : List Insn},
    Along P height a → Along P (leave height a) b → Along P height (a ++ b)
  | _, [], _, _, hb => hb
  | _, _ :: _, _, ha, hb => ⟨ha.1, ha.2.append hb⟩

theorem Along.mono (hPQ : ∀ i h, P i h → Q i h) : ∀ {height : Option Nat} {code : List Insn},
    Along P height code → Along Q height code
  | _, [], _ => trivial
  | _, _ :: _, hc => ⟨fun h hh => hPQ _ h (hc.1 h hh), hc.2.mono hPQ⟩

/-- Code that is not come to is not asked for anything. -/
theorem along_none (P : Insn → Nat → Prop) : ∀ code : List Insn, Along P none code
  | [] => trivial
  | _ :: code => ⟨fun h hh => absurd hh (by simp), along_none P code⟩

theorem Along.at {i : Insn} {b : List Insn} {h : Nat} : ∀ {height : Option Nat} {a : List Insn},
    Along P height (a ++ i :: b) → leave height a = some h → P i h
  | _, [], hc, hh => hc.1 h hh
  | _, _ :: _, hc, hh => hc.2.at hh

end

/-- An instruction after which the next one follows in every case. -/
def Insn.Onward (i : Insn) : Prop := i.fallsThrough = true ∧ i.jumpTarget? = none

/-- Code that leads straight from one height to another. -/
def Straight (slots depth : Nat) : Nat → List Insn → Nat → Prop
  | h, [], h' => h = h'
  | h, i :: code, h' =>
    i.Onward ∧ i.Stays slots depth h ∧ Straight slots depth (h - i.pops + i.pushes) code h'

section

variable {slots depth : Nat}

@[simp] theorem straight_nil {h h' : Nat} : Straight slots depth h [] h' ↔ h = h' := Iff.rfl

theorem straight_cons {i : Insn} {code : List Insn} {h h' : Nat} :
    Straight slots depth h (i :: code) h' ↔
      (i.fallsThrough = true ∧ i.jumpTarget? = none ∧ ∀ l, i.local? = some l → l < slots) ∧
        (i.effect.1 ≤ h ∧ h ≤ depth ∧ h - i.effect.1 + i.effect.2 ≤ depth) ∧
          Straight slots depth (h - i.effect.1 + i.effect.2) code h' :=
  ⟨fun ⟨hi, hs, hc⟩ => ⟨⟨hi.1, hi.2, hs.slot⟩, ⟨hs.operands, hs.before, hs.after⟩, hc⟩,
    fun ⟨⟨hfall, hjump, hl⟩, ⟨ho, hb, ha⟩, hc⟩ => ⟨⟨hfall, hjump⟩, ⟨hl, ho, hb, ha⟩, hc⟩⟩

theorem Straight.append : ∀ {a b : List Insn} {h h' h'' : Nat}, Straight slots depth h a h' →
    Straight slots depth h' b h'' → Straight slots depth h (a ++ b) h''
  | [], _, _, _, _, ha, hb => by rw [show _ = _ from ha]; exact hb
  | _ :: _, _, _, _, _, ha, hb => ⟨ha.1, ha.2.1, ha.2.2.append hb⟩

theorem Straight.mono {slots' depth' : Nat} (hs : slots ≤ slots') (hd : depth ≤ depth') :
    ∀ {code : List Insn} {h h' : Nat}, Straight slots depth h code h' →
      Straight slots' depth' h code h'
  | [], _, _, hc => hc
  | _ :: _, _, _, hc => ⟨hc.1, hc.2.1.mono hs hd, hc.2.2.mono hs hd⟩

/-- Several passages of code that each come back to the height. -/
theorem straight_flatMap {α : Type} {f : α → List Insn} {h : Nat} : ∀ {l : List α},
    (∀ a ∈ l, Straight slots depth h (f a) h) → Straight slots depth h (l.flatMap f) h
  | [], _ => rfl
  | a :: l, hall => by
    rw [List.flatMap_cons]
    exact (hall a (by simp)).append (straight_flatMap fun b hb => hall b (by simp [hb]))

theorem Straight.onward : ∀ {code : List Insn} {h h' : Nat}, Straight slots depth h code h' →
    ∀ j ∈ code, j.Onward
  | [], _, _, _ => by simp
  | _ :: _, _, _, hc => List.forall_mem_cons.mpr ⟨hc.1, hc.2.2.onward⟩

theorem Straight.leave_eq : ∀ {code : List Insn} {h h' : Nat}, Straight slots depth h code h' →
    leave (some h) code = some h'
  | [], _, _, hc => congrArg some hc
  | i :: _, h, _, hc => by
    rw [leave_cons, Insn.carry_some, if_pos hc.1.1]
    exact hc.2.2.leave_eq

theorem Straight.along {P : Insn → Nat → Prop}
    (hP : ∀ i h, i.Onward → i.Stays slots depth h → P i h) : ∀ {code : List Insn} {h h' : Nat},
    Straight slots depth h code h' → Along P (some h) code
  | [], _, _, _ => trivial
  | i :: _, h, _, hc => by
    refine ⟨fun x hx => Option.some.inj hx ▸ hP i h hc.1 hc.2.1, ?_⟩
    rw [Insn.carry_some, if_pos hc.1.1]
    exact hc.2.2.along hP

end

/-! ## 2. Passages -/

/-- Code with the height at which it begins, if it is come to. -/
structure Passage where
  height : Option Nat
  code : List Insn

namespace Passage

/-- The code of passages, one behind the other. -/
def insns (ss : List Passage) : List Insn := ss.flatMap code

/-- The heights before the instructions of passages. -/
def heights (ss : List Passage) : List (Option Nat) := ss.flatMap fun s => levels s.height s.code

/-- Where a passage begins. -/
def offset (ss : List Passage) (n : Nat) : Nat := (insns (ss.take n)).length

theorem length_heights : ∀ ss : List Passage, (heights ss).length = (insns ss).length
  | [] => rfl
  | s :: ss => by
    simp only [heights, insns, List.flatMap_cons, List.length_append, length_levels]
    exact congrArg (s.code.length + ·) (length_heights ss)

variable {ss : List Passage} {s : Passage} {n : Nat} {a b : List Insn} {i : Insn}

theorem flatMap_split {α : Type} (f : Passage → List α) (hs : ss[n]? = some s) :
    ss.flatMap f = (ss.take n).flatMap f ++ (f s ++ (ss.drop (n + 1)).flatMap f) := by
  obtain ⟨hlt, rfl⟩ := List.getElem?_eq_some_iff.mp hs
  rw [← List.flatMap_cons, ← List.drop_eq_getElem_cons hlt, ← List.flatMap_append,
    List.take_append_drop]

theorem insns_getElem? (hs : ss[n]? = some s) (hcode : s.code = a ++ i :: b) :
    (insns ss)[offset ss n + a.length]? = some i := by
  have hsplit : insns ss = insns (ss.take n) ++ (s.code ++ insns (ss.drop (n + 1))) :=
    flatMap_split code hs
  rw [hsplit, offset, List.getElem?_append_right (Nat.le_add_right _ _)]
  simp [hcode]

/-- **The height in a passage** is the one at which it begins, carried to the place. -/
theorem heights_getElem? (hs : ss[n]? = some s) (hcode : s.code = a ++ i :: b) :
    (heights ss)[offset ss n + a.length]? = some (leave s.height a) := by
  have hlen : offset ss n = ((ss.take n).flatMap fun s => levels s.height s.code).length :=
    (length_heights _).symm
  unfold heights
  rw [flatMap_split _ hs, hlen, List.getElem?_append_right (Nat.le_add_right _ _),
    Nat.add_sub_cancel_left, List.getElem?_append_left (by simp [hcode]), hcode]
  exact levels_getElem?

theorem offset_succ (hs : ss[n]? = some s) : offset ss (n + 1) = offset ss n + s.code.length := by
  obtain ⟨hlt, rfl⟩ := List.getElem?_eq_some_iff.mp hs
  rw [offset, offset, List.take_succ_eq_append_getElem hlt]
  simp only [insns, List.flatMap_append, List.flatMap_singleton, List.length_append]

/-- Every place is one of a passage. -/
theorem exists_passage {j : Insn} : ∀ {ss : List Passage} {pc : Nat}, (insns ss)[pc]? = some j →
    ∃ n s a b, ss[n]? = some s ∧ s.code = a ++ j :: b ∧ pc = offset ss n + a.length
  | s :: ss, pc, h => by
    simp only [insns, List.flatMap_cons] at h
    rcases Nat.lt_or_ge pc s.code.length with hlt | hge
    · rw [List.getElem?_append_left hlt] at h
      obtain ⟨_, hj⟩ := List.getElem?_eq_some_iff.mp h
      refine ⟨0, s, s.code.take pc, s.code.drop (pc + 1), rfl, ?_, ?_⟩
      · rw [← hj, ← List.drop_eq_getElem_cons hlt, List.take_append_drop]
      · simp [offset, insns, Nat.min_eq_left (Nat.le_of_lt hlt)]
    · rw [List.getElem?_append_right hge] at h
      obtain ⟨n, s', a, b, hs', hcode, hpc⟩ := exists_passage h
      refine ⟨n + 1, s', a, b, hs', hcode, ?_⟩
      have hoffset : offset (s :: ss) (n + 1) = s.code.length + offset ss n := by
        simp [offset, insns]
      omega

/-- Each passage hands on to the next one the height at which that one begins. -/
def Joined (ss : List Passage) : Prop :=
  ∀ n s h, ss[n]? = some s → leave s.height s.code = some h →
    ∃ s', ss[n + 1]? = some s' ∧ s'.height = some h ∧ s'.code ≠ []

/-- The height before an instruction. -/
def heightAt (ss : List Passage) (pc : Nat) : Option Nat := ((heights ss)[pc]?).join

theorem heightAt_offset (hs : ss[n]? = some s) (hne : s.code ≠ []) :
    heightAt ss (offset ss n) = s.height := by
  obtain ⟨i, b, hcode⟩ := List.exists_cons_of_ne_nil hne
  have h := heights_getElem? (a := []) hs hcode
  simp only [List.length_nil, Nat.add_zero, leave_nil] at h
  simp [heightAt, h]

/-- An instruction of passages that stands where it may, and jumps to where its height is. -/
structure Placed (m : Method) (ss : List Passage) (depth : Nat) (i : Insn) (h : Nat) : Prop where
  stays : i.Stays m.maxLocals depth h
  jumps : ∀ l, i.jumpTarget? = some l →
    ∃ t, m.labelAt? l = some t ∧ heightAt ss t = some (h - i.pops + i.pushes)

/-- **Heights of a method made of passages** fit together. -/
theorem fits {m : Method} {depth : Nat} (hm : m.insns = insns ss) (hfirst : heightAt ss 0 = some 0)
    (hjoined : Joined ss)
    (hplaced : ∀ (n : Nat) (s : Passage), ss[n]? = some s →
      Along (Placed m ss depth) s.height s.code) :
    Fits m (heightAt ss) depth := by
  refine ⟨hfirst, fun pc h hh => ?_⟩
  have hlt : pc < (insns ss).length := by
    refine Nat.lt_of_not_le fun hle => ?_
    rw [heightAt, List.getElem?_eq_none (length_heights ss ▸ hle)] at hh
    exact absurd hh (by simp)
  obtain ⟨n, s, a, b, hs, hcode, rfl⟩ := exists_passage (List.getElem?_eq_getElem hlt)
  generalize (insns ss)[offset ss n + a.length] = i at hcode
  have hhere : leave s.height a = some h := by
    rw [heightAt, heights_getElem? hs hcode] at hh
    exact hh
  have hp : Placed m ss depth i h := (hcode ▸ hplaced n s hs).at hhere
  refine ⟨i, hm ▸ insns_getElem? hs hcode, ⟨hp.stays.slot, hp.stays.operands, hp.stays.before,
    hp.stays.after, fun hfall => ?_, hp.jumps⟩⟩
  have hnext : leave s.height (a ++ [i]) = some (h - i.pops + i.pushes) := by
    rw [leave_append, hhere, leave_cons, Insn.carry_some, if_pos hfall, leave_nil]
  cases b with
  | nil =>
    -- the next instruction begins the next passage
    obtain ⟨s', hs', hheight, hne⟩ := hjoined n s _ hs (hcode ▸ hnext)
    have hoffset : offset ss (n + 1) = offset ss n + a.length + 1 := by
      rw [offset_succ hs, hcode]
      simp [Nat.add_assoc]
    rw [← hoffset, heightAt_offset hs' hne, hheight]
  | cons j b =>
    have hj := heights_getElem? (a := a ++ [i]) (i := j) (b := b) hs (by simp [hcode])
    rw [List.length_append, ← Nat.add_assoc, hnext] at hj
    simp only [List.length_singleton] at hj
    simp [heightAt, hj]

end Passage

/-! ## 3. The flow graph -/

namespace FlowGraph

theorem edgesFrom_isOk {m : Method} : ∀ {insns : List Insn} (index : Nat),
    (∀ i ∈ insns, ∀ l, i.jumpTarget? = some l → (m.labelAt? l).isSome) →
    ∃ successors, edgesFrom m index insns = .ok successors
  | [], _, _ => ⟨[], rfl⟩
  | i :: rest, index, h => by
    have hhere : ∃ next, successorsOf m index i = .ok next := by
      unfold successorsOf
      cases hj : i.jumpTarget? with
      | none => exact ⟨_, rfl⟩
      | some l =>
        obtain ⟨t, ht⟩ := Option.isSome_iff_exists.mp (h i (by simp) l hj)
        simp only [ht]
        exact ⟨_, rfl⟩
    obtain ⟨next, hnext⟩ := hhere
    obtain ⟨later, hlater⟩ := edgesFrom_isOk (index + 1) fun j hj =>
      h j (List.mem_cons_of_mem i hj)
    exact ⟨next :: later, by simp only [edgesFrom, hnext, hlater]⟩

/-- **A method whose heights fit** and whose jumps and labels are in order has a flow graph: no
instruction that is reached falls through past the end, for behind it there is no height. -/
theorem ofMethod_of_fits {m : Method} {heights : Nat → Option Nat} {depth : Nat}
    (hlabels : m.repeatedLabel? = none)
    (hjumps : ∀ i ∈ m.insns, ∀ l, i.jumpTarget? = some l → (m.labelAt? l).isSome)
    (hfits : Fits m heights depth) : ∃ g, ofMethod m = .ok g := by
  obtain ⟨i₀, hi₀, -⟩ := hfits.stands 0 0 hfits.first
  have hne : m.insns ≠ [] := fun h => by simp [h] at hi₀
  obtain ⟨successors, hedges⟩ := edgesFrom_isOk 0 hjumps
  have hdescribes : Describes ⟨successors, []⟩ m := ⟨hne, hlabels, hedges⟩
  have hreached : ∀ k ∈ explore successors m.insns.length [0] [0], ∃ h, heights k = some h := by
    refine explore_sub (P := fun k => ∃ h, heights k = some h) (fun k ⟨h, hk⟩ t ht => ?_) _ _ _
      (by simpa using ⟨0, hfits.first⟩) (by simpa using ⟨0, hfits.first⟩)
    obtain ⟨i, hi, hstands⟩ := hfits.stands k h hk
    rcases hdescribes.mem_next hi ht with ⟨hfall, rfl⟩ | ⟨l, hl, hlabel⟩
    · exact ⟨_, hstands.falls hfall⟩
    · obtain ⟨t', ht', hheight⟩ := hstands.jumps l hl
      obtain rfl := Option.some.inj (hlabel.symm.trans ht')
      exact ⟨_, hheight⟩
  have hclosed : ¬ (openEnd m && (explore successors m.insns.length [0] [0]).contains
      (m.insns.length - 1)) = true := by
    rw [Bool.and_eq_true, List.contains_iff_mem]
    rintro ⟨hopen, hlast⟩
    obtain ⟨h, hh⟩ := hreached _ hlast
    obtain ⟨i, hi, hstands⟩ := hfits.stands _ h hh
    have hfall : i.fallsThrough = true := by
      unfold openEnd at hopen
      rwa [List.getLast?_eq_getElem?, hi] at hopen
    obtain ⟨j, hj, -⟩ := hfits.stands _ _ (hstands.falls hfall)
    have hlt := (List.getElem?_eq_some_iff.mp hj).1
    omega
  refine ⟨⟨successors, explore successors m.insns.length [0] [0]⟩, ?_⟩
  unfold ofMethod
  rw [if_neg (by simpa using hne), hlabels]
  simp only [hedges, if_neg hclosed]

end FlowGraph

end Provenance
