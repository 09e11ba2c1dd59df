/-
# Keeping an eye on a woven method

What is noted beside an activation of a woven method may change with each block that is entered and
with each instruction that is done (`Noting`).  An `Outlook` says what such notes are to show: in
front of each instruction, in front of each block, and as long as the method stands in a block.  If
the prologue and every single block keep to it (`Woven.Upholds`), so does the method wherever it
stands, in every run (`Woven.Upholds.traced`): a block goes on in the next one, and a jump leads to
the beginning of one.
-/
import Provenance.Proofs.Origins
import Provenance.Proofs.Weaving

namespace Provenance

/-! ## 1. Which block a place belongs to -/

theorem Plan.ReplacedPiece.ne_nil {c : PlanContext} {S : List Site} {p : Plan} {k : Nat}
    {code : List Insn} (h : ReplacedPiece c S p k code) : code ≠ [] := by
  cases h <;> simp

namespace Woven

variable {v : Woven} {k pc : Nat} {i : Insn}

theorem block_ne_nil (v : Woven) (k : Nat) (i : Insn) : v.plan.block k i ≠ [] := by
  cases hlabel : i.label? with
  | some l =>
    cases i <;> simp [Insn.label?] at hlabel
    simp [Plan.block_label]
  | none =>
    rw [Plan.block_other _ _ hlabel]
    have hplace : v.plan.inPlace k i ≠ [] := by
      unfold Plan.inPlace
      cases hreplaced : v.plan.replaced.lookup k with
      | none => simp
      | some code => exact (v.planned.replaced _ (mem_of_lookup hreplaced)).ne_nil
    simp [hplace]

theorem startOf_lt_succ (hi : v.method.insns[k]? = some i) : v.startOf k < v.startOf (k + 1) := by
  rw [Woven.startOf, Woven.startOf, Plan.startOf_succ _ hi]
  exact Nat.lt_add_of_pos_right (List.length_pos_iff.mpr (v.block_ne_nil k i))

theorem startOf_le (v : Woven) {j k : Nat} (h : j ≤ k) : v.startOf j ≤ v.startOf k := by
  induction h with
  | refl => exact Nat.le_refl _
  | @step k _ ih =>
    refine Nat.le_trans ih ?_
    cases hi : v.method.insns[k]? with
    | some i => exact Nat.le_of_lt (startOf_lt_succ hi)
    | none =>
      have hlength := List.getElem?_eq_none_iff.mp hi
      simp [Woven.startOf, Plan.startOf, List.take_of_length_le hlength,
        List.take_of_length_le (Nat.le_succ_of_le hlength)]

/-- At the beginning of a block it is entered. -/
theorem opening?_startOf (hi : v.method.insns[k]? = some i) :
    v.plan.opening? v.method (v.startOf k) = some k := by
  have hlt := (List.getElem?_eq_some_iff.mp hi).1
  unfold Plan.opening?
  rw [List.find?_range_eq_some]
  refine ⟨by simp, List.mem_range.mpr hlt, fun j hj => ?_⟩
  have hj' := startOf_lt_succ (List.getElem?_eq_getElem (Nat.lt_trans hj hlt))
  have := v.startOf_le hj
  simp only [Bool.not_eq_true', decide_eq_false_iff_not]
  exact Nat.ne_of_lt (Nat.lt_of_lt_of_le hj' this)

/-- Elsewhere none is. -/
theorem opening?_other (h : ∀ k, v.startOf k ≠ pc) : v.plan.opening? v.method pc = none := by
  unfold Plan.opening?
  rw [List.find?_eq_none]
  exact fun k _ => by simpa using h k

end Woven

/-! ## 2. Notes -/

/-- A way to take notes of a woven method: where it starts, where a block is entered, and after an
instruction. -/
structure Noting (G : Type) where
  start : G
  enter : Nat → G → G
  after : Insn → G → G

namespace Plan

variable {G : Type}

/-- The note with which an instruction of the woven method begins. -/
def noteAt (p : Plan) (m : Method) (N : Noting G) (pc : Nat) (g : G) : G :=
  match p.opening? m pc with
  | some k => N.enter k g
  | none => g

/-- Taking notes of a woven method. -/
def notes (p : Plan) (m : Method) (N : Noting G) : Notes G where
  start _ := N.start
  after s i g := N.after i (p.noteAt m N s.current.pc g)

end Plan

/-- Noting less. -/
structure Noting.Refines {G H : Type} (N : Noting G) (M : Noting H) (f : G → H) : Prop where
  start : f N.start = M.start
  enter : ∀ k g, f (N.enter k g) = M.enter k (f g)
  after : ∀ i g, f (N.after i g) = M.after i (f g)

namespace Noting.Refines

variable {G H : Type} {N : Noting G} {M : Noting H} {f : G → H} {p : Plan} {m : Method}

theorem noteAt (h : N.Refines M f) (pc : Nat) (g : G) :
    f (p.noteAt m N pc g) = p.noteAt m M pc (f g) := by
  unfold Plan.noteAt
  split
  · exact h.enter _ g
  · rfl

theorem notes (h : N.Refines M f) : (p.notes m N).Refines (p.notes m M) f where
  start _ := h.start
  after s i g := by
    show f (N.after i (p.noteAt m N s.current.pc g)) = M.after i (p.noteAt m M s.current.pc (f g))
    rw [h.after, h.noteAt]

end Noting.Refines

/-! ## 3. What notes show -/

/-- What notes of a woven method are to show. -/
structure Outlook (G : Type) where
  /-- In front of an instruction. -/
  Sees : Insn → G → Prop
  /-- In front of a block. -/
  Ready : Nat → G → Prop
  /-- As long as the method stands in a block. -/
  Inside : Nat → G → Prop

namespace Woven

variable {G : Type} {N : Noting G} {U : Outlook G} {Q : G → Prop} {v : Woven} {g : G} {k pc : Nat}
  {i : Insn} {code rest : List Insn}

/-- Code along which an outlook is kept to: at each instruction, on the way to the block that a jump
leads to, and up to the end, where something else holds. -/
def Course (v : Woven) (N : Noting G) (U : Outlook G) (Q : G → Prop) : List Insn → G → Prop
  | [], g => Q g
  | i :: rest, g =>
    U.Sees i g ∧
      (∀ l k, i.jumpTarget? = some l → v.method.labelAt? l = some k → U.Ready k (N.after i g)) ∧
      (i.fallsThrough = true → v.Course N U Q rest (N.after i g))

/-- Code after code. -/
theorem course_append : ∀ {code : List Insn} {g : G},
    v.Course N U (v.Course N U Q rest) code g → v.Course N U Q (code ++ rest) g
  | [], _, h => h
  | _ :: _, _, ⟨hsees, hjump, hnext⟩ => ⟨hsees, hjump, fun hfalls => course_append (hnext hfalls)⟩

theorem Course.mono {Q' : G → Prop} : ∀ {code : List Insn} {g : G}, v.Course N U Q code g →
    (∀ g, Q g → Q' g) → v.Course N U Q' code g
  | [], _, h, hQ => hQ _ h
  | _ :: _, _, ⟨hsees, hjump, hnext⟩, hQ => ⟨hsees, hjump, fun hfalls => (hnext hfalls).mono hQ⟩

/-- A method whose prologue and whose blocks keep to an outlook. -/
structure Upholds (v : Woven) (N : Noting G) (U : Outlook G) : Prop where
  prologue : v.Course N U (U.Ready 0) (v.plan.prologue v.method) N.start
  block : ∀ {k i g}, v.method.insns[k]? = some i → U.Ready k g →
    v.Course N U (U.Ready (k + 1)) (v.plan.block k i) (N.enter k g)
  entered : ∀ k g, U.Inside k (N.enter k g)
  inside : ∀ {k i g}, U.Inside k g → U.Inside k (N.after i g)

/-- Where a woven method keeps to an outlook: in front of what is left of a block, if the next block
is known, or past all. -/
inductive Keeps (v : Woven) (N : Noting G) (U : Outlook G) (pc : Nat) (g : G) : Prop where
  | inside (next : Nat) (left : List Insn) (hleft : left ≠ [])
      (hcode : v.result.insns.drop pc = left ++ v.result.insns.drop (v.startOf next))
      (hend : pc + left.length = v.startOf next) (hbefore : ∀ k < next, v.startOf k ≤ pc)
      (hinside : ∀ k, next = k + 1 → U.Inside k (v.plan.noteAt v.method N pc g))
      (hcourse : v.Course N U (U.Ready next) left (v.plan.noteAt v.method N pc g)) :
        Keeps v N U pc g
  | past (hcode : v.result.insns.drop pc = []) : Keeps v N U pc g

theorem noteAt_startOf (hi : v.method.insns[k]? = some i) :
    v.plan.noteAt v.method N (v.startOf k) g = N.enter k g := by
  unfold Plan.noteAt
  rw [opening?_startOf hi]

theorem noteAt_other (h : ∀ k, v.startOf k ≠ pc) : v.plan.noteAt v.method N pc g = g := by
  unfold Plan.noteAt
  rw [opening?_other h]

/-- **In front of a block.** -/
theorem Upholds.ready (hu : v.Upholds N U) (h : U.Ready k g) : v.Keeps N U (v.startOf k) g := by
  cases hi : v.method.insns[k]? with
  | none => exact .past (Plan.woven_end _ hi)
  | some i =>
    refine .inside (k + 1) (v.plan.block k i) (v.block_ne_nil k i) (Plan.woven_drop_block _ hi)
      (Plan.startOf_succ _ hi).symm (fun j hj => v.startOf_le (Nat.le_of_lt_succ hj)) ?_ ?_
    · rintro j hj
      rw [noteAt_startOf hi, Nat.succ.inj hj]
      exact hu.entered j g
    · rw [noteAt_startOf hi]
      exact hu.block hi h

/-- **Where a method starts.** -/
theorem Upholds.start (hu : v.Upholds N U) : v.Keeps N U 0 N.start := by
  have hprologue := hu.prologue
  have hstart : v.startOf 0 = (v.plan.prologue v.method).length := Plan.startOf_zero _ _
  cases hcode : v.plan.prologue v.method with
  | nil =>
    rw [hcode] at hprologue hstart
    have := hu.ready hprologue
    rwa [hstart] at this
  | cons i rest =>
    have hother : v.plan.noteAt v.method N 0 N.start = N.start := by
      refine noteAt_other fun k hk => ?_
      have := v.startOf_le (Nat.zero_le k)
      rw [hstart, hcode, List.length_cons] at this
      omega
    refine .inside 0 (v.plan.prologue v.method) (by simp [hcode]) (Plan.woven_prologue _ _)
      (by rw [hstart, Nat.zero_add]) (fun k hk => absurd hk (Nat.not_lt_zero k))
      (fun k hk => nomatch hk) ?_
    rwa [hother]

/-- What stands at the place, in front of the rest. -/
theorem Keeps.at_insn (h : v.Keeps N U pc g) (hi : v.result.insns[pc]? = some i) :
    ∃ next rest, v.result.insns.drop (pc + 1) = rest ++ v.result.insns.drop (v.startOf next) ∧
      pc + (rest.length + 1) = v.startOf next ∧ (∀ k < next, v.startOf k ≤ pc) ∧
      (∀ k, next = k + 1 → U.Inside k (v.plan.noteAt v.method N pc g)) ∧
      v.Course N U (U.Ready next) (i :: rest) (v.plan.noteAt v.method N pc g) := by
  obtain ⟨hlt, hget⟩ := List.getElem?_eq_some_iff.mp hi
  have hdrop := List.drop_eq_getElem_cons hlt
  rw [hget] at hdrop
  cases h with
  | past hcode => rw [hcode] at hdrop; cases hdrop
  | inside next left hleft hcode hend hbefore hinside hcourse =>
    rw [hcode] at hdrop
    cases left with
    | nil => exact absurd rfl hleft
    | cons j rest =>
      obtain ⟨rfl, hrest⟩ := List.cons.inj hdrop
      exact ⟨next, rest, hrest.symm, hend, hbefore, hinside, hcourse⟩

/-- **Going on.** -/
theorem Upholds.next (hu : v.Upholds N U) (h : v.Keeps N U pc g) (hi : v.result.insns[pc]? = some i)
    (hfalls : i.fallsThrough = true) :
    v.Keeps N U (pc + 1) (N.after i (v.plan.noteAt v.method N pc g)) := by
  obtain ⟨next, rest, hcode, hend, hbefore, hinside, -, -, hcourse⟩ := h.at_insn hi
  replace hcourse := hcourse hfalls
  cases rest with
  | nil =>
    have := hu.ready hcourse
    rwa [← hend] at this
  | cons j rest =>
    rw [List.length_cons] at hend
    have hother : v.plan.noteAt v.method N (pc + 1) (N.after i (v.plan.noteAt v.method N pc g)) =
        N.after i (v.plan.noteAt v.method N pc g) := by
      refine noteAt_other fun k hk => ?_
      by_cases hlt : k < next
      · have := hbefore k hlt
        omega
      · have := v.startOf_le (Nat.le_of_not_lt hlt)
        omega
    refine .inside next (j :: rest) (List.cons_ne_nil j rest) hcode ?_
      (fun k hk => Nat.le_succ_of_le (hbefore k hk)) (fun k hk => ?_) ?_
    · rw [List.length_cons]
      omega
    · rw [hother]
      exact hu.inside (hinside k hk)
    · rwa [hother]

/-- **Jumping.** -/
theorem Upholds.jump (hu : v.Upholds N U) (h : v.Keeps N U pc g) (hi : v.result.insns[pc]? = some i)
    {l pc' : Nat} (hl : i.jumpTarget? = some l) (hpc : v.result.labelAt? l = some pc') :
    v.Keeps N U pc' (N.after i (v.plan.noteAt v.method N pc g)) := by
  obtain ⟨next, rest, -, -, -, -, -, hjump, -⟩ := h.at_insn hi
  rw [Plan.labelAt?_woven v.planned] at hpc
  obtain ⟨k, hk, rfl⟩ := Option.map_eq_some_iff.mp hpc
  exact hu.ready (hjump l k hl hk)

end Woven

/-- Where an instruction may go on. -/
theorem Work.perform_goes {method : String} {u : RunError} {inUse : Thunk (List Value)} {i : Insn}
    {b b' : Bench} {t : Transfer} (h : (Work.perform method u inUse i).outcome b = (.ok t, b')) :
    (∀ l, t = .jump l → i.jumpTarget? = some l) ∧
      ((t = .next ∨ ∃ m args, t = .call m args) → i.fallsThrough = true) := by
  have hgoes := (perform_ways method u inUse i b).of_ok h
  cases t with
  | next => exact ⟨(fun l hl => nomatch hl), fun _ => hgoes⟩
  | jump l => exact ⟨fun l' hl => Transfer.jump.inj hl ▸ hgoes, by simp⟩
  | call m args =>
    obtain rfl : i = .invoke m := hgoes
    exact ⟨(fun l hl => nomatch hl), fun _ => rfl⟩
  | ret r => exact ⟨(fun l hl => nomatch hl), by simp⟩

namespace Woven

variable {G : Type} {N : Noting G} {U : Outlook G} {v : Woven} {program : Program}
  {limits : MachineSettings} {s : RunState} {g : G} {gs : List G} {i : Insn}

/-- **Every step keeps to the outlook.** -/
theorem Upholds.kept (hu : v.Upholds N U) (program : Program) :
    (v.plan.notes v.method N).Keeps program
      (fun a _ g => a.routine = .ofMethod v.result → v.Keeps N U a.pc g)
      (fun x g => x.activation.routine = .ofMethod v.result → v.Keeps N U x.activation.pc g) where
  starts _ _ _ _ := hu.start
  resumes _ _ h := by
    split
    · exact h
    · exact h
  goes {s g i b t} h hi hout := by
    obtain ⟨w, ⟨r, pc, L, S⟩, callers⟩ := s
    obtain ⟨hjump, hfalls⟩ := Work.perform_goes hout
    have hinsn (hr : r = .ofMethod v.result) : v.result.insns[pc]? = some i := by
      subst hr
      rwa [Routine.insns_getElem?] at hi
    cases t with
    | next => exact fun hr => hu.next (h hr) (hinsn hr) (hfalls (.inl rfl))
    | jump l =>
      intro pc' hpc hr
      obtain rfl : r = .ofMethod v.result := hr
      exact hu.jump (h rfl) (hinsn rfl) (hjump l rfl) hpc
    | call target args =>
      exact ⟨fun hr => hu.next (h hr) (hinsn hr) (hfalls (.inr ⟨_, _, rfl⟩)),
        fun _ _ _ _ => hu.start⟩
    | ret _ => trivial

/-- **In every run** the notes show what they are to show, in front of each instruction and as long
as the method stands in a block. -/
theorem Upholds.traced (hu : v.Upholds N U)
    (ht : (v.plan.notes v.method N).Traced program limits s (g :: gs))
    (hroutine : s.current.routine = .ofMethod v.result)
    (hi : v.result.insns[s.current.pc]? = some i) :
    U.Sees i (v.plan.noteAt v.method N s.current.pc g) ∧
      ∀ k, v.startOf k ≤ s.current.pc → s.current.pc < v.startOf (k + 1) →
        U.Inside k (v.plan.noteAt v.method N s.current.pc g) := by
  have hkeeps := ((hu.kept program).traced ht).current hroutine
  obtain ⟨next, rest, -, hend, hbefore, hinside, hsees, -⟩ := hkeeps.at_insn hi
  refine ⟨hsees, fun k hk hlt => hinside k (Nat.le_antisymm ?_ ?_)⟩
  · by_contra hnext
    exact absurd (hbefore (k + 1) (Nat.lt_of_not_le hnext)) (Nat.not_le_of_lt hlt)
  · by_contra hnext
    have := v.startOf_le (Nat.le_of_lt_succ (Nat.lt_of_not_le hnext))
    have hle : v.startOf k ≤ s.current.pc := hk
    omega

end Woven

end Provenance
