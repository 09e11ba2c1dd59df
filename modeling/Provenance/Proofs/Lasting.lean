/-
# What lasts while woven code runs

Of a program that runs woven methods only, one may want to show that the world and the history of
the run agree in some way, again and again.  Not every instruction keeps this: weaving puts in code
that first records something and then does what it recorded.  So what is shown is that it holds from
block to block, and that before each instruction is seen what is to be seen there (`Woven.Along`):
this is a predicate on the code that is left, with what the instructions do taken from
`Work.perform`.

Blocks of which this is not true instruction by instruction are gone through with a property of
their own (`Watch.Through`).

Only blocks of instructions that have a frame are entered.  That is what makes the statements about
sites useful: of code that is not reached nothing was planned, and nothing need be.

`Watch.Lasts` is what has to be shown of a watch, block by block, and `Watch.Lasts.shows` is what
follows for runs.
-/
import Provenance.Proofs.Adding
import Provenance.Proofs.Attributing
import Provenance.Proofs.Chronicle
import Provenance.Proofs.Claiming
import Provenance.Proofs.Covering

namespace Provenance

/-! ## 1. Code along which something lasts -/

/-- A history with what is to hold of it. -/
structure Watch (H : Type) extends Chronicle H where
  /-- What is assumed of an instruction that is done. -/
  Given : Insn → Bench → Prop
  /-- How the world and the history agree between blocks. -/
  Holds : World → H → Prop
  /-- What is to be seen before an instruction. -/
  Shows : Insn → Bench → H → Prop

open Provenance.Action (Wp)

variable {H : Type} {N : Watch H}

namespace Watch

/-- An instruction that keeps what holds. -/
def Keeps (N : Watch H) (i : Insn) : Prop :=
  ∀ b h, N.Given i b → N.Holds b.world h → N.Shows i b h ∧ ∀ method pc inUse,
    Wp (Work.perform method (.stackUnderflow method pc) inUse i)
      (fun _ b' => N.Holds b'.world (N.after i b h)) (fun _ _ => True) b

/-- Code that goes on from each instruction to the next and, unless it fails, leads to where `P`
holds. -/
def Through (N : Watch H) : List Insn → (Bench → H → Prop) → Bench → H → Prop
  | [], P, b, h => P b h
  | i :: rest, P, b, h => N.Given i b → N.Shows i b h ∧ ∀ method pc inUse,
    Wp (Work.perform method (.stackUnderflow method pc) inUse i)
      (fun t b' => t = .next ∧ N.Through rest P b' (N.after i b h)) (fun _ _ => True) b

variable {P P' : Bench → H → Prop} {code rest : List Insn} {b : Bench} {h : H}

theorem Through.append : ∀ {code : List Insn} {b : Bench} {h : H}, N.Through code P b h →
    (∀ b h, P b h → N.Through rest P' b h) → N.Through (code ++ rest) P' b h
  | [], b, h, hcode, hrest => hrest b h hcode
  | _ :: _, _, _, hcode, hrest => fun hgiven =>
    ⟨(hcode hgiven).1, fun method pc inUse => ((hcode hgiven).2 method pc inUse).mono
      (fun _ _ ht => ⟨ht.1, ht.2.append hrest⟩) fun _ _ h => h⟩

theorem Through.mono (hcode : N.Through code P b h) (hP : ∀ b h, P b h → P' b h) :
    N.Through code P' b h := by
  rw [← List.append_nil code]
  exact hcode.append hP

/-- An instruction before which nothing is to be seen and that adds nothing to the history. -/
def Inert (N : Watch H) (i : Insn) : Prop := ∀ b h, N.Shows i b h ∧ N.after i b h = h

theorem through_inert {P : Bench → Prop} : ∀ {code : List Insn} {b : Bench} {h : H},
    (∀ i ∈ code, N.Inert i) → Work.Through (fun _ _ => True) code P b →
    N.Through code (fun b' h' => P b' ∧ h' = h) b h
  | [], _, _, _, hcode => ⟨hcode, rfl⟩
  | i :: code, b, h, hinert, hcode => fun _ => by
    obtain ⟨hi, hinert⟩ := List.forall_mem_cons.mp hinert
    refine ⟨(hi b h).1,
      fun method pc inUse => (hcode method pc inUse).mono (fun _ _ ht => ?_) fun _ _ h => h⟩
    rw [(hi b h).2]
    exact ⟨ht.1, through_inert hinert ht.2⟩

/-- Pieces of code that each keep a property. -/
theorem through_codeAt {k : Nat} : ∀ {edits : List (Nat × List Insn)} {b : Bench} {h : H},
    (∀ e ∈ edits, e.1 = k → ∀ b h, P b h → N.Through e.2 P b h) → P b h →
    N.Through (Plan.codeAt k edits) P b h
  | [], _, _, _, hP => hP
  | (j, code) :: edits, b, h, hpieces, hP => by
    obtain ⟨hcode, hedits⟩ := List.forall_mem_cons.mp hpieces
    have hfirst : N.Through (if j = k then code else []) P b h := by
      split
      · rename_i hk
        exact hcode hk b h hP
      · exact hP
    exact hfirst.append fun b h hP => through_codeAt hedits hP

/-- Pieces of code among which one makes something true that all others keep. -/
theorem through_codeAt_of_mem {Q : Bench → H → Prop} {k : Nat}
    {edits : List (Nat × List Insn)} {e : Nat × List Insn}
    (he : e ∈ edits) (hk : e.1 = k)
    (hkeeps : ∀ e ∈ edits, e.1 = k → ∀ b h, P b h → N.Through e.2 P b h)
    (hmakes : ∀ b h, P b h → N.Through e.2 Q b h)
    (hkeeps' : ∀ e ∈ edits, e.1 = k → ∀ b h, Q b h → N.Through e.2 Q b h) (hP : P b h) :
    N.Through (Plan.codeAt k edits) Q b h := by
  obtain ⟨front, behind, rfl⟩ := List.append_of_mem he
  have hsplit : Plan.codeAt k (front ++ e :: behind) =
      Plan.codeAt k front ++ (e.2 ++ Plan.codeAt k behind) := by
    simp [Plan.codeAt, hk]
  rw [hsplit]
  refine (through_codeAt (fun e he => hkeeps e (by simp [he])) hP).append fun b h hP => ?_
  exact (hmakes b h hP).append fun b h hQ =>
    through_codeAt (fun e he => hkeeps' e (by simp [he])) hQ

end Watch

namespace Woven

/-- Code that leads to where something holds: at its end, which is reached under a condition, and
wherever it jumps, calls or returns.  What is to be seen on the way is seen. -/
def Along (v : Woven) (N : Watch H) (Q : Prop) : List Insn → Bench → H → Prop
  | [], b, h => Q ∧ N.Holds b.world h
  | i :: rest, b, h => N.Given i b →
    N.Shows i b h ∧ ∀ method pc inUse,
      Wp (Work.perform method (.stackUnderflow method pc) inUse i)
      (fun t b' =>
        match t with
        | .next => v.Along N Q rest b' (N.after i b h)
        | .jump l => (∀ k, v.method.labelAt? l = some k → v.HasFrame k) ∧
            N.Holds b'.world (N.after i b h)
        | .call _ _ => N.Holds b'.world (N.after i b h) ∧
            ∀ w h stack, N.Holds w h → v.Along N Q rest ⟨w, b'.locals, stack⟩ h
        | .ret _ => N.Holds b'.world (N.after i b h))
      (fun _ _ => True) b

variable {v : Woven} {Q : Prop} {code rest : List Insn} {k : Nat} {i : Insn} {f : Frame}

theorem along_nil {b : Bench} {h : H} : v.Along N Q [] b h ↔ Q ∧ N.Holds b.world h := Iff.rfl

/-- **Code that keeps what holds**, in front of code along which it lasts. -/
theorem along_kept (hkeeps : ∀ i ∈ code, N.Keeps i)
    (hjump : ∀ i ∈ code, ∀ l k, i.jumpTarget? = some l →
      v.method.labelAt? l = some k → v.HasFrame k)
    (hrest : (∀ i ∈ code, i.fallsThrough = true) → ∀ b h, N.Holds b.world h →
      v.Along N Q rest b h) :
    ∀ b h, N.Holds b.world h → v.Along N Q (code ++ rest) b h := by
  induction code with
  | nil => exact hrest (by simp)
  | cons i code ih =>
    intro b h hh hgiven
    obtain ⟨hi, hcode⟩ := List.forall_mem_cons.mp hkeeps
    obtain ⟨hto, hjump⟩ := List.forall_mem_cons.mp hjump
    have hlater (hfall : i.fallsThrough = true) := ih hcode hjump fun hfalls =>
      hrest (List.forall_mem_cons.mpr ⟨hfall, hfalls⟩)
    obtain ⟨hshows, hkept⟩ := hi b h hgiven hh
    refine ⟨hshows, fun method pc inUse => ?_⟩
    replace hkept := hkept method pc inUse
    unfold Wp at hkept ⊢
    split at hkept
    · rename_i t b' hout
      obtain ⟨hgoes, hfalls⟩ := Work.perform_goes hout
      cases t with
      | next => exact hlater (hfalls (.inl rfl)) _ _ hkept
      | jump l => exact ⟨fun k hk => hto l k (hgoes l rfl) hk, hkept⟩
      | call m args =>
        exact ⟨hkept, fun w h stack hh => hlater (hfalls (.inr ⟨m, args, rfl⟩)) _ _ hh⟩
      | ret r => exact hkept
    · trivial

/-- **Code that goes through**, in front of code along which it lasts. -/
theorem along_through : ∀ {code : List Insn} {b : Bench} {h : H},
    N.Through code (v.Along N Q rest) b h → v.Along N Q (code ++ rest) b h
  | [], _, _, hcode => hcode
  | _ :: _, _, _, hcode => fun hgiven =>
    ⟨(hcode hgiven).1, fun method pc inUse => ((hcode hgiven).2 method pc inUse).mono
      (fun _ _ ht => by
        obtain ⟨rfl, hrest⟩ := ht
        exact along_through hrest) fun _ _ h => h⟩

/-- **A block of instructions that keep what holds.** -/
theorem along_block (hi : v.method.insns[k]? = some i) (hf : v.frame? k = some f)
    (hkeeps : ∀ j ∈ v.plan.block k i, N.Keeps j) (b : Bench) (h : H) (hh : N.Holds b.world h) :
    v.Along N (v.HasFrame (k + 1)) (v.plan.block k i) b h := by
  rw [← List.append_nil (v.plan.block k i)]
  refine along_kept hkeeps (fun j hj l t hl ht => ?_) (fun hfalls b h hh => along_nil.mpr ⟨?_, hh⟩)
    b h hh
  · rcases mem_block hi hj with ⟨rfl, -⟩ | hadded
    · exact hasFrame_jump hi hf hl ht
    · exact hasFrame_jump hi hf (hadded.jumpTarget? hl) ht
  · exact hasFrame_next hi hf (fallsThrough_of_block hi hfalls)

end Woven

/-! ## 2. Runs of woven methods -/

/-- What is called gets the operands, the deepest first. -/
theorem Work.perform_call_args {method : String} {u : RunError}
    {inUse : Thunk (List Value)} {i : Insn} {b b' : Bench} {target : MethodRef} {args : List Value}
    (h : (Work.perform method u inUse i).outcome b = (.ok (.call target args), b')) :
    args = (b.stack.take target.operandCount).reverse := by
  obtain ⟨rfl, -⟩ := Work.perform_call h
  have hargs : Wp (perform method u inUse (.invoke target))
      (fun t _ => t = .call target (b.stack.take target.operandCount).reverse)
          (fun _ _ => True) b := by
    simp only [perform, Action.wp_bind, wp_popMany, Action.wp_pure]
    split <;> trivial
  exact (Transfer.call.inj (hargs.of_ok h)).2

/-- A method that is there because weaving let it through. -/
def Routine.FromWeaving (r : Routine) : Prop :=
  ∃ (w : Weaver) (breakInterning : Bool) (m m' : Method), w.Weaves breakInterning m m' ∧
  r = .ofMethod m'

/-- What has to be shown for something to last in the runs of a program. -/
structure Watch.Lasts (N : Watch H) (p : Program) : Prop where
  null : N.Keeps (.const .null)
  store : ∀ l, N.Keeps (.store l)
  claim : ∀ signature, N.Keeps (.hook (.invocationStart signature))
  /-- It lasts along every block. -/
  block : ∀ {v : Woven} {breakInterning : Bool} {k : Nat} {i : Insn} {f : Frame},
    v.Covering breakInterning → v.method.insns[k]? = some i → v.frame? k = some f →
    ∀ b h, N.Holds b.world h → v.Along N (v.HasFrame (k + 1)) (v.plan.block k i) b h
  /-- It lasts while a native runs. -/
  native : ∀ {m : MethodRef} {n : Native} {b : Bench} {h : H},
    p.native? (methodKey m.owner m.name m.desc.descriptor) = some n → N.Given (.invoke m) b →
    N.Holds b.world (N.after (.invoke m) b h) → ∀ record signature,
    Wp (n.body ⟨methodKey m.owner m.name m.desc.descriptor,
      (b.stack.take m.operandCount).reverse, record⟩)
      (fun _ w => N.Holds w (N.after (.invoke m) b h)) (fun _ _ => True)
      { b.world with store := (b.world.store.claim signature).2 }

namespace Watch

/-- An activation of a woven method stands in code along which something lasts. -/
def Stands (N : Watch H) (a : Activation) (w : World) (h : H) : Prop :=
  ∃ (v : Woven) (breakInterning : Bool) (m' : Method) (next : Nat) (left : List Insn),
    v.Covering breakInterning ∧ a.routine = .ofMethod m' ∧ m'.insns = v.result.insns ∧
    m'.insns.drop a.pc = left ++ v.result.insns.drop (v.startOf next) ∧
    v.Along N (v.HasFrame next) left ⟨w, a.locals, a.stack⟩ h

/-- One that waits will do so, whatever it gets. -/
def Waits (N : Watch H) (x : Waiting) : Prop :=
  ∀ w h stack, N.Holds w h → N.Stands { x.activation with stack } w h

variable {p : Program} {a : Activation} {w : World} {h : H} {i : Insn}

/-- **The instruction at which it stands**, in front of the rest. -/
theorem Stands.at_insn (hl : N.Lasts p) (hs : N.Stands a w h)
    (hi : a.routine.insns[a.pc]? = some i) :
    ∃ (v : Woven) (breakInterning : Bool) (m' : Method) (next : Nat) (rest : List Insn),
      v.Covering breakInterning ∧ a.routine = .ofMethod m' ∧ m'.insns = v.result.insns ∧
      m'.insns.drop (a.pc + 1) = rest ++ v.result.insns.drop (v.startOf next) ∧
      v.Along N (v.HasFrame next) (i :: rest) ⟨w, a.locals, a.stack⟩ h := by
  obtain ⟨v, breakInterning, m', next, left, hv, hr, hinsns, hcode, halong⟩ := hs
  rw [hr, Routine.insns_getElem?] at hi
  obtain ⟨hlt, hget⟩ := List.getElem?_eq_some_iff.mp hi
  have hdrop := List.drop_eq_getElem_cons hlt
  rw [hget] at hdrop
  cases left with
  | cons j rest =>
    obtain ⟨rfl, hrest⟩ := List.cons.inj (hcode.symm.trans hdrop)
    exact ⟨v, breakInterning, m', next, rest, hv, hr, hinsns, hrest.symm, halong⟩
  | nil =>
    -- this is where the next block begins
    obtain ⟨hframe, hh⟩ := halong
    rw [List.nil_append] at hcode
    cases hk : v.method.insns[next]? with
    | none =>
      rw [hcode, Plan.woven_end _ hk] at hdrop
      cases hdrop
    | some i' =>
      obtain ⟨f, hf⟩ := hframe i' hk
      have hblock := hl.block hv hk hf ⟨w, a.locals, a.stack⟩ h hh
      rw [Plan.woven_drop_block _ hk] at hcode
      cases hshape : v.plan.block next i' with
      | nil => exact absurd hshape (v.block_ne_nil next i')
      | cons j rest =>
        rw [hshape] at hcode hblock
        obtain ⟨rfl, hrest⟩ := List.cons.inj (hcode.symm.trans hdrop)
        exact ⟨v, breakInterning, m', next + 1, rest, hv, hr, hinsns, hrest.symm, hblock⟩

/-- The prologue keeps what holds. -/
theorem Lasts.prologue (hl : N.Lasts p) (v : Woven) :
    ∀ j ∈ v.plan.prologue v.method, N.Keeps j := by
  intro j hj
  rcases List.mem_append.mp hj with hj | hj
  · obtain ⟨l, -, hj⟩ := List.mem_flatMap.mp hj
    simp only [List.mem_cons, List.not_mem_nil, or_false] at hj
    rcases hj with rfl | rfl
    · exact hl.null
    · exact hl.store l
  · split at hj
    · simp only [List.mem_cons, List.not_mem_nil, or_false] at hj
      rcases hj with rfl | rfl
      · exact hl.claim _
      · exact hl.store _
    · cases hj

/-- **Every step of a woven method** keeps it in such code. -/
theorem Lasts.keeps (hl : N.Lasts p) :
    N.toChronicle.Keeps p Routine.FromWeaving N.Given N.Holds N.Stands N.Waits where
  starts {r args w h} hr hh := by
    obtain ⟨weaver, breakInterning, m, m', hweaves, rfl⟩ := hr
    obtain ⟨v, -, hinsns, hv⟩ := hweaves.woven
    refine ⟨v, breakInterning, m', 0, v.plan.prologue v.method, hv, rfl, hinsns, ?_, ?_⟩
    · rw [List.drop_zero, hinsns]
      exact Plan.woven_prologue _ _
    · rw [← List.append_nil (v.plan.prologue v.method)]
      refine Woven.along_kept (hl.prologue v) (fun j hj l k hjump => ?_)
        (fun _ _ _ hh => Woven.along_nil.mpr ⟨v.hasFrame_zero, hh⟩) _ h hh
      rcases List.mem_append.mp hj with hj | hj
      · obtain ⟨l', -, hj⟩ := List.mem_flatMap.mp hj
        simp only [List.mem_cons, List.not_mem_nil, or_false] at hj
        rcases hj with rfl | rfl <;> cases hjump
      · split at hj
        · simp only [List.mem_cons, List.not_mem_nil, or_false] at hj
          rcases hj with rfl | rfl <;> cases hjump
        · cases hj
  resumes {x w h} v hx hh := by
    split
    · exact hx w h x.activation.stack hh
    · exact hx w h _ hh
  goes {s h i b t} hs hi hgiven hout := by
    obtain ⟨v, breakInterning, m', next, rest, hv, hr, hinsns, hcode, halong⟩ := hs.at_insn hl hi
    have ht := ((halong hgiven).2 _ _ _).of_ok hout
    cases t with
    | next => exact ⟨v, breakInterning, m', next, rest, hv, hr, hinsns, hcode, ht⟩
    | jump l =>
      intro pc hpc
      obtain ⟨hframe, hh⟩ := ht
      rw [hr] at hpc
      have hlabel : v.result.labelAt? l = some pc := by
        unfold Method.labelAt? at hpc ⊢
        rw [← hinsns]
        exact hpc
      rw [Plan.labelAt?_woven v.planned] at hlabel
      obtain ⟨k, hk, rfl⟩ := Option.map_eq_some_iff.mp hlabel
      exact ⟨v, breakInterning, m', k, [], hv, hr, hinsns, by rw [hinsns]; rfl, hframe k hk, hh⟩
    | call target args =>
      obtain ⟨hh, hlater⟩ := ht
      obtain ⟨rfl, hworld⟩ := Work.perform_call hout
      have hargs := Work.perform_call_args hout
      refine ⟨fun w h stack hw => ⟨v, breakInterning, m', next, rest, hv, hr, hinsns, hcode,
        hlater w h stack hw⟩, hh, fun n hn record signature => ?_⟩
      rw [hworld] at hh ⊢
      rw [hargs]
      exact hl.native hn hgiven hh record signature
    | ret r => exact ht

/-- **What is to be seen is seen**, in every run of woven methods. -/
theorem Lasts.shows (hl : N.Lasts p) {limits : MachineSettings} {Ok : RunState → Prop} {w : World}
    {s : RunState} (hstart : N.Holds w N.start)
    (hok : ∀ s, Ok s → s.current.routine.FromWeaving ∧ ∀ i, s.insn? = some i → N.Given i s.bench)
    (hrun : N.toChronicle.Run p limits Ok w s h) (hi : s.insn? = some i) : N.Shows i s.bench h := by
  have hs := (hl.keeps.run hstart hok hrun).current
  obtain ⟨_, _, _, _, _, -, -, -, -, halong⟩ := hs.at_insn hl hi
  exact (halong ((hok s hrun.ok).2 i hi)).1

end Watch

end Provenance
