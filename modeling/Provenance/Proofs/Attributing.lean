/-
# Points are those of the values they are stored for

In every run of a woven method, wherever it stands, only exact points are stored: its prologue leads
to what the first frame recalls, and each block to what the next one does (`Woven.upholds_exactly`).
So a point that is stored for a value with a single definition belongs to the very execution of the
instruction that made this value, however often it was done again since
(`Weaver.weaveMethod_storesExactly`).

That needs copies that take what the calls took in whose places they stand.  A bulk copy that is
called with a receiver leaves it behind, and then the values on the stack are not those of the
frames (`shiftAll_storesOther`).
-/
import Provenance.Proofs.Noting
import Provenance.Proofs.Pointing

namespace Provenance

variable {v : Woven} {Q : Origins → Prop} {g : Origins} {rest : List Insn} {k pc : Nat} {i : Insn}

/-! ## 1. The start of a method -/

namespace Woven

/-- Locals that become null lie above those of the method. -/
theorem points_nulls {L : Nat → Origin} : ∀ {nulls : List Nat} {g : Origins},
    (∀ l ∈ nulls, v.method.maxLocals ≤ l) → (∀ l < v.method.maxLocals, g.locals l = L l) →
    (∀ g', (∀ l < v.method.maxLocals, g'.locals l = L l) → v.Points Q rest g') →
    v.Points Q ((nulls.flatMap fun l => [.const .null, .store l]) ++ rest) g := by
  intro nulls
  induction nulls with
  | nil => exact fun _ h hrest => hrest _ h
  | cons l nulls ih =>
    intro g hnulls h hrest
    obtain ⟨hl, hnulls⟩ := List.forall_mem_cons.mp hnulls
    refine points_silent rfl (points_silent rfl (ih hnulls (fun j hj => ?_) hrest))
    exact (if_neg (by omega)).trans (h j hj)

/-- What the first frame says of parameters is so. -/
theorem recalled_entry {entry : Frame} (hentry : Frame.entry v.method = .ok entry)
    (hlocals : ∀ l < v.method.maxLocals, g.locals l = (Origins.start v.method).locals l)
    (hown : ∀ l, v.plan.localOf .own = some l → g.locals l = .ownRecord) :
    v.plan.Recalled entry g := by
  refine ⟨fun l w hw => ?_, fun n w hw => ?_⟩
  · cases hd : w.definition? with
    | none => exact Plan.stems_of_no_definition hd
    | some d =>
      obtain ⟨t, n, rfl, hn, hl⟩ := Frame.entry_getElem? hentry hw hd
      have hlt : l < v.method.maxLocals := by
        rw [← Frame.entry_locals_length hentry]
        exact (List.getElem?_eq_some_iff.mp hw).1
      have hparameter : g.locals l = .parameter n := by
        refine (hlocals l hlt).trans ((if_pos ?_).trans ?_)
        · rw [hl]
          simpa using hn
        · rw [hl, Nat.add_sub_cancel_left]
      rw [hparameter]
      refine ⟨fun d' hd' => ?_, fun hliteral => (by cases hliteral), fun _ _ => rfl⟩
      obtain rfl := Option.some.inj hd'
      exact ⟨rfl, hown⟩
  · rw [Frame.entry_stack hentry] at hw
    cases hw

/-- **The prologue** leads to origins that the first frame recalls. -/
theorem points_prologue (v : Woven) :
    v.Points (v.Recalls 0) (v.plan.prologue v.method) (.start v.method) := by
  obtain ⟨entry, f, hentry, hf, habsorbs⟩ := v.analysed.first
  have hready {g : Origins}
      (hlocals : ∀ l < v.method.maxLocals, g.locals l = (Origins.start v.method).locals l)
      (hown : ∀ l, v.plan.localOf .own = some l → g.locals l = .ownRecord) : v.Recalls 0 g :=
    fun _ _ => ⟨f, hf, (recalled_entry hentry hlocals hown).absorbs habsorbs⟩
  refine points_nulls (fun l hl => (v.planned.nulls l hl).1) (fun _ _ => rfl) fun g hlocals => ?_
  cases hown : v.plan.ownRecord with
  | none => exact hready hlocals fun l hl => nomatch hown.symm.trans hl
  | some l =>
    refine points_silent (fun _ => rfl) (points_silent rfl (hready (fun j hj => ?_) fun j hj => ?_))
    · have habove := (v.planned.above .own l hown).1
      exact (if_neg (Nat.ne_of_lt (Nat.lt_of_lt_of_le hj habove))).trans (hlocals j hj)
    · obtain rfl := Option.some.inj (hown.symm.trans hj)
      exact if_pos rfl

end Woven

/-! ## 2. Runs -/

/-- Noting the origins of values. -/
def Noting.origins (m : Method) : Noting Origins where
  start := .start m
  enter k g := g.enter k
  after i g := g.after i

theorem Plan.originNotes_eq (p : Plan) (m : Method) :
    p.originNotes m = p.notes m (.origins m) := rfl

namespace Woven

/-- Only exact points are stored, frames recall where values came from, and in a block its
instruction is under way. -/
def exactly (v : Woven) : Outlook Origins where
  Sees i g := ∀ h, i = .hook h → v.plan.StoresExactly v.method v.context.analysis g h
  Ready := v.Recalls
  Inside k g := g.here.insn = k

theorem course_of_points : ∀ {code : List Insn} {g : Origins}, v.Points Q code g →
    v.Course (.origins v.method) v.exactly Q code g
  | [], _, h => h
  | _ :: _, _, ⟨hstores, hjump, hnext⟩ =>
    ⟨hstores, hjump, fun hfalls => course_of_points (hnext hfalls)⟩

/-- **A woven method stores exact points** and hands over what the next frame recalls. -/
theorem upholds_exactly (hc : v.Copying) : v.Upholds (.origins v.method) v.exactly where
  prologue := course_of_points v.points_prologue
  block hi h := course_of_points (points_block hc hi h)
  entered _ _ := rfl
  inside h := h

end Woven

/-! ## 3. Methods that are woven -/

variable {w : Weaver} {breakInterning : Bool} {pool : LiteralPool} {m : Method}
    {a : Analysis} {p : Plan}

theorem Weaver.Plans.copying (h : w.Plans breakInterning pool m a p)
    (hcopies : ∀ target, .invoke target ∈ m.insns → target.Copies) : h.woven.Copying := by
  refine ⟨hcopies, fun k f target hi hf hclone => ?_⟩
  have hcopy : ¬Carrier.isArrayCopy target = true := by
    intro hcopy
    simp only [Carrier.isArrayCopy, Bool.and_eq_true, decide_eq_true_eq] at hcopy
    simp [Carrier.clonedArray?, hcopy.1.2] at hclone
  have haction : Site.action? m breakInterning f (.invoke target) = some .arrayClone :=
    (if_neg hcopy).trans (if_pos hclone)
  have hmem := Plan.planSites_clones (S := Site.find m a breakInterning) h.woven.analysed
    (fun s hs => ⟨Plan.siteAt_of_find hs, hs⟩) h.planned (Plan.start_sound pool)
    (Plan.mem_find hi hf haction)
  refine Option.isSome_iff_ne_none.mpr fun hnone => ?_
  have := List.lookup_eq_none_iff.mp hnone _ hmem
  simp at this

/-- **Points are those of the values they are stored for.**  In every run of a woven method,
whatever point is stored for a value with a single definition belongs to the same execution of the
instruction that defines the value, or to the same parameter.  In the code that was made of an
instruction, the execution under way is one of that instruction. -/
theorem Weaver.weaveMethod_storesExactly {pool' : LiteralPool} {m' : Method} {kinds : List SiteKind}
    (hweave : w.weaveMethod breakInterning pool m = (.ok (some (m', kinds)), pool'))
    (hcopies : ∀ target, .invoke target ∈ m.insns → target.Copies) :
    ∃ a p, w.Plans breakInterning pool m a p ∧ p.woven m = m' ∧
      ∀ (program : Program) (limits : MachineSettings) (s : RunState) (g : Origins)
        (gs : List Origins), (p.originNotes m).Traced program limits s (g :: gs) →
        s.current.routine = .ofMethod m' → ∀ h, m'.insns[s.current.pc]? = some (.hook h) →
        p.StoresExactly m a (p.originsAt m s.current.pc g) h ∧
        ∀ k, p.startOf m k ≤ s.current.pc → s.current.pc < p.startOf m (k + 1) →
          (p.originsAt m s.current.pc g).here.insn = k := by
  obtain ⟨a, p, hplans, rfl, -⟩ := weaveMethod_plans hweave
  have hc := hplans.copying hcopies
  refine ⟨a, p, hplans, rfl, fun program limits s g gs htraced hroutine h hi => ?_⟩
  rw [Plan.originNotes_eq] at htraced
  obtain ⟨hsees, hinside⟩ := (hplans.woven.upholds_exactly hc).traced htraced hroutine hi
  exact ⟨hsees h rfl, hinside⟩

/-! ## 4. Two methods -/

/-- A method that is woven and called. -/
structure Trial where
  method : Method
  world : World
  args : List Value

namespace Trial

def literals (x : Trial) : LiteralPool := .ofClass (.empty .default) x.method.owner

/-- The analysis and the plan of the method. -/
def plan? (x : Trial) : Option (Analysis × Plan) :=
  match Analysis.ofMethod .fifo 100 x.method with
  | .error _ => none
  | .ok a =>
    match (Plan.planSites ⟨x.method, a⟩ (Site.find x.method a false)).run.run
        (Plan.start ⟨x.method, a⟩ x.literals) with
    | (.ok (), p) => some (a, p)
    | (.error _, _) => none

/-- A program of a single method. -/
def program (m : Method) : Program := ⟨[(m.owner, [.ofMethod m])], []⟩

/-- Where the run of the woven method stands after that many steps, with the origins of its values.
-/
def run? (x : Trial) (n : Nat) : Option (Analysis × Plan × RunState × List Origins) :=
  x.plan?.bind fun (a, p) =>
    ((p.originNotes x.method).follow (program (p.woven x.method)) ⟨8, 1000⟩ x.world x.method.owner
      x.method.name x.method.desc.descriptor x.args n).map fun (s, gs) => (a, p, s, gs)

/-- What the run stands in front of, with the execution under way and the origins of two operands.
-/
def stand? (x : Trial) (n : Nat) : Option (Option Insn × List (Execution × Origin × Origin)) :=
  (x.run? n).map fun (_, p, s, gs) => (s.current.routine.insns[s.current.pc]?, gs.map fun g =>
    let here := p.originsAt x.method s.current.pc g
    (here.here, here.stack 0, here.stack 1))

/-- The definition that the analysis gives for what lies on top before an instruction. -/
def top? (x : Trial) (k : Nat) : Option Definition :=
  x.plan?.bind fun (a, _) => (a.frame? k).bind fun f => (f.top 0).definition?

theorem plans_of_plan? {x : Trial} (h : x.plan? = some (a, p)) :
    Weaver.everywhere.Plans false x.literals x.method a p := by
  unfold plan? at h
  split at h
  · cases h
  · rename_i a' ha
    split at h
    · rename_i p' hp
      obtain ⟨rfl, rfl⟩ := Prod.mk.inj (Option.some.inj h)
      exact ⟨ha, hp⟩
    · cases h

/-- The method is woven. -/
theorem weaves {x : Trial}
    (h : (Weaver.everywhere.weaveMethod false x.literals x.method).1.toOption.join.isSome) :
    ∃ m' kinds pool', Weaver.everywhere.weaveMethod false x.literals x.method =
      (.ok (some (m', kinds)), pool') := by
  rcases hr : Weaver.everywhere.weaveMethod false x.literals x.method with ⟨r, pool'⟩
  rw [hr] at h
  rcases r with e | _ | ⟨m', kinds⟩
  · cases h
  · cases h
  · exact ⟨m', kinds, pool', rfl⟩

/-- The run that stands in front of a hook. -/
theorem stands {x : Trial} {n : Nat} {hook : Hook} {e : Execution} {o o' : Origin}
    (h : x.stand? n = some (some (.hook hook), [(e, o, o')])) :
    ∃ a p s g, Weaver.everywhere.Plans false x.literals x.method a p ∧
      (p.originNotes x.method).Traced (program (p.woven x.method)) ⟨8, 1000⟩ s [g] ∧
      s.current.routine.insns[s.current.pc]? = some (.hook hook) ∧
      (p.originsAt x.method s.current.pc g).here = e ∧
      (p.originsAt x.method s.current.pc g).stack 0 = o ∧
      (p.originsAt x.method s.current.pc g).stack 1 = o' := by
  obtain ⟨⟨a, p, s, gs⟩, hrun, hstand⟩ := Option.map_eq_some_iff.mp h
  obtain ⟨hinsn, horigins⟩ := Prod.mk.inj hstand
  obtain ⟨g, rfl, hg⟩ := List.map_eq_singleton_iff.mp horigins
  obtain ⟨hhere, hstack⟩ := Prod.mk.inj hg
  obtain ⟨hpoint, hvalue⟩ := Prod.mk.inj hstack
  obtain ⟨⟨a', p'⟩, hplan, hrun⟩ := Option.bind_eq_some_iff.mp hrun
  obtain ⟨⟨s', gs'⟩, hfollow, hsame⟩ := Option.map_eq_some_iff.mp hrun
  simp only [Prod.mk.injEq] at hsame
  obtain ⟨rfl, rfl, rfl, rfl⟩ := hsame
  exact ⟨_, _, _, g, plans_of_plan? hplan, ⟨_, _, _, _, _, n, hfollow⟩, hinsn, hhere,
    hpoint, hvalue⟩

end Trial

/-- A method has one analysis and one plan. -/
theorem Weaver.Plans.unique {a' : Analysis} {p' : Plan} (h : w.Plans breakInterning pool m a p)
    (h' : w.Plans breakInterning pool m a' p') : a' = a ∧ p' = p := by
  obtain rfl := Except.ok.inj (h.analysed.symm.trans h'.analysed)
  exact ⟨rfl, (Prod.mk.inj (h'.planned.symm.trans h.planned)).2⟩

/-- In a program of a single method nothing else runs. -/
theorem Trial.routine_of_traced {G : Type} {N : Notes G} {limits : MachineSettings} {s : RunState}
    {g : G} {gs : List G} (h : N.Traced (program m) limits s (g :: gs)) :
    s.current.routine = .ofMethod m := by
  have hroutine : ∀ {owner name descriptor : String} {r : Routine},
      (program m).routine? owner name descriptor = some r → r = .ofMethod m := by
    intro owner name descriptor r hr
    unfold Program.routine? at hr
    obtain ⟨routines, hlookup, hfind⟩ := Option.bind_eq_some_iff.mp hr
    obtain ⟨-, rfl⟩ := Prod.mk.inj (List.mem_singleton.mp (mem_of_lookup hlookup))
    exact List.mem_singleton.mp (List.mem_of_find?_eq_some hfind)
  have hkeeps : N.Keeps (program m) (fun a _ _ => a.routine = .ofMethod m)
      (fun x _ => x.activation.routine = .ofMethod m) :=
    { starts := fun _ hr _ => hroutine hr
      resumes := fun _ _ h => by split <;> exact h
      goes := fun {_ _ _ _ t} h _ _ => by
        cases t with
        | next => exact h
        | jump label => exact fun _ _ => h
        | call target args => exact ⟨h, fun _ hr _ => hroutine hr⟩
        | ret _ => trivial }
  exact (hkeeps.traced h).current

/-- Copies characters from one array to another, one after the other. -/
def copyAll : Trial where
  method := ⟨"demo/A", "run", ⟨[.array .char, .array .char, .int], .void⟩, true, 4, 0,
    [.const (.int 0), .store 3, .label 0, .load 3, .load 2, .ifCmp .ge 1, .load 1, .load 3, .load 0,
      .load 3, .arrayLoad .char, .arrayStore .char, .load 3, .const (.int 1), .binary .add .int,
      .store 3, .goto 0, .label 1, .ret .void]⟩
  world := ⟨((Heap.empty.allocate (.charArray "xy")).2.allocate (.charArray "ab")).2,
    .empty .default, [], [], []⟩
  args := [.ref 1, .ref 2, .int 2]

/-- Copies an array by a call that has a receiver, and goes on to store what was left on the stack.
-/
def shiftAll : Trial where
  method := ⟨"demo/A", "run", ⟨[.array .char, .array .char, .array .int], .void⟩, true, 3, 0,
    [.const .null, .load 1, .load 2, .const (.int 0), .arrayLoad .int, .const (.int 65), .load 0,
      .const (.int 0), .load 1, .const (.int 0), .const (.int 1),
      .invoke ⟨.virtual, "java/lang/System", "arraycopy",
        ⟨[.object "java/lang/Object", .int, .object "java/lang/Object", .int, .int], .void⟩⟩,
      .arrayStore .char, .ret .void]⟩
  world := ⟨(((Heap.empty.allocate (.charArray "x")).2.allocate (.charArray "abc")).2.allocate
    (.array .int #[.int 2])).2, .empty .default, [], [], []⟩
  args := [.ref 1, .ref 2, .ref 3]

/-- The second character that is copied is stored with the point at which it was read, and not with
that of the first one. -/
theorem copyAll_storesExactly :
    ∃ m' kinds pool', Weaver.everywhere.weaveMethod false copyAll.literals copyAll.method =
        (.ok (some (m', kinds)), pool') ∧
      (∀ target, .invoke target ∈ copyAll.method.insns → target.Copies) ∧
      ∃ a p s g, Weaver.everywhere.Plans false copyAll.literals copyAll.method a p ∧
        (p.originNotes copyAll.method).Traced (Trial.program m') ⟨8, 1000⟩ s [g] ∧
        s.current.routine = .ofMethod m' ∧
        m'.insns[s.current.pc]? = some (.hook (.arrayStoreWithPoint .char)) ∧
        (p.originsAt copyAll.method s.current.pc g).stack 0 = .readPoint ⟨10, 26⟩ ∧
        p.StoresExactly copyAll.method a (p.originsAt copyAll.method s.current.pc g)
          (.arrayStoreWithPoint .char) := by
  obtain ⟨m', kinds, pool', hweave⟩ := Trial.weaves (x := copyAll) (by decide +kernel)
  have hcopies : ∀ target, .invoke target ∈ copyAll.method.insns → target.Copies := by
    simp [copyAll]
  have hstand : copyAll.stand? 36 = some (some (.hook (.arrayStoreWithPoint .char)),
      [(⟨11, 27⟩, .readPoint ⟨10, 26⟩, .result ⟨10, 26⟩)]) := by decide +kernel
  obtain ⟨a, p, s, g, hplans, htraced, hinsn, -, hpoint, -⟩ := Trial.stands hstand
  obtain ⟨a', p', hplans', rfl, hexact⟩ := Weaver.weaveMethod_storesExactly hweave hcopies
  obtain ⟨rfl, rfl⟩ := hplans.unique hplans'
  have hroutine := Trial.routine_of_traced htraced
  rw [hroutine, Routine.insns_getElem?] at hinsn
  exact ⟨_, kinds, pool', hweave, hcopies, a', p', s, g, hplans, htraced, hroutine, hinsn, hpoint,
    (hexact _ _ s g [] htraced hroutine _ hinsn).1⟩

/-- The copy leaves the receiver of the call behind, and so the literal that is stored gets the
point of an element that was read. -/
theorem shiftAll_storesOther :
    ∃ m' kinds pool', Weaver.everywhere.weaveMethod false shiftAll.literals shiftAll.method =
        (.ok (some (m', kinds)), pool') ∧
      ∃ a p s g, Weaver.everywhere.Plans false shiftAll.literals shiftAll.method a p ∧
        p.woven shiftAll.method = m' ∧
        (p.originNotes shiftAll.method).Traced (Trial.program m') ⟨8, 1000⟩ s [g] ∧
        s.current.routine = .ofMethod m' ∧
        m'.insns[s.current.pc]? = some (.hook (.arrayStoreWithPoint .char)) ∧
        (p.originsAt shiftAll.method s.current.pc g).stack 0 = .readPoint ⟨4, 5⟩ ∧
        (p.originsAt shiftAll.method s.current.pc g).stack 1 = .literal ⟨5, 6⟩ ∧
        ¬p.StoresExactly shiftAll.method a (p.originsAt shiftAll.method s.current.pc g)
          (.arrayStoreWithPoint .char) := by
  obtain ⟨m', kinds, pool', hweave⟩ := Trial.weaves (x := shiftAll) (by decide +kernel)
  have hstand : shiftAll.stand? 18 = some (some (.hook (.arrayStoreWithPoint .char)),
      [(⟨12, 13⟩, .readPoint ⟨4, 5⟩, .literal ⟨5, 6⟩)]) := by decide +kernel
  obtain ⟨a, p, s, g, hplans, htraced, hinsn, hhere, hpoint, hvalue⟩ := Trial.stands hstand
  obtain ⟨a', p', hplans', rfl, -⟩ := Weaver.weaveMethod_plans hweave
  obtain ⟨rfl, rfl⟩ := hplans.unique hplans'
  have hroutine := Trial.routine_of_traced htraced
  rw [hroutine, Routine.insns_getElem?] at hinsn
  refine ⟨_, kinds, pool', hweave, a', p', s, g, hplans, rfl, htraced, hroutine, hinsn,
    hpoint, hvalue,
    fun hexact => ?_⟩
  obtain ⟨⟨a, p⟩, hplan, htop⟩ := Option.bind_eq_some_iff.mp
    (show shiftAll.top? 12 = some (.read 4) by decide +kernel)
  obtain ⟨rfl, rfl⟩ := hplans.unique (Trial.plans_of_plan? hplan)
  obtain ⟨f, hf, hd⟩ := Option.bind_eq_some_iff.mp htop
  rw [Plan.StoresExactly, hhere] at hexact
  obtain ⟨e, -, hresult, -⟩ :=
    hexact (.arrayStore .char) f rfl hf ⟨0, 1, 0⟩ (by simp [Insn.stores]) _ hd
  rw [hvalue] at hresult
  cases hresult

end Provenance
