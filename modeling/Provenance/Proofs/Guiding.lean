/-
# The flow graph is how execution goes

The flow graph of a method is made of its text alone.  This file says what it is worth.  A method
has a graph exactly if its body is in order (`Method.Passable`), its edges are exactly the ways on
(`Method.GoesOn`), its lists of successors and predecessors are what noting the edges one by one
gives (`EdgeNotes.ofMethod`), and it reaches what its edges lead to.

An activation of the method goes along the edges.  As long as it is alive it stands at an
instruction that the graph reaches, and each of its own steps takes it to a successor
(`FlowGraph.ofMethod_guides`).
-/
import Mathlib.Logic.Relation
import Provenance.Proofs.Levels
import Provenance.Proofs.Upright

namespace Provenance

/-! ## 1. Labels and where they stand -/

theorem mem_labelsOf {insns : List Insn} {l : Nat} : l ∈ labelsOf insns ↔ .label l ∈ insns := by
  have hlabel : ∀ i : Insn, i.label? = some l ↔ i = .label l := fun i => by
    cases i <;> simp [Insn.label?]
  simp only [labelsOf, List.mem_filterMap, hlabel, exists_eq_right]

namespace Method

variable {m : Method}

/-- A label is found if it stands anywhere. -/
theorem labelAt?_isSome {l : Nat} : (m.labelAt? l).isSome ↔ l ∈ labelsOf m.insns := by
  rw [labelAt?, List.findIdx?_isSome, List.any_eq_true]
  simp only [beq_iff_eq, labelsOf, List.mem_filterMap]

/-- **A label that stands once** is found where it stands. -/
theorem labelAt?_iff (hlabels : (labelsOf m.insns).Nodup) {l j : Nat} :
    m.labelAt? l = some j ↔ m.insns[j]? = some (.label l) := by
  refine ⟨labelAt?_spec, fun hj => ?_⟩
  obtain ⟨j', hj'⟩ := Option.isSome_iff_exists.mp
    (labelAt?_isSome.mpr (mem_labelsOf.mpr (List.mem_of_getElem? hj)))
  have hstands := labelAt?_spec hj'
  -- two places of one label would make the labels repeat
  have honce : ∀ {a b : Nat}, m.insns[a]? = some (.label l) → m.insns[b]? = some (.label l) →
      ¬ a < b := fun {a b} ha hb hlt => by
    have hsplit : labelsOf m.insns = labelsOf (m.insns.take b) ++ labelsOf (m.insns.drop b) := by
      rw [← labelsOf_append, List.take_append_drop]
    rw [hsplit] at hlabels
    refine (List.nodup_append.mp hlabels).2.2 l (mem_labelsOf.mpr ?_) l (mem_labelsOf.mpr ?_) rfl
    · exact List.mem_of_getElem? (i := a) (by rw [List.getElem?_take_of_lt hlt, ha])
    · exact List.mem_of_getElem? (i := 0) (by rw [List.getElem?_drop, Nat.add_zero, hb])
  have heq : j' = j := by
    have := honce hj hstands
    have := honce hstands hj
    omega
  exact heq ▸ hj'

/-! ## 2. Ways on -/

/-- The ways on from an instruction of a method: to the next one, or to a place of the label that it
jumps to. -/
inductive GoesOn (m : Method) (k : Nat) : Nat → Prop where
  | falls {i : Insn} (hi : m.insns[k]? = some i) (hfall : i.fallsThrough = true)
      (hlt : k + 1 < m.insns.length) : GoesOn m k (k + 1)
  | jumps {i : Insn} {l j : Nat} (hi : m.insns[k]? = some i) (hjump : i.jumpTarget? = some l)
      (hj : m.insns[j]? = some (.label l)) : GoesOn m k j

/-- An instruction that falls through past the end. -/
def FallsOff (m : Method) (k : Nat) : Prop :=
  ∃ i, m.insns[k]? = some i ∧ i.fallsThrough = true ∧ k + 1 = m.insns.length

/-- What a body needs to have a flow graph. -/
structure Passable (m : Method) : Prop where
  nonempty : m.insns ≠ []
  labels : (labelsOf m.insns).Nodup
  /-- Every jump, dead code included, names a label of the method. -/
  jumps : ∀ i ∈ m.insns, ∀ l, i.jumpTarget? = some l → .label l ∈ m.insns
  /-- No way from the first instruction comes to one that falls through past the end. -/
  stays : ∀ k, Relation.ReflTransGen m.GoesOn 0 k → ¬ m.FallsOff k

end Method

namespace FlowGraph

variable {m : Method} {g : FlowGraph}

/-- **The edges are the ways on.** -/
theorem Describes.mem_next_iff (h : g.Describes m) {k j : Nat} :
    j ∈ next g.successors k ↔ m.GoesOn k j := by
  have hlabels := m.repeatedLabel?_eq_none_iff.mp h.labels
  constructor
  · intro hj
    cases hk : m.insns[k]? with
    | none =>
      have hlen := edgesFrom_length h.edges
      rw [List.getElem?_eq_none_iff] at hk
      simp [next, List.getElem?_eq_none (hlen ▸ hk)] at hj
    | some i =>
      rcases h.mem_next hk hj with ⟨hfall, rfl⟩ | ⟨l, hjump, hl⟩
      · exact .falls hk hfall (h.next_lt hj)
      · exact .jumps hk hjump (Method.labelAt?_spec hl)
  · rintro (⟨hi, hfall, hlt⟩ | ⟨hi, hjump, hj⟩)
    · exact h.following hi hfall hlt
    · obtain ⟨target, htarget, hmem⟩ := h.jump hi hjump
      obtain rfl := Option.some.inj (((Method.labelAt?_iff hlabels).mpr hj).symm.trans htarget)
      exact hmem

/-- **The search finds** exactly what edges lead to from the first instruction. -/
theorem mem_reached_iff (h : ofMethod m = .ok g) {k : Nat} :
    k ∈ g.reached ↔ Relation.ReflTransGen (fun i j => j ∈ next g.successors i) 0 k := by
  obtain ⟨hfirst, hclosed, -⟩ := ofMethod_reached h
  constructor
  · rw [(ofMethod_explore h).1]
    exact explore_sub (P := Relation.ReflTransGen (fun i j => j ∈ next g.successors i) 0)
      (fun k hk t ht => hk.tail ht) _ _ _ (by simpa using .refl) (by simpa using .refl) k
  · intro hk
    induction hk with
    | refl => exact hfirst
    | tail _ hedge ih => exact hclosed _ ih _ hedge

/-- A body with labels in order whose ways never come past the end has a graph. -/
theorem ofMethod_of_passable (h : m.Passable) : ∃ g, ofMethod m = .ok g := by
  obtain ⟨successors, hedges⟩ := edgesFrom_isOk 0 fun i hi l hl =>
    Method.labelAt?_isSome.mpr (mem_labelsOf.mpr (h.jumps i hi l hl))
  have hlabels := m.repeatedLabel?_eq_none_iff.mpr h.labels
  have hdescribes : Describes ⟨successors, []⟩ m := ⟨h.nonempty, hlabels, hedges⟩
  have hreached : ∀ k ∈ explore successors m.insns.length [0] [0],
      Relation.ReflTransGen m.GoesOn 0 k :=
    explore_sub (fun k hk t ht => hk.tail (hdescribes.mem_next_iff.mp ht)) _ _ _
      (by simpa using .refl) (by simpa using .refl)
  have hclosed : ¬ (openEnd m && (explore successors m.insns.length [0] [0]).contains
      (m.insns.length - 1)) = true := by
    rw [Bool.and_eq_true, List.contains_iff_mem]
    rintro ⟨hopen, hlast⟩
    have hpos := List.length_pos_iff.mpr h.nonempty
    refine h.stays _ (hreached _ hlast) ?_
    unfold openEnd at hopen
    rw [List.getLast?_eq_getElem?] at hopen
    split at hopen
    · rename_i i hi
      exact ⟨i, hi, hopen, by omega⟩
    · exact absurd hopen (by simp)
  refine ⟨⟨successors, explore successors m.insns.length [0] [0]⟩, ?_⟩
  unfold ofMethod
  rw [if_neg (by simpa using h.nonempty), hlabels]
  simp only [hedges, if_neg hclosed]

/-- **Which methods have a flow graph.** -/
theorem ofMethod_isOk_iff : (∃ g, ofMethod m = .ok g) ↔ m.Passable := by
  refine ⟨fun ⟨g, h⟩ => ?_, ofMethod_of_passable⟩
  have hg := ofMethod_describes h
  refine ⟨hg.nonempty, m.repeatedLabel?_eq_none_iff.mp hg.labels, fun i hi l hl => ?_, ?_⟩
  · obtain ⟨k, hk⟩ := List.getElem?_of_mem hi
    obtain ⟨target, htarget, -⟩ := hg.jump hk hl
    exact List.mem_of_getElem? (Method.labelAt?_spec htarget)
  · rintro k hk ⟨i, hi, hfall, hlast⟩
    have hedges : m.GoesOn = fun i j => j ∈ next g.successors i :=
      funext fun _ => funext fun _ => propext hg.mem_next_iff.symm
    rw [hedges] at hk
    have := (ofMethod_reached h).2.2 k ((mem_reached_iff h).mpr hk) i hi hfall
    omega

end FlowGraph

/-! ## 3. Edges noted one by one -/

/-- The edges of a graph under construction, noted at both ends. -/
structure EdgeNotes where
  successors : List (List Nat)
  predecessors : List (List Nat)
  deriving DecidableEq, Repr

namespace EdgeNotes

open FlowGraph (next)

def empty (size : Nat) : EdgeNotes := ⟨List.replicate size [], List.replicate size []⟩

/-- Notes an edge, unless it is there. -/
def note (e : EdgeNotes) (i j : Nat) : EdgeNotes :=
  if (next e.successors i).contains j then e
  else ⟨e.successors.modify i (· ++ [j]), e.predecessors.modify j (· ++ [i])⟩

/-- Notes the edge to the next instruction, if there is one. -/
def noteFall (m : Method) (k : Nat) (i : Insn) (e : EdgeNotes) : EdgeNotes :=
  if i.fallsThrough ∧ k + 1 < m.insns.length then e.note k (k + 1) else e

/-- Notes the edges of an instruction, the jump first. -/
def noteInsn (m : Method) (k : Nat) (i : Insn) (e : EdgeNotes) : Except WeaveError EdgeNotes :=
  match i.jumpTarget? with
  | none => .ok (noteFall m k i e)
  | some l =>
    match m.labelAt? l with
    | none => .error (.unknownLabel k l)
    | some target => .ok (noteFall m k i (e.note k target))

/-- Notes the edges of instructions one after the other. -/
def noteFrom (m : Method) (k : Nat) (e : EdgeNotes) : List Insn → Except WeaveError EdgeNotes
  | [] => .ok e
  | i :: rest =>
    match noteInsn m k i e with
    | .error e => .error e
    | .ok e => noteFrom m (k + 1) e rest

/-- The edges of a method, noted one by one. -/
def ofMethod (m : Method) : Except WeaveError EdgeNotes :=
  noteFrom m 0 (empty m.insns.length) m.insns

/-- The indices that a list of successors leads from to one. -/
def sources (successors : List (List Nat)) (j : Nat) : List Nat :=
  (List.range successors.length).filter fun i => (next successors i).contains j

/-- The notes when the instructions with these successors are done, among so many in all. -/
def upTo (size : Nat) (done : List (List Nat)) : EdgeNotes :=
  ⟨done ++ List.replicate (size - done.length) [], (List.range size).map (sources done)⟩

variable {m : Method} {size : Nat} {done : List (List Nat)} {here : List Nat}

theorem next_append_self (rest : List (List Nat)) :
    next (done ++ here :: rest) done.length = here := by
  simp [next]

theorem modify_append_self (f : List Nat → List Nat) (rest : List (List Nat)) :
    ∀ done : List (List Nat), (done ++ here :: rest).modify done.length f = done ++ f here :: rest
  | [] => rfl
  | first :: done => by simp [modify_append_self f rest done]

theorem sources_append (j : Nat) :
    sources (done ++ [here]) j = sources done j ++ if j ∈ here then [done.length] else [] := by
  have hbefore : ∀ i ∈ List.range done.length,
      (next (done ++ [here]) i).contains j = (next done i).contains j := fun i hi => by
    rw [next, List.getElem?_append_left (List.mem_range.mp hi), ← next]
  unfold sources
  rw [List.length_append, List.length_singleton, List.range_succ, List.filter_append,
    List.filter_congr hbefore, List.filter_singleton, next_append_self]
  simp

/-- An instruction without edges leaves no notes. -/
theorem upTo_nil (hlt : done.length < size) : upTo size (done ++ [[]]) = upTo size done := by
  have hrest : size - done.length = (size - (done ++ [[]]).length) + 1 := by simp; omega
  unfold upTo
  rw [hrest, List.replicate_succ]
  simp [sources_append]

/-- **Noting an edge** of the instruction that is being done, from a list of its edges so far. -/
theorem note_upTo (j : Nat) : (upTo size (done ++ [here])).note done.length j =
    upTo size (done ++ [here ++ [j].filter (· ∉ here)]) := by
  unfold note
  simp only [upTo, List.append_assoc, List.singleton_append, next_append_self]
  by_cases hold : j ∈ here
  · simp [hold]
  · rw [if_neg (by simpa using hold)]
    congr 1
    · simp [modify_append_self, hold]
    · refine List.ext_getElem? fun x => ?_
      rw [List.getElem?_modify, List.getElem?_map, List.getElem?_map]
      by_cases hx : x < size
      · by_cases hxj : j = x
        · subst hxj
          simp [hx, sources_append, hold]
        · simp [hx, sources_append, hxj, Ne.symm hxj, hold]
      · simp [hx]

theorem noteFall_upTo {i : Insn} : noteFall m done.length i (upTo m.insns.length (done ++ [here])) =
    upTo m.insns.length (done ++ [here ++
      (if i.fallsThrough ∧ done.length + 1 < m.insns.length then [done.length + 1] else []).filter
        (· ∉ here)]) := by
  unfold noteFall
  split
  · exact note_upTo _
  · simp

/-- **Noting an instruction** adds its successors. -/
theorem noteInsn_upTo {i : Insn} (hlt : done.length < m.insns.length) :
    noteInsn m done.length i (upTo m.insns.length done) =
      (FlowGraph.successorsOf m done.length i).map
        fun here => upTo m.insns.length (done ++ [here]) := by
  unfold noteInsn FlowGraph.successorsOf
  rw [← upTo_nil hlt]
  cases i.jumpTarget? with
  | none => simp [noteFall_upTo, Except.map]
  | some l =>
    cases hl : m.labelAt? l with
    | none => simp [hl, Except.map]
    | some target => simp [hl, note_upTo, noteFall_upTo, Except.map]

/-- **Noting all instructions** collects the successors that the graph has. -/
theorem noteFrom_upTo : ∀ (insns : List Insn) (done : List (List Nat)),
    done.length + insns.length = m.insns.length →
    noteFrom m done.length (upTo m.insns.length done) insns =
      (FlowGraph.edgesFrom m done.length insns).map fun later => upTo m.insns.length (done ++ later)
  | [], done, _ => by simp [noteFrom, FlowGraph.edgesFrom, Except.map]
  | i :: rest, done, hlen => by
    rw [List.length_cons] at hlen
    unfold noteFrom FlowGraph.edgesFrom
    rw [noteInsn_upTo (by omega)]
    cases FlowGraph.successorsOf m done.length i with
    | error e => rfl
    | ok here =>
      have ih := noteFrom_upTo rest (done ++ [here]) (by simp; omega)
      rw [List.length_append, List.length_singleton] at ih
      simp only [Except.map, ih]
      cases FlowGraph.edgesFrom m (done.length + 1) rest with
      | error e => rfl
      | ok later => simp

/-- **The lists of a graph** are what noting its edges one by one gives. -/
theorem ofMethod_eq {g : FlowGraph} (h : g.Describes m) :
    ofMethod m = .ok ⟨g.successors, (List.range m.insns.length).map g.predecessors⟩ := by
  have hstart : empty m.insns.length = upTo m.insns.length [] := by
    have hnone : sources [] = fun _ => [] := rfl
    simp [empty, upTo, hnone, List.map_const']
  have hsize := FlowGraph.edgesFrom_length h.edges
  have hall := noteFrom_upTo (m := m) m.insns [] (by simp)
  rw [List.length_nil, h.edges] at hall
  unfold ofMethod
  rw [hstart, hall]
  simp only [Except.map, upTo, List.nil_append, hsize, Nat.sub_self, List.replicate_zero,
    List.append_nil]
  rfl

end EdgeNotes

/-! ## 4. Steps -/

namespace Program

variable {p : Program} {limits : MachineSettings} {m : Method} {below : List Waiting}
    {world : World}

/-- **A step of the activation at work** returns, falls through or jumps.  While a call is made it
waits at the next instruction. -/
theorem step_goes {a : Activation} {i : Insn} {t : RunState} (ha : a.routine = .ofMethod m)
    (ht : p.step limits ⟨world, a, below⟩ i = .running t) :
    (i.isReturn = true ∧ t.callers.length < below.length) ∨
      ∃ a' pending, t.Has below a' pending ∧ a'.routine = .ofMethod m ∧
        ((i.fallsThrough = true ∧ a'.pc = a.pc + 1) ∨
          ∃ l, i.jumpTarget? = some l ∧ m.labelAt? l = some a'.pc) := by
  have hgoes := Work.perform_ways a.routine.key a.underflow (RunState.inUse a below) i
    ⟨world, a.locals, a.stack⟩
  unfold Action.Wp at hgoes
  split at hgoes
  · rename_i transfer b hout
    rw [step_of_ok hout] at ht
    cases transfer with
    | next =>
      cases ht
      exact .inr ⟨_, 0, .working _ _, ha, .inl ⟨hgoes, rfl⟩⟩
    | jump l =>
      simp only [Program.transfer] at ht
      split at ht
      · rename_i target htarget
        cases ht
        rw [ha] at htarget
        exact .inr ⟨_, 0, .working _ _, ha, .inr ⟨l, hgoes, htarget⟩⟩
      · exact absurd ht (by simp)
    | call target args =>
      obtain rfl : i = _ := hgoes
      rcases enter_running ht with ⟨_, _, _, rfl⟩ | ⟨_, _, _, _, _, _, hdelivered⟩
      · exact .inr ⟨_, _, .waiting _ _ [] _ _, ha, .inl ⟨rfl, rfl⟩⟩
      · -- a native has delivered its result at once
        obtain ⟨c, rest, hcons, rfl⟩ := deliver_running hdelivered
        obtain ⟨rfl, rfl⟩ := List.cons.inj hcons
        refine .inr ⟨_, 0, .working _ _, ?_, .inl ⟨rfl, ?_⟩⟩
        all_goals split <;> first | exact ha | rfl
    | ret v =>
      obtain ⟨ty, rfl⟩ := hgoes
      obtain ⟨c, rest, rfl, rfl⟩ := deliver_running ht
      exact .inl ⟨rfl, Nat.lt_succ_self _⟩
  · rename_i e b hout
    rw [step_of_error hout] at ht
    exact absurd ht (by simp)

end Program

/-! ## 5. Graphs of methods -/

namespace FlowGraph

variable {m : Method} {g : FlowGraph}

/-- An activation of the method in a run, at an instruction that the graph reaches. -/
structure Keeps (g : FlowGraph) (m : Method) (below : List Waiting) (s : RunState)
    (a : Activation) :
    Prop where
  alive : ∃ pending, s.Has below a pending
  routine : a.routine = .ofMethod m
  reachable : g.isReachable a.pc = true
  inside : a.pc < m.insns.length

/-- What the graph of a method says about it and about running it. -/
structure Guides (g : FlowGraph) (m : Method) : Prop where
  size : g.size = m.insns.length
  /-- The successors are the ways on, each once. -/
  successors : ∀ k, (next g.successors k).Nodup ∧ ∀ j, j ∈ next g.successors k ↔ m.GoesOn k j
  /-- The predecessors are the other ends of the same edges, each once. -/
  predecessors : ∀ j, (g.predecessors j).Nodup ∧ ∀ i, i ∈ g.predecessors j ↔ j ∈ next g.successors i
  /-- Both are what noting the edges one by one gives. -/
  noted : EdgeNotes.ofMethod m =
    .ok ⟨g.successors, (List.range m.insns.length).map g.predecessors⟩
  reachable : ∀ k, g.isReachable k = true ↔
    Relation.ReflTransGen (fun i j => j ∈ next g.successors i) 0 k
  /-- A step of an activation, wherever it stands, returns or goes along an edge; only code that is
  not reached can fall through past the end. -/
  step : ∀ (p : Program) (limits : MachineSettings) (world : World) (below : List Waiting)
    (a : Activation) (i : Insn) (t : RunState), a.routine = .ofMethod m → m.insns[a.pc]? = some i →
    p.step limits ⟨world, a, below⟩ i = .running t →
    (i.isReturn = true ∧ t.callers.length < below.length) ∨
      ∃ a' pending, t.Has below a' pending ∧ a'.routine = .ofMethod m ∧
        (a'.pc ∈ next g.successors a.pc ∨ g.isReachable a.pc = false ∧ a'.pc = m.insns.length)
  /-- Called with as many arguments as it has parameters, the method starts at its first
  instruction.  As long as the activation is alive, its own steps, when only those below wait, go
  along the edges, and those of others leave it where it is. -/
  life : ∀ (p : Program) (limits : MachineSettings) (world : World) (below : List Waiting)
    (args : List Value), args.length = m.paramSlots →
    ∃ start, Program.activate world below (.ofMethod m) args = .running start ∧
      (∃ a, g.Keeps m below start a ∧ a.pc = 0) ∧
      ∀ s, p.Within limits below.length start s → ∃ a, g.Keeps m below s a ∧
        ∀ i t, s.current.routine.insns[s.current.pc]? = some i → p.step limits s i = .running t →
          below.length ≤ t.callers.length → ∃ a', g.Keeps m below t a' ∧
            if s.callers.length = below.length then a'.pc ∈ next g.successors a.pc else a'.pc = a.pc

variable {p : Program} {limits : MachineSettings} {below : List Waiting}

theorem mem_predecessors {i j : Nat} :
    i ∈ g.predecessors j ↔ j ∈ next g.successors i := by
  rw [predecessors, List.mem_filter, List.mem_range, List.contains_iff_mem, and_iff_right_iff_imp]
  intro hj
  by_contra hi
  simp [next, List.getElem?_eq_none (Nat.not_lt.mp hi)] at hj

/-- **One step of an activation**, along an edge unless it returns or falls through past the end. -/
theorem step_along (h : ofMethod m = .ok g) {world : World} {a : Activation} {i : Insn}
    {t : RunState} (ha : a.routine = .ofMethod m) (hi : m.insns[a.pc]? = some i)
    (ht : p.step limits ⟨world, a, below⟩ i = .running t) :
    (i.isReturn = true ∧ t.callers.length < below.length) ∨
      ∃ a' pending, t.Has below a' pending ∧ a'.routine = .ofMethod m ∧
        (a'.pc ∈ next g.successors a.pc ∨ g.isReachable a.pc = false ∧ a'.pc = m.insns.length) := by
  have hg := ofMethod_describes h
  refine (Program.step_goes ha ht).imp_right ?_
  rintro ⟨a', pending, hhas, hroutine, ⟨hfall, hpc⟩ | ⟨l, hjump, hl⟩⟩
  · refine ⟨a', pending, hhas, hroutine, ?_⟩
    rw [hpc]
    by_cases hlt : a.pc + 1 < m.insns.length
    · exact .inl (hg.following hi hfall hlt)
    · have hinside := (List.getElem?_eq_some_iff.mp hi).1
      refine .inr ⟨?_, by omega⟩
      rw [← Bool.not_eq_true, isReachable, List.contains_iff_mem]
      exact fun hreached => hlt ((ofMethod_reached h).2.2 _ hreached i hi hfall)
  · obtain ⟨target, htarget, hmem⟩ := hg.jump hi hjump
    obtain rfl := Option.some.inj (hl.symm.trans htarget)
    exact ⟨a', pending, hhas, hroutine, .inl hmem⟩

/-- **One step of a run** in which an activation is alive. -/
theorem Keeps.step (h : ofMethod m = .ok g) {s t : RunState} {a : Activation} {i : Insn}
    (hs : g.Keeps m below s a) (hi : s.current.routine.insns[s.current.pc]? = some i)
    (ht : p.step limits s i = .running t) (halive : below.length ≤ t.callers.length) :
    ∃ a', g.Keeps m below t a' ∧
      if s.callers.length = below.length then a'.pc ∈ next g.successors a.pc else a'.pc = a.pc := by
  obtain ⟨⟨pending, hhas⟩, hroutine, hreachable, hinside⟩ := hs
  cases hhas with
  | working world =>
    simp only [if_true]
    rw [hroutine, Routine.insns_getElem?] at hi
    rcases step_along h hroutine hi ht with ⟨-, hback⟩ | ⟨a', pending, hhas, hroutine', hedge⟩
    · omega
    · have hedge := hedge.resolve_right fun hdead => by simp [hreachable] at hdead
      rw [isReachable, List.contains_iff_mem] at hreachable
      refine ⟨a', ⟨⟨pending, hhas⟩, hroutine', ?_, (ofMethod_describes h).next_lt hedge⟩, hedge⟩
      rw [isReachable, List.contains_iff_mem]
      exact (ofMethod_reached h).2.1 _ hreachable _ hedge
  | waiting world current above a ret =>
    have hne : ¬ (above ++ ⟨a, ret⟩ :: below).length = below.length := by
      rw [List.length_append, List.length_cons]
      omega
    simp only [if_neg hne]
    rcases Program.step_apart (c := ⟨a, ret⟩) ht with hhas | ⟨v, -, hhas⟩
    · exact ⟨a, ⟨⟨_, hhas⟩, hroutine, hreachable, hinside⟩, rfl⟩
    · exact ⟨_, ⟨⟨_, hhas⟩, hroutine, hreachable, hinside⟩, rfl⟩

/-- **As long as it is alive**, an activation stands at an instruction that the graph reaches. -/
theorem Keeps.within (h : ofMethod m = .ok g) {start s : RunState}
    (hs : p.Within limits below.length start s) (hstart : ∃ a, g.Keeps m below start a) :
    ∃ a, g.Keeps m below s a := by
  induction hs with
  | start => exact hstart
  | step _ hi ht halive ih =>
    obtain ⟨a, ha⟩ := ih
    obtain ⟨a', ha', -⟩ := ha.step h hi ht halive
    exact ⟨a', ha'⟩

/-- A method with a graph starts at its first instruction. -/
theorem activate_keeps (h : ofMethod m = .ok g) (world : World) {args : List Value}
    (hargs : args.length = m.paramSlots) :
    ∃ start, Program.activate world below (.ofMethod m) args = .running start ∧
      ∃ a, g.Keeps m below start a ∧ a.pc = 0 := by
  have hg := ofMethod_describes h
  refine ⟨⟨world, ⟨.ofMethod m, 0, (Routine.ofMethod m).locals args, []⟩, below⟩, ?_,
    _, ⟨⟨0, .working _ _⟩, rfl, ?_, List.length_pos_iff.mpr hg.nonempty⟩, rfl⟩
  · simp [Program.activate, Routine.ofMethod, hg.labels, hargs]
  · rw [isReachable, List.contains_iff_mem]
    exact (ofMethod_reached h).1

/-- **The flow graph is how execution goes.**  A method has one exactly if its body is in order, and
then the edges are the ways on and every run of the method goes along them. -/
theorem ofMethod_guides (m : Method) :
    ((∃ g, ofMethod m = .ok g) ↔ m.Passable) ∧ ∀ g, ofMethod m = .ok g → g.Guides m := by
  refine ⟨ofMethod_isOk_iff, fun g h => ?_⟩
  have hg := ofMethod_describes h
  refine {
    size := edgesFrom_length hg.edges
    successors := fun k => ⟨hg.nodup_next k, fun _ => hg.mem_next_iff⟩
    predecessors := fun j => ⟨List.nodup_range.filter _, fun _ => mem_predecessors⟩
    noted := EdgeNotes.ofMethod_eq hg
    reachable := fun k => by rw [isReachable, List.contains_iff_mem, mem_reached_iff h]
    step := fun _ _ _ _ _ _ _ ha hi ht => step_along h ha hi ht
    life := fun p limits world below args hargs => ?_ }
  obtain ⟨start, hstart, a, ha, hpc⟩ := activate_keeps h world hargs
  refine ⟨start, hstart, ⟨a, ha, hpc⟩, fun s hs => ?_⟩
  obtain ⟨a, ha⟩ := Keeps.within h hs ⟨a, ha⟩
  exact ⟨a, ha, fun i t hi ht halive => ha.step h hi ht halive⟩

end FlowGraph

/-- A loop whose first branch jumps to the instruction behind it, with a dead end. -/
def turningBack : Method :=
  ⟨"demo/Loop", "turn", ⟨[.int], .void⟩, true, 1, 1,
    [.label 0, .load 0, .ifZero .ne 1, .label 1, .load 0, .ifZero .eq 0, .ret .void, .nop]⟩

/-- The branch to the next instruction is one edge, and the dead end is not held against the method.
-/
theorem turningBack_guides : ∃ g, FlowGraph.ofMethod turningBack = .ok g ∧ g.Guides turningBack ∧
    turningBack.Passable ∧ g.successors = [[1], [2], [3], [4], [5], [0, 6], [], []] ∧
    g.predecessors 3 = [2] ∧ g.predecessors 0 = [5] ∧ g.isReachable 7 = false :=
  have h := FlowGraph.ofMethod_guides turningBack
  ⟨_, rfl, h.2 _ rfl, h.1.mp ⟨_, rfl⟩, rfl, rfl, rfl, rfl⟩

end Provenance
