/-
# What a call hands over

A caller puts the points of the arguments into the record of the call, one after the other, and the
method that is called finds the record when it starts.  The history `handing` keeps, beside the run,
the points as they were computed: each lay on top of the stack when it was put away, behind the code
that had pushed it.

Sections 3 and 4 follow the record from its making to the claim (`Weaver.Plans.handed`): in the
slots of the record that the method has in its hands lie the points that were computed, each by the
code for its argument.  `MethodRef.Names.callSlots` puts this beside what is said of the parameters
and of what is planned.
-/
import Provenance.Proofs.Filling
import Provenance.Proofs.Lasting
import Provenance.Proofs.Proceeding

namespace Provenance

/-! ## 1. Records and their points -/

namespace Store

/-- The store knows a record by the signature it was made for, with the points that were put into
it, the latest first. -/
def Carries (s : Store) (signature : String) (id : Nat)
    (points : List (Nat × Option Point)) : Prop :=
  s.isActive ∧ ∃ r, s.record? id = some r ∧ r.signature = signature ∧ r.args.length = maxArgSlots ∧
    ∀ n, r.args[n]?.join = (points.lookup n).join

variable {s s' : Store} {signature : String} {id : Nat} {points : List (Nat × Option Point)}

theorem Carries.holds (h : s.Carries signature id points) : s.Holds signature id :=
  ⟨h.1, h.2.imp fun _ hr => ⟨hr.1, hr.2.1⟩⟩

/-- **What is in a slot** is the point that was put there last, if any was. -/
theorem Carries.argPoint (h : s.Carries signature id points) (n : Nat) :
    s.argPoint id n = (points.lookup n).join := by
  obtain ⟨-, r, hr, -, -, hargs⟩ := h
  rw [← hargs n, Store.argPoint, hr]
  rfl

theorem Carries.of_records (h : s.Carries signature id points) (hrecords : s'.records = s.records)
    (hsuspended : s'.suspended = s.suspended) : s'.Carries signature id points := by
  unfold Carries isActive record? at h ⊢
  rwa [hrecords, hsuspended]

theorem claim_suspended (s : Store) (signature : String) :
    (s.claim signature).2.suspended = s.suspended := by
  unfold claim
  simp only
  split
  · rfl
  · split <;> rfl

/-- A new record has no points. -/
theorem createRecord_carries (hactive : s.isActive) (signature : String) :
    (s.createRecord signature).2.Carries signature (s.createRecord signature).1 [] := by
  refine ⟨hactive, ⟨signature, List.replicate maxArgSlots none, none⟩, ?_,
    rfl, by simp, fun n => ?_⟩
  · unfold record? createRecord
    simp [Table.get?_add]
  · rw [List.getElem?_replicate]
    split <;> rfl

/-- **A point that is put into a slot is there**: it is not dropped. -/
theorem Carries.setArg (h : s.Carries signature id points) {slot : Nat} (hslot : slot < maxArgSlots)
    (point : Option Point) :
    ∃ s', s.setArg id slot point = .ok s' ∧ s'.Carries signature id ((slot, point) :: points) := by
  obtain ⟨hactive, r, hr, hsignature, hlength, hargs⟩ := h
  refine ⟨_, if_pos hslot, hactive, { r with args := r.args.set slot point }, ?_, hsignature,
    ?_, fun n => ?_⟩
  · unfold record? at hr ⊢
    simp [Table.get?_modify, hr]
  · rw [List.length_set, hlength]
  · rw [lookup_cons_if, List.getElem?_set]
    by_cases hn : n = slot
    · subst hn
      simp [hlength, hslot]
    · rw [if_neg (Ne.symm hn), if_neg hn]
      exact hargs n

end Store

/-! ## 2. The history -/

/-- An argument that was put into a record. -/
structure Handed.Item where
  slot : Nat
  /-- What was done since the argument before, or since the record was made. -/
  code : List Insn
  /-- The point that lay on top of the stack then. -/
  point : Option Point
  deriving DecidableEq, Repr

/-- What was put together for the next call. -/
structure Handed where
  /-- The record. -/
  id : Nat
  /-- What was put into it, the latest first. -/
  items : List Handed.Item
  /-- What was done since then. -/
  since : List Insn
  deriving DecidableEq, Repr

/-- The points in the slots of the record. -/
def Handed.points (g : Handed) : List (Nat × Option Point) := g.items.map fun e => (e.slot, e.point)

/-- The slots and what was done to compute the point for each. -/
def Handed.codes (g : Handed) : List (Nat × List Insn) := g.items.map fun e => (e.slot, e.code)

/-- A point that lies on top of the stack. -/
def Bench.topPoint (b : Bench) : Option Point :=
  b.stack.head?.bind fun x => (b.world.heap.point x).toOption.join

/-- The history of what is put together for the next call. -/
def handing : Watch (Option Handed) where
  start := none
  after i b h :=
    match i with
    | .hook (.invocationCreate signature) =>
      if b.world.store.isActive then some ⟨(b.world.store.createRecord signature).1, [], []⟩
      else none
    | .hook (.invocationSetArg slot) =>
      h.map fun g => { g with items := ⟨slot, g.since, b.topPoint⟩ :: g.items, since := [] }
    | i => h.map fun g => { g with since := g.since ++ [i] }
  Given _ _ := True
  Holds _ _ := True
  Shows _ _ _ := True

/-- An instruction that neither makes a record nor fills it. -/
def Insn.Between (i : Insn) : Prop :=
  (∀ signature, i ≠ .hook (.invocationCreate signature)) ∧
  ∀ slot, i ≠ .hook (.invocationSetArg slot)

theorem handing_after_between {i : Insn} (hi : i.Between) (b : Bench) (g : Handed) :
    handing.after i b (some g) = some { g with since := g.since ++ [i] } := by
  unfold handing
  simp only
  split
  · exact absurd rfl (hi.1 _)
  · exact absurd rfl (hi.2 _)
  · rfl

/-- Code between the arguments is what was done since the last one. -/
theorem through_between {P : Bench → Prop} : ∀ {code : List Insn} {b : Bench} {g : Handed},
    (∀ i ∈ code, i.Between) → Work.Through (fun _ _ => True) code P b →
    handing.Through code (fun b' h' => P b' ∧
      h' = some { g with since := g.since ++ code }) b (some g)
  | [], _, g, _, hcode => ⟨hcode, by rw [List.append_nil]⟩
  | i :: code, b, g, hbetween, hcode => fun _ => by
    obtain ⟨hi, hbetween⟩ := List.forall_mem_cons.mp hbetween
    refine ⟨trivial,
      fun method pc inUse => (hcode method pc inUse).mono (fun _ _ ht => ?_) fun _ _ h => h⟩
    rw [handing_after_between hi, List.append_cons]
    exact ⟨ht.1, through_between (g := { g with since := g.since ++ [i] }) hbetween ht.2⟩

/-- A run that ended with an error. -/
def RunResult.Failed (r : RunResult) : Prop := ∃ e, r.outcome = .error e

/-- **Code in a loaded method** that goes through, with what it adds to the history. -/
theorem Watch.Through.eventually {H : Type} {N : Watch H}
    (hgiven : ∀ i b, N.Given i b) {p : Program} {limits : MachineSettings}
    {Goal : RunState → H → Prop} {m : Method} {Q : Bench → H → Prop} {rest : List Insn}
    {callers : List Waiting} : ∀ {code : List Insn} {pc : Nat} {b : Bench} {h : H},
    N.Through code Q b h → m.insns.drop pc = code ++ rest →
    (∀ b h, Q b h → m.insns.drop (pc + code.length) = rest →
      N.toChronicle.Eventually p limits Goal (fun r _ => r.Failed)
        ⟨b.world, ⟨.ofMethod m, pc + code.length, b.locals, b.stack⟩, callers⟩ h) →
    N.toChronicle.Eventually p limits Goal (fun r _ => r.Failed)
      ⟨b.world, ⟨.ofMethod m, pc, b.locals, b.stack⟩, callers⟩ h
  | [], pc, b, h, hthrough, hdrop, hgoal => hgoal b h hthrough hdrop
  | i :: code, pc, b, h, hthrough, hdrop, hgoal => by
    obtain ⟨hi, hnext⟩ := getElem?_of_drop hdrop
    have hi' : (Routine.ofMethod m).insns[pc]? = some i := (Routine.insns_getElem? m pc).trans hi
    have hwp := (hthrough (hgiven i b)).2 (Routine.ofMethod m).key pc
      (RunState.inUse ⟨.ofMethod m, pc, b.locals, b.stack⟩ callers)
    unfold Action.Wp at hwp
    split at hwp
    · rename_i t b₁ hout
      obtain ⟨rfl, hthrough⟩ := hwp
      have hlen : pc + (i :: code).length = pc + 1 + code.length := by
        simp only [List.length_cons]
        omega
      rw [hlen] at hgoal
      exact .step hi' (Program.step_of_ok (a := ⟨.ofMethod m, pc, b.locals, b.stack⟩) hout)
        (Watch.Through.eventually hgiven hthrough hnext hgoal)
    · rename_i e b₁ hout
      exact .ended hi'
        (Program.step_of_error (a := ⟨.ofMethod m, pc, b.locals, b.stack⟩) hout) ⟨e, rfl⟩

/-! ## 3. From the making of a record to the claim -/

variable {signature : String} {below : List Value} {codes : List (Nat × List Insn)}
    {b : Bench} {g : Handed}
  {h : Option Handed}

/-- A record is being filled: it lies on top, and of the arguments those of `codes` are in it. -/
structure Filling (signature : String) (below : List Value)
    (codes : List (Nat × List Insn)) (b : Bench) (g : Handed) : Prop where
  stack : b.stack = .ofRecord (some g.id) :: below
  carries : b.world.store.Carries signature g.id g.points
  codes : g.codes = codes
  since : g.since = []

/-- A record that was filled waits for the method that is called. -/
structure Sent (signature : String) (codes : List (Nat × List Insn)) (s : Store)
    (g : Handed) : Prop where
  pending : s.pending = some g.id
  carries : s.Carries signature g.id g.points
  codes : g.codes = codes

/-- A method has a record in its hands: it keeps it in a local, the points in the slots are those
that were put there, and each was computed by the code for its slot. -/
structure Received (own : Nat) (codes : List (Nat × List Insn)) (b : Bench)
    (g : Handed) : Prop where
  kept : b.locals[own]? = some (.ofRecord (some g.id))
  points : ∀ n, b.world.store.argPoint g.id n = (g.points.lookup n).join
  codes : g.codes = codes

namespace Plan

variable {c : PlanContext} {S : List Site} {p : Plan} {k : Nat} {code : List Insn}

/-- A record is made. -/
theorem create_through (hactive : b.world.store.isActive) (signature : String) :
    handing.Through [.hook (.invocationCreate signature)]
      (fun b' h' => ∃ g, h' = some g ∧ Filling signature b.stack [] b' g) b h := by
  refine fun _ => ⟨trivial, fun method pc inUse => ?_⟩
  simp only [Work.perform, Work.hook, Action.wp_bind, Work.wp_onStore, Work.wp_push,
    Action.wp_pure, hactive, if_true]
  refine ⟨trivial, ⟨(b.world.store.createRecord signature).1, [], []⟩, ?_, rfl,
    Store.createRecord_carries hactive signature, rfl, rfl⟩
  simp only [handing, hactive, if_true]

theorem Loading.between (hl : p.Loading code) : ∀ i ∈ code, i.Between := by
  cases hl <;> simp [Insn.Between]

/-- **An argument is put into the record**, behind the code that pushes its point. -/
theorem setArg_through (hl : p.Loading code) {slot : Nat} (hslot : slot < Store.maxArgSlots)
    (hb : Filling signature below codes b g) :
    handing.Through (code ++ [.hook (.invocationSetArg slot)])
      (fun b' h' => ∃ g, h' = some g ∧ Filling signature below ((slot, code) :: codes) b' g) b
        (some g) := by
  refine (through_between (P := fun b' => ∃ x, b' = { b with stack := x :: b.stack }) hl.between
    (hl.through fun x => ⟨x, rfl⟩)).append fun b' h' hb' => ?_
  obtain ⟨⟨x, rfl⟩, rfl⟩ := hb'
  refine fun _ => ⟨trivial, fun method pc inUse => ?_⟩
  rw [hb.stack, hb.since, List.nil_append]
  simp only [Work.perform, Work.hook, Work.take, Action.wp_bind, Work.wp_pop_cons, Work.wp_fromHeap,
    Work.record_ofRecord]
  cases hpoint : b.world.heap.point x with
  | error e => trivial
  | ok point =>
    obtain ⟨s, hset, hcarries⟩ := hb.carries.setArg hslot point
    have htop : Bench.topPoint { b with stack := x :: .ofRecord (some g.id) :: below } = point := by
      simp [Bench.topPoint, hpoint, Except.toOption]
    refine ⟨rfl, ⟨g.id, ⟨slot, code, point⟩ :: g.items, []⟩, ?_, rfl, ?_, ?_, rfl⟩
    · simp only [handing, Option.map_some, htop]
    · simp only [hset]
      exact hcarries
    · rw [← hb.codes]
      rfl

/-- **All arguments of a call.** -/
theorem arguments_through :
    ∀ {es : List (Nat × Nat × List Insn)} {codes : List (Nat × List Insn)} {b : Bench} {g : Handed},
    (∀ e ∈ es, p.Loading e.2.2 ∧ e.2.1 < Store.maxArgSlots) →
    Filling signature below codes b g →
    handing.Through (es.flatMap fun e => e.2.2 ++ [.hook (.invocationSetArg e.2.1)])
      (fun b' h' => ∃ g, h' = some g ∧
        Filling signature below ((es.map Prod.snd).reverse ++ codes) b' g)
      b (some g)
  | [], _, _, g, _, hb => ⟨g, rfl, hb⟩
  | e :: es, codes, b, g, hes, hb => by
    obtain ⟨⟨hload, hslot⟩, hes⟩ := List.forall_mem_cons.mp hes
    have hcodes : ((e :: es).map Prod.snd).reverse ++ codes =
        (es.map Prod.snd).reverse ++ e.2 :: codes := by
      simp
    rw [List.flatMap_cons, hcodes]
    refine (setArg_through hload hslot hb).append fun b₁ h₁ hb₁ => ?_
    obtain ⟨g₁, rfl, hb₁⟩ := hb₁
    exact arguments_through hes hb₁

/-- The record is handed over. -/
theorem sending_through {put : Insn} (hput : p.Putting k put)
    (hb : Filling signature below codes b g) :
    handing.Through [.hook .invocationCalling, put]
      (fun b' h' => b'.stack = below ∧ ∃ g, h' = some g ∧ Sent signature codes b'.world.store g)
      b (some g) := by
  obtain ⟨w, L, stack⟩ := b
  obtain rfl : stack = .ofRecord (some g.id) :: below := hb.stack
  have hsent : ∀ since, Sent signature codes (w.store.handOver g.id) { g with since } :=
    fun since => ⟨rfl, hb.carries.of_records rfl rfl, hb.codes⟩
  refine fun _ => ⟨trivial,
    fun method pc inUse => ⟨rfl, fun _ => ⟨trivial, fun method pc inUse => ?_⟩⟩⟩
  cases hput with
  | dropped => exact ⟨rfl, rfl, _, rfl, hsent _⟩
  | @kept l _ =>
    simp only [Work.perform, Action.wp_bind, Work.wp_pop_cons, Work.wp_storeLocal]
    split
    · exact ⟨rfl, rfl, _, rfl, hsent _⟩
    · trivial

/-- **The code that gives a call its record.** -/
theorem recordCode_through (hp : p.Sound c S) {target : MethodRef}
    (hi : c.method.insns[k]? = some (.invoke target)) (hcode : p.recordCode k (.invoke target) ≠ [])
    (hslots : ∀ e ∈ p.arguments, e.1 = k → e.2.1 < Store.maxArgSlots)
    (hactive : b.world.store.isActive) :
    handing.Through (p.recordCode k (.invoke target)) (fun b' h' => b'.stack = b.stack ∧
      ∃ g, h' = some g ∧
        Sent target.signature (p.argumentCodes k).reverse b'.world.store g) b h := by
  rcases recordCode_cases hp hi with hnone | ⟨target', put, heq, -, hput, hrecord⟩
  · exact absurd hnone hcode
  · obtain rfl := Insn.invoke.inj heq
    have hes : ∀ e ∈ p.arguments.filter fun e => e.1 = k,
        p.Loading e.2.2 ∧ e.2.1 < Store.maxArgSlots := by
      intro e he
      obtain ⟨hmem, hk⟩ := List.mem_filter.mp he
      obtain ⟨_, _, _, _, _, hload⟩ := (hp.arguments e hmem).call
      exact ⟨loading_of_loadPoint hload, hslots e hmem (of_decide_eq_true hk)⟩
    rw [hrecord, ← List.singleton_append]
    refine (create_through hactive target.signature).append fun b₁ h₁ hb₁ => ?_
    obtain ⟨g₁, rfl, hb₁⟩ := hb₁
    refine (arguments_through hes hb₁).append fun b₂ h₂ hb₂ => ?_
    obtain ⟨g₂, rfl, hb₂⟩ := hb₂
    rw [List.append_nil] at hb₂
    exact sending_through hput hb₂

/-- The locals of the method itself stay as they are while the new ones become null. -/
theorem nulls_through (hp : p.Sound c S) :
    Work.Through (fun _ _ => True) (p.nullLocals.flatMap fun l => [.const .null, .store l])
      (fun b' => b'.world = b.world ∧
        ∀ l < c.method.maxLocals, b'.locals[l]? = b.locals[l]?) b := by
  refine Work.through_flatMap (fun l hl b' hb' method pc inUse => ⟨rfl, fun method pc inUse => ?_⟩)
    ⟨rfl, fun _ _ => rfl⟩
  obtain ⟨hworld, hlocals⟩ := hb'
  simp only [Work.perform, Action.wp_bind, Work.wp_pop_cons, Work.wp_storeLocal]
  split
  · refine ⟨rfl, hworld, fun j hj => ?_⟩
    have hne : l ≠ j := by
      have := (hp.nulls l hl).1
      omega
    simpa [Array.getElem?_setIfInBounds_ne hne] using hlocals j hj
  · trivial

/-- **The prologue** of the method that is called takes the record that waits. -/
theorem prologue_through (hp : p.Sound c S) {own : Nat} (hown : p.ownRecord = some own)
    (hsent : Sent c.method.signature codes b.world.store g) :
    handing.Through (p.prologue c.method)
      (fun b' h' => (∃ g, h' = some g ∧ Received own codes b' g) ∧
      ∀ l < c.method.maxLocals, b'.locals[l]? = b.locals[l]?) b (some g) := by
  have hbetween : ∀ i ∈ p.nullLocals.flatMap fun l => [Insn.const .null, .store l], i.Between := by
    intro i hi
    obtain ⟨l, -, hi⟩ := List.mem_flatMap.mp hi
    simp only [List.mem_cons, List.not_mem_nil, or_false] at hi
    rcases hi with rfl | rfl <;> simp [Insn.Between]
  unfold prologue
  rw [hown]
  refine (through_between hbetween (nulls_through hp)).append fun b₁ h₁ hb₁ => ?_
  obtain ⟨⟨hworld, hlocals⟩, rfl⟩ := hb₁
  obtain ⟨hpending, hcarries, hcodes⟩ := hsent
  rw [← hworld] at hpending hcarries
  have hclaim : (b₁.world.store.claim c.method.signature).1 = some g.id :=
    Store.claim_eq_some_iff.mpr ⟨hpending, hcarries.holds⟩
  refine fun _ => ⟨trivial, fun method pc inUse => ?_⟩
  simp only [Work.perform, Work.hook, Action.wp_bind, Work.wp_onStore, Work.wp_push,
    Action.wp_pure, hclaim]
  refine ⟨trivial, fun _ => ⟨trivial, fun method pc inUse => ?_⟩⟩
  simp only [Work.perform, Action.wp_bind, Work.wp_pop_cons, Work.wp_storeLocal]
  split
  · rename_i hlt
    refine ⟨rfl, ⟨_, rfl, ?_, fun n => ?_, hcodes⟩, fun l hl => ?_⟩
    · simp [hlt]
    · exact (hcarries.of_records (Store.claim_records _ _) (Store.claim_suspended _ _)).argPoint n
    · have hne : own ≠ l := by
        have := (hp.above .own own hown).1
        omega
      simpa [Array.getElem?_setIfInBounds_ne hne] using hlocals l hl
  · trivial

end Plan

/-! ## 4. The call -/

variable {w w' : Weaver} {breakInterning breakInterning' : Bool} {pool pool' : LiteralPool}
  {m callee : Method} {a a' : Analysis} {p q : Plan} {k : Nat} {target : MethodRef}
  {program : Program} {limits : MachineSettings}

/-- Where the code begins that gives a call its record. -/
def Plan.recordStart (p : Plan) (m : Method) (k : Nat) : Nat :=
  p.startOf m k + (codeAt k p.before).length

/-- **No point is dropped**: every argument that has code in a plan has a slot. -/
theorem Weaver.Plans.slot_lt (h : w.Plans breakInterning pool m a p)
    (hi : m.insns[k]? = some (.invoke target)) :
    ∀ e ∈ p.arguments, e.1 = k → e.2.1 < Store.maxArgSlots := by
  rintro e he rfl
  obtain ⟨_, f, -, -, hf, -⟩ := (h.woven.planned.arguments e he).call
  have hcodes : e.2 ∈ p.argumentCodes e.1 := List.mem_map_of_mem (List.mem_filter.mpr ⟨he, by simp⟩)
  obtain ⟨v, hrecorded, -⟩ := (h.fills hi hf).slot e.2 hcodes
  exact (Site.recorded?_eq_some hrecorded).1

/-- A run that was in front of a call, with operands on the stack, and has come to the code of the
method that is called. -/
structure Arrived (target : MethodRef) (operands : List Value) (codes : List (Nat × List Insn))
    (callee : Method) (q : Plan) (own : Nat) (s : RunState) (h : Option Handed) : Prop where
  routine : s.current.routine = .ofMethod (q.woven callee)
  pc : s.current.pc = (q.prologue callee).length
  received : ∃ g, h = some g ∧ Received own codes s.bench g
  parameters : ∀ n < target.desc.params.length, ∃ x, operands[target.depthOf n]? = some x ∧
    s.current.locals[callee.parameterLocal n]? = some x

/-- **From the making of a record to the claim.** -/
theorem Weaver.Plans.handed (hp : w.Plans breakInterning pool m a p)
    (hi : m.insns[k]? = some (.invoke target)) (hcode : p.recordCode k (.invoke target) ≠ [])
    (hq : w'.Plans breakInterning' pool' callee a' q) (hnames : target.Names callee) {own : Nat}
    (hown : q.ownRecord = some own)
    (hr : program.routine? target.owner target.name target.desc.descriptor =
      some (.ofMethod (q.woven callee)))
    {b : Bench} (hactive : b.world.store.isActive) (callers : List Waiting) (h : Option Handed) :
    handing.Eventually program limits
      (Arrived target b.stack (p.argumentCodes k).reverse callee q own) (fun r _ => r.Failed)
      ⟨b.world, ⟨.ofMethod (p.woven m), p.recordStart m k, b.locals, b.stack⟩, callers⟩ h := by
  have hsound : p.Sound ⟨m, a⟩ (Site.find m a breakInterning) := hp.woven.planned
  have hsound' : q.Sound ⟨callee, a'⟩ (Site.find callee a' breakInterning') := hq.woven.planned
  have hrecorded : Plan.Recorded ⟨m, a⟩ k target := by
    rcases Plan.recordCode_cases hsound hi with hnone | ⟨_, _, heq, hrecorded, -⟩
    · exact absurd hnone hcode
    · obtain rfl := Insn.invoke.inj heq
      exact hrecorded
  have hdrop : (p.woven m).insns.drop (p.recordStart m k) = p.recordCode k (.invoke target) ++
      (.invoke target :: (p.behind k ++ (p.woven m).insns.drop (p.startOf m (k + 1)))) := by
    rw [Plan.recordStart, ← List.drop_drop, Plan.woven_drop_block p hi, Plan.block_other p k rfl,
      Plan.inPlace_recorded hsound hrecorded, Plan.ahead]
    simp
  have hthrough := Plan.recordCode_through (h := h) hsound hi hcode (hp.slot_lt hi) hactive
  refine hthrough.eventually (fun _ _ => trivial) hdrop fun b₁ h₁ hb₁ hdrop₁ => ?_
  obtain ⟨hstack, g, rfl, hsent⟩ := hb₁
  obtain ⟨hi₁, -⟩ := getElem?_of_drop hdrop₁
  let s₁ : RunState := ⟨b₁.world, ⟨.ofMethod (p.woven m),
    p.recordStart m k + (p.recordCode k (.invoke target)).length, b₁.locals, b₁.stack⟩, callers⟩
  have hinsn : s₁.insn? = some (.invoke target) := (Routine.insns_getElem? (p.woven m) _).trans hi₁
  rcases Program.step_invoke limits s₁ hr with ⟨e, world, hs⟩ | ⟨hle, callers', hs⟩
  · exact .ended hinsn hs ⟨e, rfl⟩
  · refine .step hinsn hs ?_
    rw [handing_after_between ⟨by simp, by simp⟩]
    have hnames' : target.Names (q.woven callee) := ⟨hnames.name, hnames.desc, hnames.receiver⟩
    have hsent' : Sent callee.signature (p.argumentCodes k).reverse b₁.world.store
        { g with since := g.since ++ [.invoke target] } :=
      ⟨hsent.pending, hnames.signature ▸ hsent.carries, hsent.codes⟩
    let given :=
      (Routine.ofMethod (q.woven callee)).locals (b₁.stack.take target.operandCount).reverse
    have hprologue := Plan.prologue_through (b := ⟨b₁.world, given, []⟩) hsound' hown hsent'
    have hdrop' : (q.woven callee).insns.drop 0 =
        q.prologue callee ++ (q.woven callee).insns.drop (q.startOf callee 0) :=
          Plan.woven_prologue q callee
    refine hprologue.eventually (fun _ _ => trivial) hdrop' fun b₂ h₂ hb₂ _ => .here ?_
    obtain ⟨hreceived, hlocals⟩ := hb₂
    refine ⟨rfl, Nat.zero_add _, hreceived, fun n hn => ?_⟩
    obtain ⟨x, hx, hlocal⟩ := hnames'.operand_passed hle hn
    refine ⟨x, hstack ▸ hx, (hlocals _ ?_).trans hlocal⟩
    obtain ⟨first, -, hfirst, -⟩ := hq.woven.analysed.first
    have hfits : callee.paramSlots ≤ callee.maxLocals := Frame.entry_fits hfirst
    rw [Method.paramSlots] at hfits
    rw [← hnames.desc] at hn
    simp only [Method.parameterLocal]
    omega

/-! ## 5. Caller and callee -/

/-- A call and a method that it may call mean the same parameters by the same slots. -/
structure CallSlots (target : MethodRef) (callee : Method) : Prop where
  /-- Recorded are the parameters that the method, by its first frame, expects a point for, unless
  the call hands on what it is given. -/
  recorded_iff : ∀ (caller : Method) (breakInterning : Bool) (f first : Frame) (n : Nat),
    Frame.entry callee = .ok first →
    ((Site.recorded? caller breakInterning f target n).isSome ↔
      Carrier.isPassThrough target = false ∧
      ∃ t, first.locals[callee.parameterLocal n]? = some (.argument t n))
  /-- What is recorded is the value of the operand at a certain depth, and there is a slot for it.
  -/
  operand : ∀ (caller : Method) (breakInterning : Bool) (f : Frame) (n : Nat) (v : FlowValue),
    Site.recorded? caller breakInterning f target n = some v →
    n < Store.maxArgSlots ∧ v = f.top (target.depthOf n)
  /-- The operand at that depth is what the method finds in the local of the parameter. -/
  passed : ∀ (program : Program) (limits : MachineSettings) (s s' : RunState),
    program.routine? target.owner target.name target.desc.descriptor = some (.ofMethod callee) →
    program.step limits s (.invoke target) = .running s' →
    s'.current.routine = .ofMethod callee ∧ s'.current.pc = 0 ∧
    ∀ n < target.desc.params.length, ∃ x,
      s.current.stack[target.depthOf n]? = some x ∧
      s'.current.locals[callee.parameterLocal n]? = some x
  /-- The arguments that are recorded and can be followed have code for their points in the plan,
  each once, and no others have; if there are any, the call gets a record. -/
  planned : ∀ (w : Weaver) (breakInterning : Bool) (pool : LiteralPool) (caller : Method)
    (a : Analysis) (p : Plan) (k : Nat) (f : Frame), w.Plans breakInterning pool caller a p →
    caller.insns[k]? = some (.invoke target) → a.frame? k = some f →
    Plan.Fills ⟨caller, a⟩ p (Site.recorded? caller breakInterning f target) (p.argumentCodes k) ∧
      (p.argumentCodes k ≠ [] → p.recordCode k (.invoke target) ≠ [])
  /-- While tracking is on, a run that is about to make a record for the call comes to the code of
  the method, or fails before.  There the method has that record in its hands, and in the slots of
  it lie the points that were computed, each by the code that was planned for the argument. -/
  handed : ∀ (w w' : Weaver) (breakInterning breakInterning' : Bool) (pool pool' : LiteralPool)
    (caller : Method) (a a' : Analysis) (p q : Plan) (k own : Nat),
    w.Plans breakInterning pool caller a p → caller.insns[k]? = some (.invoke target) →
    p.recordCode k (.invoke target) ≠ [] →
    w'.Plans breakInterning' pool' callee a' q → q.ownRecord = some own →
    ∀ (program : Program) (limits : MachineSettings) (b : Bench) (callers : List Waiting)
    (h : Option Handed), program.routine? target.owner target.name target.desc.descriptor =
    some (.ofMethod (q.woven callee)) → b.world.store.isActive = true →
    handing.Eventually program limits
      (Arrived target b.stack (p.argumentCodes k).reverse callee q own) (fun r _ => r.Failed)
      ⟨b.world, ⟨.ofMethod (p.woven caller), p.recordStart caller k, b.locals, b.stack⟩, callers⟩ h

/-- **Caller and callee number the slots of a call record alike.** -/
theorem MethodRef.Names.callSlots (hnames : target.Names callee) : CallSlots target callee where
  recorded_iff _ _ _ _ _ hfirst := hnames.recorded_iff hfirst
  operand _ _ _ _ _ hrecorded := Site.recorded?_eq_some hrecorded
  passed _ limits s s' hr hs := by
    rcases Program.step_invoke limits s hr with ⟨e, world, hended⟩ | ⟨hle, callers, hstarts⟩
    · cases hs.symm.trans hended
    · obtain rfl := Progress.running.inj (hs.symm.trans hstarts)
      exact ⟨rfl, rfl, fun n hn => hnames.operand_passed hle hn⟩
  planned _ _ _ _ _ _ _ _ hplans hi hf :=
    ⟨hplans.fills hi hf, fun hcodes => Plan.recordCode_ne_nil hcodes _⟩
  handed _ _ _ _ _ _ _ _ _ _ _ _ _ hp hi hcode hq hown _ _ _ callers h hr hactive :=
    hp.handed hi hcode hq hnames hown hr hactive callers h

/-- A call with a receiver, of two parameters. -/
def putLetter : MethodRef := ⟨.virtual, "demo/B", "put", ⟨[.int, .char], .void⟩⟩

/-- Passes on a letter. -/
def sendLetter : Trial where
  method := ⟨"demo/A", "run", ⟨[.object "demo/B"], .void⟩, true, 1, 0,
    [.load 0, .const (.int 7), .const (.int 65), .invoke putLetter, .ret .void]⟩
  world := ⟨(Heap.empty.allocate (.instance "demo/B" [])).2, .empty .default, [], [], []⟩
  args := [.ref 1]

/-- The method that is called writes it to a field. -/
def keepPut : Trial where
  method := ⟨"demo/B", "put", ⟨[.int, .char], .void⟩, false, 3, 0,
    [.load 0, .load 2, .putField ⟨"demo/B", "letter", .char⟩, .ret .void]⟩
  world := sendLetter.world
  args := []

/-- The two classes. -/
def letterProgram (p q : Plan) : Program :=
  ⟨[("demo/A", [.ofMethod (p.woven sendLetter.method)]),
    ("demo/B", [.ofMethod (q.woven keepPut.method)])], []⟩

/-- The code that pushes the point of the letter: its place among the literals of the class. -/
def letterCode : List Insn := [.hook (.constantPoint ⟨0, 33, 1⟩)]

/-- Of the two parameters the letter is recorded, in the slot of the second one; and its point
arrives. -/
theorem putLetter_callSlots :
    (∀ (f : Frame) (n : Nat),
      (Site.recorded? sendLetter.method false f putLetter n).isSome ↔ n = 1) ∧
    ∃ a p a' q own, Weaver.everywhere.Plans false sendLetter.literals sendLetter.method a p ∧
      Weaver.everywhere.Plans false keepPut.literals keepPut.method a' q ∧ q.ownRecord = some own ∧
      ∀ b : Bench, b.world.store.isActive = true →
        handing.Eventually (letterProgram p q) ⟨8, 1000⟩
          (Arrived putLetter b.stack [(1, letterCode)] keepPut.method q own) (fun r _ => r.Failed)
          ⟨b.world,
            ⟨.ofMethod (p.woven sendLetter.method), p.recordStart sendLetter.method 3, b.locals,
            b.stack⟩, []⟩ none := by
  have hslots : CallSlots putLetter keepPut.method := MethodRef.Names.callSlots ⟨rfl, rfl, rfl⟩
  constructor
  · intro f n
    have hfirst : Frame.entry keepPut.method =
        .ok ⟨[.ofType (.object "demo/B"), .ofType .int, .argument .char 1], []⟩ := by decide +kernel
    have hpass : Carrier.isPassThrough putLetter = false := by decide
    rw [hslots.recorded_iff _ _ f _ n hfirst]
    rcases n with _ | _ | n
    · simp [hpass, Method.parameterLocal, keepPut, FlowValue.ofType]
    · simp [hpass, Method.parameterLocal, keepPut]
    · refine iff_of_false (fun h => ?_) (by omega)
      obtain ⟨-, t, ht⟩ := h
      rw [List.getElem?_eq_none (by simp [Method.parameterLocal, keepPut]; omega)] at ht
      cases ht
  · have hcaller : (sendLetter.plan?.map fun r => r.2.argumentCodes 3) =
        some [(1, letterCode)] := by
      decide +kernel
    have hcallee : (keepPut.plan?.map fun r => r.2.ownRecord) = some (some 3) := by decide +kernel
    obtain ⟨⟨a, p⟩, hp, hcodes⟩ := Option.map_eq_some_iff.mp hcaller
    obtain ⟨⟨a', q⟩, hq, hown⟩ := Option.map_eq_some_iff.mp hcallee
    simp only at hcodes hown
    have hrecord : p.recordCode 3 (.invoke putLetter) ≠ [] :=
      Plan.recordCode_ne_nil (by rw [hcodes]; exact List.cons_ne_nil _ _) _
    have hroutine :
        (letterProgram p q).routine? putLetter.owner putLetter.name putLetter.desc.descriptor =
        some (.ofMethod (q.woven keepPut.method)) := by
      simp [letterProgram, Program.routine?, putLetter, keepPut, Plan.woven, Routine.ofMethod,
        lookup_cons_if]
    have hplans := Trial.plans_of_plan? hp
    have hplans' := Trial.plans_of_plan? hq
    refine ⟨a, p, a', q, 3, hplans, hplans', hown, fun b hactive => ?_⟩
    have harrives := hslots.handed _ _ _ _ _ _ _ _ _ p q 3 3 hplans rfl hrecord hplans' hown
      (letterProgram p q) ⟨8, 1000⟩ b [] none hroutine hactive
    rwa [hcodes] at harrives

/-- A run that gets there. -/
example : (sendLetter.plan?.bind fun x => keepPut.plan?.bind fun y =>
    (handing.follow (letterProgram x.2 y.2) ⟨8, 1000⟩ (fun _ => true)
      { sendLetter.world with store := x.2.pool.store } "demo/A" "run" "(Ldemo/B;)V"
        sendLetter.args 11).map
        fun r => (r.2.map Handed.items, r.1.world.store.argPoint 1 1)) =
    some (some [⟨1, letterCode, some ⟨1, 33, 1⟩⟩], some ⟨1, 33, 1⟩) := by decide +kernel

end Provenance
