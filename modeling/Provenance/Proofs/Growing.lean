/-
# Plans only grow

A step of planning may fail, and what was planned before stays.  Nothing is ever taken back:
arguments are only added to those that are recorded, and what the store is told are literals for the
table of the class (`Plan.Grows`).  So whatever weaving comes to, the store is afterwards what it
was before, but for contents of trackers and the list of tables (`Weaver.weaveClass_store`).
-/
import Provenance.Proofs.Fates

namespace Provenance

/-! ## 1. Stores and pools -/

namespace Store

/-- Only trackers and tables may be others. -/
def OnlyWrites (s s' : Store) : Prop := ∃ ledger tables, s' = { s with ledger, tables }

variable {s s' s'' : Store} {id classId : Nat} {text : List Char}

theorem OnlyWrites.refl (s : Store) : s.OnlyWrites s := ⟨_, _, rfl⟩

theorem OnlyWrites.trans (h : s.OnlyWrites s') (h' : s'.OnlyWrites s'') : s.OnlyWrites s'' := by
  obtain ⟨_, _, rfl⟩ := h
  obtain ⟨_, _, rfl⟩ := h'
  exact ⟨_, _, rfl⟩

theorem onlyWrites_write (h : s.write id text = .ok s') : s.OnlyWrites s' := by
  unfold write onLedger at h
  split at h
  · exact Except.ok.inj h ▸ ⟨_, s.tables, rfl⟩
  · cases h

theorem onlyWrites_registerClass {className : String}
    (h : s.registerClass className = .ok (classId, s')) :
    s.OnlyWrites s' := by
  unfold registerClass at h
  simp only at h
  split at h
  · cases h
  · rename_i u hu
    obtain ⟨-, rfl⟩ := Prod.mk.inj (Except.ok.inj h)
    exact OnlyWrites.trans ⟨_, s.tables, rfl⟩ ((onlyWrites_write hu).trans ⟨u.ledger, _, rfl⟩)

theorem onlyWrites_startMethod {description : String}
    (h : s.startMethod classId description = .ok s') :
    s.OnlyWrites s' := by
  unfold startMethod at h
  split at h
  · cases h
  · exact onlyWrites_write h

theorem onlyWrites_writeLiteral {offset : Nat}
    (h : s.writeLiteral classId text = .ok (offset, s')) :
    s.OnlyWrites s' := by
  unfold writeLiteral at h
  split at h
  · cases h
  · split at h
    · cases h
    · rename_i hfirst
      simp only at h
      split at h
      · cases h
      · rename_i hsecond
        split at h
        · cases h
        · rename_i hthird
          obtain ⟨-, rfl⟩ := Prod.mk.inj (Except.ok.inj h)
          exact ((onlyWrites_write hfirst).trans (onlyWrites_write hsecond)).trans
            (onlyWrites_write hthird)

end Store

namespace LiteralPool

variable {p q : LiteralPool} {classId : Nat} {m : Method}

theorem onlyWrites_withTable (h : p.withTable = .ok (classId, q)) : p.store.OnlyWrites q.store := by
  unfold withTable at h
  split at h
  · obtain ⟨-, rfl⟩ := Prod.mk.inj (Except.ok.inj h)
    exact .refl _
  · split at h
    · cases h
    · rename_i hregister
      obtain ⟨-, rfl⟩ := Prod.mk.inj (Except.ok.inj h)
      exact Store.onlyWrites_registerClass hregister

theorem onlyWrites_withSection (h : p.withSection m = .ok (classId, q)) :
    p.store.OnlyWrites q.store := by
  unfold withSection at h
  split at h
  · cases h
  · rename_i htable
    split at h
    · obtain ⟨-, rfl⟩ := Prod.mk.inj (Except.ok.inj h)
      exact onlyWrites_withTable htable
    · split at h
      · cases h
      · rename_i hstart
        obtain ⟨-, rfl⟩ := Prod.mk.inj (Except.ok.inj h)
        exact (onlyWrites_withTable htable).trans (Store.onlyWrites_startMethod hstart)

/-- **Registering a whole number** writes a literal. -/
theorem onlyWrites_constant {value : Int64} {place : ClassConstant}
    (h : p.constant m value = .ok (place, q)) : p.store.OnlyWrites q.store := by
  unfold constant at h
  split at h
  · cases h
  · rename_i hsection
    unfold Store.registerConstant at h
    simp only at h
    split at h
    · cases h
    · rename_i hregister
      split at hregister
      · cases hregister
      · rename_i hwrite
        obtain ⟨-, rfl⟩ := Prod.mk.inj (Except.ok.inj h)
        obtain ⟨-, rfl⟩ := Prod.mk.inj (Except.ok.inj hregister)
        exact (onlyWrites_withSection hsection).trans (Store.onlyWrites_writeLiteral hwrite)

/-- **Registering a text** writes a literal. -/
theorem onlyWrites_string {text : String} {place : Nat × Nat}
    (h : p.string m text = .ok (place, q)) :
    p.store.OnlyWrites q.store := by
  unfold string at h
  split at h
  · cases h
  · rename_i hsection
    split at h
    · cases h
    · rename_i hwrite
      obtain ⟨-, rfl⟩ := Prod.mk.inj (Except.ok.inj h)
      exact (onlyWrites_withSection hsection).trans (Store.onlyWrites_writeLiteral hwrite)

end LiteralPool

/-! ## 2. Planning -/

namespace Plan

/-- Arguments are only added, and the store is only told literals. -/
structure Grows (p q : Plan) : Prop where
  arguments : p.arguments <+: q.arguments
  store : p.pool.store.OnlyWrites q.pool.store

variable {p q r : Plan}

theorem Grows.same (harguments : p.arguments = q.arguments) (hpool : p.pool = q.pool) : p.Grows q :=
  ⟨harguments ▸ List.prefix_rfl, hpool ▸ .refl _⟩

theorem Grows.trans (h : p.Grows q) (h' : q.Grows r) : p.Grows r :=
  ⟨h.arguments.trans h'.arguments, h.store.trans h'.store⟩

end Plan

namespace Planning

variable {α β : Type}

theorem run_read (f : Plan → Planning β) (p : Plan) : (get >>= f).run.run p = (f p).run.run p := rfl

/-- Planning in which the plan grows, whether it fails or not. -/
def Grows (x : Planning α) : Prop := ∀ p : Plan, p.Grows (x.run.run p).2

namespace Grows

theorem pure (a : α) : Grows (Pure.pure a) := fun _ => .same rfl rfl

theorem throw (e : WeaveError) : Grows (MonadExcept.throw e : Planning α) := fun _ => .same rfl rfl

theorem bind {x : Planning α} {f : α → Planning β} (hx : Grows x) (hf : ∀ a, Grows (f a)) :
    Grows (x >>= f) := by
  intro p
  have hp := hx p
  rw [run_bind]
  generalize x.run.run p = r at hp
  obtain ⟨_ | a, q⟩ := r
  · exact hp
  · exact hp.trans (hf a q)

/-- What is planned from the plan so far. -/
theorem read {f : Plan → Planning β} (hf : ∀ p, Grows (f p)) : Grows (get >>= f) :=
  fun p => hf p p

/-- A change of the plan. -/
theorem edit {f : Plan → Plan} (hf : ∀ p : Plan, p.Grows (f p)) :
    Grows (modify f : Planning PUnit) :=
  hf

/-- A change of the plan before something else. -/
theorem change {f : Plan → Plan} {x : Planning β} (hf : ∀ p : Plan, p.Grows (f p)) (hx : Grows x) :
    Grows (do modify f; x) := (edit hf).bind fun _ => hx

end Grows

end Planning

namespace Plan

variable (c : PlanContext)

theorem requireStack_grows (depth : Nat) : Planning.Grows (requireStack depth) :=
  .edit fun _ => .same rfl rfl

theorem insertBefore_grows (k : Nat) (code : List Insn) : Planning.Grows (insertBefore k code) :=
  .edit fun _ => .same rfl rfl

theorem insertAfter_grows (k : Nat) (code : List Insn) : Planning.Grows (insertAfter k code) :=
  .edit fun _ => .same rfl rfl

theorem replaceWith_grows (k : Nat) (code : List Insn) : Planning.Grows (replaceWith k code) :=
  .edit fun _ => .same rfl rfl

theorem stackBefore_grows (k : Nat) : Planning.Grows (stackBefore c k) := by
  unfold stackBefore
  split
  · exact .pure _
  · exact .throw _

theorem stackAfter_grows (k : Nat) : Planning.Grows (stackAfter c k) := by
  refine (stackBefore_grows c k).bind fun height => ?_
  split <;> exact .pure _

theorem newLocal_grows : Planning.Grows newLocal := fun _ => .same rfl rfl

theorem newNullLocal_grows : Planning.Grows newNullLocal :=
  newLocal_grows.bind fun _ => .change (fun _ => .same rfl rfl) (.pure _)

theorem isTrackable_grows (v : FlowValue) : Planning.Grows (isTrackable c v) :=
  fun _ => .same rfl rfl

theorem ensureStarted_grows : Planning.Grows ensureStarted := by
  refine .read fun p => ?_
  split
  · exact .pure _
  · exact newLocal_grows.bind fun _ =>
      .change (fun _ => .same rfl rfl) (.change (fun _ => .same rfl rfl) (.pure _))

theorem trackConstant_grows (value : Int64) : Planning.Grows (trackConstant c value) := by
  intro p
  unfold trackConstant
  rw [Planning.run_read]
  cases hplace : p.pool.constant c.method value with
  | error e => exact .same rfl rfl
  | ok place => exact ⟨List.prefix_rfl, LiteralPool.onlyWrites_constant hplace⟩

theorem trackString_grows (text : String) : Planning.Grows (trackString c text) := by
  intro p
  unfold trackString
  rw [Planning.run_read]
  cases hplace : p.pool.string c.method text with
  | error e => exact .same rfl rfl
  | ok place => exact ⟨List.prefix_rfl, LiteralPool.onlyWrites_string hplace⟩

theorem pointCode_grows (v : FlowValue) : Planning.Grows (pointCode v) := by
  refine .read fun p => ?_
  split
  · exact .pure _
  · exact .throw _

theorem ensurePointLocal_grows (k room : Nat) (take : List Insn) :
    Planning.Grows (ensurePointLocal c k room take) := by
  refine .read fun p => ?_
  split
  · exact newNullLocal_grows.bind fun _ => .change (fun _ => .same rfl rfl)
      ((insertBefore_grows _ _).bind fun _ => (stackBefore_grows c k).bind fun _ =>
        requireStack_grows _)
  · exact .pure _

theorem stashMember_grows (slot : MergeSlot) (l : Nat) (member : FlowValue) :
    Planning.Grows (stashMember c slot l member) := by
  refine (pointCode_grows member).bind fun code => ?_
  split
  · exact (stackBefore_grows c _).bind fun _ => (requireStack_grows _).bind fun _ =>
      insertBefore_grows _ _
  · split
    · exact .throw _
    · exact (stackAfter_grows c _).bind fun _ => (requireStack_grows _).bind fun _ =>
        insertAfter_grows _ _

theorem forEach_grows {f : FlowValue → Planning Unit} (hf : ∀ v, Planning.Grows (f v)) :
    ∀ vs : List FlowValue, Planning.Grows (forEach f vs)
  | [] => .pure _
  | v :: vs => (hf v).bind fun _ => forEach_grows hf vs

theorem ensureTrackedFrom_grows (fuel : Nat) : ∀ v : FlowValue,
    Planning.Grows (ensureTrackedFrom c fuel v) := by
  induction fuel using Nat.strongRecOn with
  | ind fuel ih =>
    intro v
    unfold ensureTrackedFrom
    split
    · exact .pure _
    · refine .read fun p => ?_
      split
      · exact (trackConstant_grows c _).bind fun _ => .edit fun _ => .same rfl rfl
      · exact .pure _
    · exact ensurePointLocal_grows c _ _ _
    · exact ensurePointLocal_grows c _ _ _
    · refine .read fun p => ?_
      split
      · exact newNullLocal_grows.bind fun _ => .change (fun _ => .same rfl rfl)
          ((stackBefore_grows c _).bind fun _ => requireStack_grows _)
      · exact .pure _
    · exact ensureStarted_grows.bind fun _ => .pure _
    · refine .read fun p => ?_
      split
      · exact .pure _
      · refine (isTrackable_grows c _).bind fun followed => ?_
        split
        · exact .edit fun _ => .same rfl rfl
        · cases fuel with
          | zero => exact .throw _
          | succ fuel =>
            refine newNullLocal_grows.bind fun l => .change (fun _ => .same rfl rfl) ?_
            exact forEach_grows
              (fun member => (ih fuel (Nat.lt_succ_self fuel) member).bind fun _ =>
              stashMember_grows c _ l member) _
    · exact .pure _

theorem ensureTracked_grows (v : FlowValue) : Planning.Grows (ensureTracked c v) :=
  ensureTrackedFrom_grows c _ v

theorem pointOrNull_grows (v : FlowValue) : Planning.Grows (pointOrNull c v) := by
  refine (isTrackable_grows c v).bind fun followed => ?_
  split
  · exact (ensureTracked_grows c v).bind fun _ => pointCode_grows v
  · exact .pure _

theorem recordArguments_grows (k : Nat) : ∀ (args : List (Option FlowValue)) (arg : Nat),
    Planning.Grows (recordArguments c k arg args)
  | [], _ => .pure _
  | none :: rest, arg => recordArguments_grows k rest (arg + 1)
  | some v :: rest, arg => by
    refine (isTrackable_grows c v).bind fun followed => ?_
    split
    · exact (ensureTracked_grows c v).bind fun _ => (pointCode_grows v).bind fun _ =>
        .change (fun _ => ⟨List.prefix_append _ _, .refl _⟩)
          ((recordArguments_grows k rest (arg + 1)).bind fun _ => .pure _)
    · exact recordArguments_grows k rest (arg + 1)

theorem concatPoints_grows : ∀ (ts : List Ty) (vs : List FlowValue),
    Planning.Grows (concatPoints c ts vs)
  | [], _ => .pure _
  | _ :: _, [] => .pure _
  | t :: ts, v :: vs => by
    have hunmarked : Planning.Grows (concatPoints c ts vs >>= fun r => pure ('.' :: r.1, r.2)) :=
      (concatPoints_grows ts vs).bind fun _ => .pure _
    unfold concatPoints
    split
    · refine (isTrackable_grows c v).bind fun followed => ?_
      beta_reduce
      split
      · exact (ensureTracked_grows c v).bind fun _ => (pointCode_grows v).bind fun _ =>
          (concatPoints_grows ts vs).bind fun _ => .pure _
      · exact hunmarked
    · exact hunmarked

/-- **A site** is planned with nothing told to the store but literals. -/
theorem planSite_grows (s : Site) : Planning.Grows (planSite c s) := by
  have hroom {x : Planning Unit} (room : Nat) (hx : Planning.Grows x) :
      Planning.Grows (do requireStack ((← stackBefore c s.insn) + room); x) :=
    (stackBefore_grows c _).bind fun _ => (requireStack_grows _).bind fun _ => hx
  unfold planSite
  simp only
  split
  · exact (pointOrNull_grows c _).bind fun _ => hroom _ (replaceWith_grows _ _)
  · exact (pointOrNull_grows c _).bind fun _ => hroom _ (insertBefore_grows _ _)
  · refine (recordArguments_grows c _ _ _).bind fun recorded => ?_
    split
    · exact (stackBefore_grows c _).bind fun _ => requireStack_grows _
    · exact .pure _
  · refine (isTrackable_grows c _).bind fun followed => ?_
    split
    · exact (ensureTracked_grows c _).bind fun _ => ensureStarted_grows.bind fun _ =>
        (pointCode_grows _).bind fun _ => hroom _ (insertBefore_grows _ _)
    · exact .pure _
  · refine (concatPoints_grows c _ _).bind fun marked => ?_
    split
    · exact hroom _ (replaceWith_grows _ _)
    · exact .pure _
  · exact replaceWith_grows _ _
  · exact (trackString_grows c _).bind fun _ => insertAfter_grows _ _
  · exact replaceWith_grows _ _
  · exact replaceWith_grows _ _

theorem planSites_grows : ∀ sites : List Site, Planning.Grows (planSites c sites)
  | [] => .pure _
  | s :: ss => (planSite_grows c s).bind fun _ => planSites_grows ss

end Plan

/-! ## 3. Classes -/

namespace Weaver

variable (w : Weaver) (breakInterning : Bool)

/-- **Weaving a method**, whether it comes to something or not. -/
theorem weaveMethod_store (pool : LiteralPool) (m : Method) :
    pool.store.OnlyWrites (w.weaveMethod breakInterning pool m).2.store := by
  unfold weaveMethod
  split
  · exact .refl _
  · rename_i a _
    simp only
    split
    · exact .refl _
    · have hplan := Plan.planSites_grows ⟨m, a⟩ (Site.find m a breakInterning)
        (Plan.start ⟨m, a⟩ pool)
      generalize (Plan.planSites _ _).run.run _ = r at hplan ⊢
      obtain ⟨_ | _, p⟩ := r
      · exact hplan.store
      · simp only
        repeat' split
        all_goals exact hplan.store

theorem weaveMethods_store : ∀ (ms : List Method) (pool : LiteralPool) (r : WeaveReport),
    pool.store.OnlyWrites (w.weaveMethods breakInterning pool r ms).2.2.store
  | [], _, _ => .refl _
  | m :: ms, pool, r => by
    have hm := w.weaveMethod_store breakInterning pool m
    rw [weaveMethods_cons]
    exact hm.trans (weaveMethods_store ms _ _)

/-- **Weaving a class** tells the store nothing but literals. -/
theorem weaveClass_store (store : Store) (c : Class) :
    store.OnlyWrites (w.weaveClass store c).2.2 := by
  cases hincluded : w.filter.includes c.name with
  | false =>
    rw [weaveClass_excluded _ hincluded]
    exact .refl _
  | true =>
    rw [weaveClass_included _ hincluded]
    exact w.weaveMethods_store _ c.methods (.ofClass store c.name) _

end Weaver

end Provenance
