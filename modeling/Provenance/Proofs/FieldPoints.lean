/-
# Field points are those of the last write

A history of a run keeps every write to a field with the point that was recorded for it, and what
the hook before a read has looked up (`FieldHistory`).  As long as all methods are woven, the store
knows for an object and a key the point of the last write that was recorded under that key, and the
heap holds for an object and a name the value of the last write to that name
(`FieldHistory.Agrees`).

Keys have the owner of the field in them, the fields of an object are told apart by their names
alone, and not every write is recorded.  So what is looked up before a field is read belongs to the
value that is then read wherever name and key mean the same writes
(`Program.fieldPoint_of_lastWrite`).
-/
import Mathlib.Data.List.Find
import Provenance.Proofs.FieldSparing
import Provenance.Proofs.Lasting

namespace Provenance

open Provenance.Action (Wp)

/-! ## 1. The history -/

/-- A write to a field. -/
structure FieldWrite where
  object : ObjectId
  /-- The field as the code names it. -/
  field : FieldRef
  /-- The value as the field holds it. -/
  value : Value
  /-- The point that was recorded for the value, or null, if a hook did so. -/
  recorded : Option (Option Point)
  deriving DecidableEq, Repr

/-- A point that a hook has looked up. -/
structure FieldLook where
  object : ObjectId
  key : String
  point : Option Point
  deriving DecidableEq, Repr

/-- What a run did to fields. -/
structure FieldHistory where
  /-- All writes, the latest first. -/
  writes : List FieldWrite
  /-- What was recorded since the last write. -/
  recorded : Option (Option Point)
  /-- What was looked up since the last read. -/
  looked : Option FieldLook
  deriving DecidableEq, Repr

namespace FieldHistory

/-- The last write to a field of that name. -/
def lastWrite (h : FieldHistory) (o : ObjectId) (name : String) : Option FieldWrite :=
  h.writes.find? fun e => e.object = o ∧ e.field.name = name

/-- The last write that was recorded under a key. -/
def lastRecorded (h : FieldHistory) (o : ObjectId) (key : String) : Option FieldWrite :=
  h.writes.find? fun e => e.object = o ∧ e.field.key = key ∧ e.recorded.isSome

/-- The history after an instruction. -/
def after (i : Insn) (b : Bench) (h : FieldHistory) : FieldHistory :=
  match i with
  | .hook (.setFieldPoint _) =>
    match b.stack with
    | .point p :: _ => { h with recorded := some (some p) }
    | _ => { h with recorded := some none }
  | .putField fd =>
    match b.stack with
    | v :: .ref o :: _ =>
      { h with writes := ⟨o, fd, v.narrowed fd.ty, h.recorded⟩ :: h.writes, recorded := none }
    | _ => h
  | .hook (.fieldPoint key) =>
    match b.stack with
    | .ref o :: _ => { h with looked := some ⟨o, key, b.world.store.fieldPoint o key⟩ }
    | _ => h
  | .getField _ => { h with looked := none }
  | _ => h

/-- The world knows what the history says, save for the point at a place that is about to change. -/
structure Agrees (h : FieldHistory) (open_ : Option (ObjectId × String)) (w : World) : Prop where
  points : ∀ o key, open_ ≠ some (o, key) →
    w.store.notedPoint o key = (h.lastRecorded o key).bind fun e => e.recorded.join
  values : ∀ o fields, w.heap.fieldsOf? o = some fields → ∀ name e, h.lastWrite o name = some e →
    fields.lookup name = some e.value
  /-- Writes to fields that carry provenance are recorded. -/
  recorded : ∀ e ∈ h.writes, Carrier.carriesField e.field → e.recorded.isSome

/-- Between blocks nothing is recorded or looked up for later. -/
structure Settled (h : FieldHistory) (w : World) : Prop where
  agrees : h.Agrees none w
  recorded : h.recorded = none
  looked : h.looked = none

end FieldHistory

namespace FieldHistory

variable {h : FieldHistory} {w w' : World} {place : Option (ObjectId × String)}
    {i : Insn} {b : Bench}

theorem Agrees.spared (hh : h.Agrees place w) (hw : w.SparesFields w') : h.Agrees place w' where
  points o key ho := (hw.notedPoint o key).trans (hh.points o key ho)
  values o fields hfields := hh.values o fields (hw.heap o fields hfields)
  recorded := hh.recorded

theorem Settled.spared (hh : h.Settled w) (hw : w.SparesFields w') : h.Settled w' :=
  ⟨hh.agrees.spared hw, hh.recorded, hh.looked⟩

/-- The hooks of fields, reads and writes are what a history tells of. -/
theorem after_other (hput : ∀ fd, i ≠ .putField fd) (hget : ∀ fd, i ≠ .getField fd)
    (hset : ∀ key, i ≠ .hook (.setFieldPoint key)) (hlook : ∀ key, i ≠ .hook (.fieldPoint key)) :
    h.after i b = h := by
  unfold after
  split
  · exact absurd rfl (hset _)
  · exact absurd rfl (hput _)
  · exact absurd rfl (hlook _)
  · exact absurd rfl (hget _)
  · rfl

end FieldHistory

/-- The points of fields, watched. -/
def fieldWatch : Watch FieldHistory where
  start := ⟨[], none, none⟩
  after i b h := h.after i b
  Given _ b := b.world.store.isActive
  Holds w h := h.Settled w
  Shows i b h := ∀ fd, i = .getField fd → ∀ look, h.looked = some look →
    b.stack[0]? = some (.ref look.object) ∧ look.key = fd.key ∧ h.Agrees none b.world ∧
      look.point = b.world.store.notedPoint look.object look.key

namespace FieldHistory

variable {h : FieldHistory} {w w' : World} {place : Option (ObjectId × String)}
    {i : Insn} {b : Bench}

/-! ## 2. One instruction -/

theorem shows_other (hget : ∀ fd, i ≠ .getField fd) : fieldWatch.Shows i b h :=
  fun fd hfd => absurd hfd (hget fd)

/-- **Most instructions** leave things as they are. -/
theorem keeps (hput : ∀ fd, i ≠ .putField fd) (hset : ∀ key, i ≠ .hook (.setFieldPoint key))
    (hlook : ∀ key, i ≠ .hook (.fieldPoint key)) : fieldWatch.Keeps i := by
  intro b h _ hh
  refine ⟨fun _ _ look hlooked => ?_, fun method pc inUse => ?_⟩
  · rw [hh.looked] at hlooked
    cases hlooked
  · have hafter : h.after i b = h := by
      by_cases hget : ∃ fd, i = .getField fd
      · obtain ⟨fd, rfl⟩ := hget
        obtain ⟨_, _, _⟩ := h
        obtain rfl := hh.looked
        rfl
      · exact after_other hput (fun fd hfd => hget ⟨fd, hfd⟩) hset hlook
    refine (Work.perform_sparesFields method _ hput hset b (.refl b.world)).mono (fun _ b' hw => ?_)
      fun _ _ h => h
    show (h.after i b).Settled b'.world
    rw [hafter]
    exact hh.spared hw

/-- Code that pushes a point does nothing else. -/
theorem inert (hput : ∀ fd, i ≠ .putField fd) (hget : ∀ fd, i ≠ .getField fd)
    (hset : ∀ key, i ≠ .hook (.setFieldPoint key)) (hlook : ∀ key, i ≠ .hook (.fieldPoint key)) :
    fieldWatch.Inert i := fun _ _ => ⟨shows_other hget, after_other hput hget hset hlook⟩

theorem inert_of_inserted {j : Insn} (hput : ∀ fd, i ≠ .putField fd) (hget : ∀ fd, i ≠ .getField fd)
    (hj : i.Inserted j) : fieldWatch.Inert j := by
  cases hj with
  | hook hlook hset =>
    exact inert (by simp) (by simp) (fun key h => hset key (Insn.hook.inj h))
      fun key h => hlook key (Insn.hook.inj h)
  | fieldPoint hi => exact absurd hi (hget _)
  | setFieldPoint hi => exact absurd hi (hput _)
  | _ => exact inert (by simp) (by simp) (by simp) (by simp)

theorem keeps_of_added {j : Insn} (hput : ∀ fd, i ≠ .putField fd) (hget : ∀ fd, i ≠ .getField fd)
    (hj : i.Added j) : fieldWatch.Keeps j := by
  cases hj with
  | inserted hj =>
    cases hj with
    | hook hlook hset =>
      exact keeps (by simp) (fun key h => hset key (Insn.hook.inj h))
        fun key h => hlook key (Insn.hook.inj h)
    | fieldPoint hi => exact absurd hi (hget _)
    | setFieldPoint hi => exact absurd hi (hput _)
    | _ => exact keeps (by simp) (by simp) (by simp)
  | comparison _ _ => exact keeps (by simp) (by simp) (by simp)

end FieldHistory

/-! ## 3. Reading a field -/

namespace FieldHistory

variable {h : FieldHistory} {v : Woven} {k l : Nat} {fd : FieldRef} {T : List Value} {b : Bench}
  {code : List Insn} {P : Bench → FieldHistory → Prop}

/-- A point that is put into a local changes nothing else. -/
theorem through_stash (hcode : v.plan.Loading code) (hP : ∀ L, P ⟨b.world, L, b.stack⟩ h) :
    fieldWatch.Through (code ++ [.store l]) P b h := by
  have hinert : ∀ j ∈ code ++ [.store l], fieldWatch.Inert j := by
    intro j hj
    refine inert_of_inserted (i := .nop) (by simp) (by simp) ?_
    rcases List.mem_append.mp hj with hj | hj
    · exact hcode.inserted j hj
    · rw [List.mem_singleton.mp hj]
      exact .store l
  have hstore (x : Value) : Work.Through (fun _ _ => True) [.store l]
      (fun b' => b'.world = b.world ∧ b'.stack = b.stack) { b with stack := x :: b.stack } := by
    intro method pc inUse
    simp only [Work.perform, Action.wp_bind, Work.wp_pop_cons, Work.wp_storeLocal, Action.wp_pure]
    split
    · exact ⟨trivial, rfl, rfl⟩
    · trivial
  refine (Watch.through_inert hinert ((hcode.through hstore).append fun _ h => h)).mono ?_
  rintro ⟨_, L, _⟩ _ ⟨⟨rfl, rfl⟩, rfl⟩
  exact hP L

/-- On the way to a read: what was looked up belongs to the field that is about to be read. -/
structure Looks (h : FieldHistory) (fd : FieldRef) (T : List Value) (b : Bench) : Prop where
  stack : b.stack = T
  agrees : h.Agrees none b.world
  recorded : h.recorded = none
  looked : ∀ look, h.looked = some look → T[0]? = some (.ref look.object) ∧ look.key = fd.key ∧
    look.point = b.world.store.notedPoint look.object look.key

/-- The hook before a read. -/
theorem through_look (hb : h.Looks fd T b) :
    fieldWatch.Through [.dup, .hook (.fieldPoint fd.key), .store l]
      (fun b h => h.Looks fd T b) b h := by
  obtain ⟨w, L, stack⟩ := b
  obtain rfl := hb.stack
  intro _
  refine ⟨shows_other (by simp), fun method pc inUse => ?_⟩
  cases stack with
  | nil => trivial
  | cons x S =>
    simp only [Work.perform, Action.wp_bind, Work.wp_pop_cons, Work.wp_push, Action.wp_pure]
    refine ⟨trivial, fun hactive => ⟨shows_other (by simp), fun method pc inUse => ?_⟩⟩
    have hstash (point : Option Point) (h' : FieldHistory)
          (hh : h'.Looks fd (x :: S) ⟨w, L, x :: S⟩) :
        fieldWatch.Through [.store l] (fun b h => h.Looks fd (x :: S) b)
          ⟨w, L, .ofPoint point :: x :: S⟩ h' := by
      refine fun _ => ⟨shows_other (by simp), fun method pc inUse => ?_⟩
      simp only [Work.perform, Action.wp_bind, Work.wp_pop_cons, Work.wp_storeLocal, Action.wp_pure]
      split
      · exact ⟨trivial, rfl, hh.agrees, hh.recorded, hh.looked⟩
      · trivial
    simp only [Work.perform, Work.hook, Work.take, Action.wp_bind, Work.wp_pop_cons,
      Work.wp_fromHeap]
    cases x with
    | null => exact ⟨rfl, hstash none h ⟨rfl, hb.agrees, hb.recorded, hb.looked⟩⟩
    | ref o =>
      refine ⟨rfl, hstash _ { h with looked := some ⟨o, fd.key, w.store.fieldPoint o fd.key⟩ }
        ⟨rfl, ⟨hb.agrees.points, hb.agrees.values, hb.agrees.recorded⟩, hb.recorded,
          fun look hlook => ?_⟩⟩
      obtain rfl := Option.some.inj hlook
      exact ⟨rfl, rfl, Store.fieldPoint_of_active hactive o fd.key⟩
    | _ => trivial

/-- Whatever stands before a read. -/
theorem through_beforeRead (hi : v.method.insns[k]? = some (.getField fd))
    (hpiece : Plan.BeforePiece v.context v.plan k code) (hb : h.Looks fd T b) :
    fieldWatch.Through code (fun b h => h.Looks fd T b) b h := by
  cases hpiece with
  | element _ hreads =>
    rcases hreads with ⟨t, hi'⟩ | ⟨target, hi', -⟩ <;> cases Option.some.inj (hi.symm.trans hi')
  | field _ hi' =>
    obtain rfl := Insn.getField.inj (Option.some.inj (hi.symm.trans hi'))
    exact through_look hb
  | join _ _ _ hcode =>
    exact through_stash (v := v) (Plan.loading_of_loadPoint hcode) fun L =>
      ⟨hb.stack, hb.agrees, hb.recorded, hb.looked⟩
  | fieldStore hi' _ _ => cases Option.some.inj (hi.symm.trans hi')
  | returning hi' _ _ _ _ => cases Option.some.inj (hi.symm.trans hi')

end FieldHistory

/-- The block of an instruction that reads or writes a field: nothing takes its place. -/
theorem Plan.block_field {c : PlanContext} {S : List Site} {p : Plan} {k : Nat} {i : Insn}
    {fd : FieldRef} (hp : p.Sound c S) (hi : c.method.insns[k]? = some i)
    (hfield : i = .getField fd ∨ i = .putField fd) :
    p.block k i = codeAt k p.before ++ i :: p.behind k := by
  have hlabel : i.label? = none := by
    rcases hfield with rfl | rfl <;> rfl
  have hrecord : p.recordCode k i = [] := by
    rcases recordCode_cases hp hi with hnone | ⟨target, _, hcall, -⟩
    · exact hnone
    · rcases hfield with rfl | rfl <;> cases hcall
  have hkept : p.replaced.lookup k = none := by
    cases hreplaced : p.replaced.lookup k with
    | none => rfl
    | some code =>
      cases hp.replaced _ (mem_of_lookup hreplaced) with
      | @stringComparison equal target hi' _ =>
        cases equal <;> rcases hfield with rfl | rfl <;> cases Option.some.inj (hi.symm.trans hi')
      | arrayStore hi' _ _ | concat hi' _ _ | arrayCopy hi' _ | arrayClone hi' _ _ =>
        rcases hfield with rfl | rfl <;> cases Option.some.inj (hi.symm.trans hi')
  rw [block_other _ _ hlabel, ahead, hrecord, List.append_nil, inPlace, hkept]
  rfl

namespace FieldHistory

variable {h : FieldHistory} {v : Woven} {k : Nat} {fd : FieldRef} {f : Frame}
    {T : List Value} {b : Bench}
  {i : Insn}

/-- Code that stands behind an instruction leaves things as they are. -/
theorem along_behind (hi : v.method.insns[k]? = some i) (hf : v.frame? k = some f)
    (hfall : i.fallsThrough = true) (hh : h.Settled b.world) :
    v.Along fieldWatch (v.HasFrame (k + 1)) (v.plan.behind k) b h := by
  have hadded : ∀ j ∈ v.plan.behind k, Insn.Inserted .nop j := Plan.behind_inserted v.planned
  rw [← List.append_nil (v.plan.behind k)]
  refine Woven.along_kept (fun j hj => keeps_of_added (by simp) (by simp) (.inserted (hadded j hj)))
    (fun j hj l t hl _ => ?_) (fun _ b h hh => Woven.along_nil.mpr ⟨?_, hh⟩) b h hh
  · simp [(hadded j hj).jumpTarget?] at hl
  · exact Woven.hasFrame_next hi hf hfall

/-- **The block of a read.** -/
theorem along_read (hi : v.method.insns[k]? = some (.getField fd)) (hf : v.frame? k = some f)
    (hh : h.Settled b.world) :
    v.Along fieldWatch (v.HasFrame (k + 1)) (v.plan.block k (.getField fd)) b h := by
  rw [Plan.block_field v.planned hi (.inl rfl)]
  have hstart : h.Looks fd b.stack b := by
    refine ⟨rfl, hh.agrees, hh.recorded, fun look hlook => ?_⟩
    rw [hh.looked] at hlook
    cases hlook
  refine Woven.along_through ((Watch.through_codeAt (P := fun b' h' => h'.Looks fd b.stack b')
    (fun e he hk b' h' hb' => ?_) hstart).mono fun b' h' hb' hgiven => ?_)
  · exact through_beforeRead hi (hk ▸ v.planned.before e he) hb'
  · have hbehind (stack : List Value) : v.Along fieldWatch (v.HasFrame (k + 1)) (v.plan.behind k)
        ⟨b'.world, b'.locals, stack⟩ { h' with looked := none } :=
      along_behind hi hf rfl ⟨⟨hb'.agrees.points, hb'.agrees.values, hb'.agrees.recorded⟩,
        hb'.recorded, rfl⟩
    refine ⟨?_, fun method pc inUse => ?_⟩
    · rintro _ ⟨rfl⟩ look hlook
      obtain ⟨htop, hkey, hpoint⟩ := hb'.looked look hlook
      exact ⟨hb'.stack ▸ htop, hkey, hb'.agrees, hpoint⟩
    · simp only [Work.perform, Work.popTarget, Action.wp_bind, Work.wp_pop, Work.wp_fromHeap,
        Work.wp_push, Action.wp_pure]
      split
      · trivial
      · split
        · split
          · exact hbehind _
          · trivial
        · trivial

end FieldHistory

/-! ## 4. Writing a field -/

namespace FieldHistory

variable {h : FieldHistory} {v : Woven} {k : Nat} {fd : FieldRef} {f : Frame}
    {T : List Value} {b : Bench}
  {code : List Insn} {w : World} {o : ObjectId}

/-- On the way to a write: the point of the field that is about to be written may be any. -/
structure Opens (h : FieldHistory) (fd : FieldRef) (T : List Value) (b : Bench) : Prop where
  stack : b.stack = T
  looked : h.looked = none
  agrees : ∀ o, T[1]? = some (.ref o) → h.Agrees (some (o, fd.key)) b.world

/-- The point is recorded. -/
structure Arms (h : FieldHistory) (fd : FieldRef) (T : List Value) (b : Bench) : Prop
    extends h.Opens fd T b where
  recorded : ∀ o, T[1]? = some (.ref o) → h.recorded = some (b.world.store.notedPoint o fd.key)

/-- The point is recorded, or nothing was. -/
def Awaits (h : FieldHistory) (fd : FieldRef) (T : List Value) (b : Bench) : Prop :=
  (b.stack = T ∧ h.Settled b.world) ∨ h.Arms fd T b

theorem Awaits.opens (hb : h.Awaits fd T b) : h.Opens fd T b := by
  rcases hb with ⟨hstack, hh⟩ | hb
  · exact ⟨hstack, hh.looked, fun o _ =>
      ⟨fun o' key _ => hh.agrees.points o' key (by simp), hh.agrees.values, hh.agrees.recorded⟩⟩
  · exact hb.toOpens

/-- The hook that records the point. -/
theorem wp_record {w : World} {L : Array Value} {point x : Value} {S : List Value}
    (hactive : w.store.isActive) (hopen : ∀ o, x = .ref o → h.Agrees (some (o, fd.key)) w)
    (hlooked : h.looked = none) (hx : S[1]? = some x) (method : String) (pc : Nat)
    (inUse : Thunk (List Value)) :
    Wp (Work.perform method (.stackUnderflow method pc) inUse (.hook (.setFieldPoint fd.key)))
      (fun t b' => t = .next ∧
        (h.after (.hook (.setFieldPoint fd.key)) ⟨w, L, point :: x :: S⟩).Arms fd S b')
      (fun _ _ => True) ⟨w, L, point :: x :: S⟩ := by
  have harms {recorded : Option Point} {s : Store} (hs : ∀ o o' key, x = .ref o →
      s.notedPoint o' key = if o' = o ∧ key = fd.key then recorded else w.store.notedPoint o' key) :
      Arms { h with recorded := some recorded } fd S ⟨{ w with store := s }, L, S⟩ := by
    have hof {o : ObjectId} (ho : S[1]? = some (.ref o)) : x = .ref o :=
      Option.some.inj (hx.symm.trans ho)
    refine ⟨⟨rfl, hlooked, fun o ho => ⟨fun o' key hne => ?_, (hopen o (hof ho)).values,
      (hopen o (hof ho)).recorded⟩⟩, fun o ho => ?_⟩
    · rw [hs o o' key (hof ho), if_neg fun ⟨ho', hkey⟩ => hne (by rw [ho', hkey])]
      exact (hopen o (hof ho)).points o' key hne
    · rw [hs o o fd.key (hof ho), if_pos ⟨rfl, rfl⟩]
  simp only [Work.perform, Work.hook, Work.take, Action.wp_bind, Work.wp_pop_cons, Work.wp_fromHeap]
  cases x with
  | null =>
    refine ⟨rfl, ?_⟩
    have hrecorded : ∃ recorded, h.after (.hook (.setFieldPoint fd.key)) ⟨w, L,
        point :: .null :: S⟩ = { h with recorded := some recorded } := by
      cases point <;> exact ⟨_, rfl⟩
    obtain ⟨recorded, hafter⟩ := hrecorded
    rw [hafter]
    exact harms (s := w.store) fun o _ _ ho => by cases ho
  | ref o =>
    have hset (p : Option Point) (o₁ o' : ObjectId) (key : String) (ho : Value.ref o = .ref o₁) :
        (w.store.setFieldPoint o fd.key p).notedPoint o' key =
          if o' = o₁ ∧ key = fd.key then p else w.store.notedPoint o' key := by
      obtain rfl := Value.ref.inj ho
      exact Store.notedPoint_setFieldPoint hactive _ _ _ _ p
    cases point with
    | point p => exact ⟨rfl, harms (hset (some p))⟩
    | null => exact ⟨rfl, harms (hset none)⟩
    | _ => trivial
  | _ => trivial

/-- **The code that records the point.** -/
theorem through_record (hcode : v.plan.Loading code) (hb : h.Opens fd T b) :
    fieldWatch.Through ([.dup2, .pop] ++ code ++ [.hook (.setFieldPoint fd.key)])
      (fun b h => h.Arms fd T b) b h := by
  obtain ⟨w, L, stack⟩ := b
  obtain rfl := hb.stack
  have hinert : ∀ j ∈ [.dup2, .pop] ++ code, fieldWatch.Inert j := by
    intro j hj
    refine inert_of_inserted (i := .nop) (by simp) (by simp) ?_
    rcases List.mem_append.mp hj with hj | hj
    · simp only [List.mem_cons, List.not_mem_nil, or_false] at hj
      rcases hj with rfl | rfl
      · exact .dup2
      · exact .pop
    · exact hcode.inserted j hj
  -- the point lies above the object, and below it the operands are still there
  have hlaid : Work.Through (fun _ _ => True) ([.dup2, .pop] ++ code)
      (fun b => ∃ point x, stack[1]? = some x ∧ b = ⟨w, L, point :: x :: stack⟩) ⟨w, L, stack⟩ := by
    refine Work.Through.append
      (P := fun b => ∃ x, stack[1]? = some x ∧ b = ⟨w, L, x :: stack⟩) ?_ ?_
    · intro method pc inUse
      match stack with
      | [] | [_] => trivial
      | a :: x :: S =>
        exact ⟨rfl, fun method pc inUse => ⟨rfl, x, rfl, rfl⟩⟩
    · rintro _ ⟨x, hx, rfl⟩
      exact hcode.through fun point => ⟨point, x, hx, rfl⟩
  refine (Watch.through_inert hinert hlaid).append ?_
  rintro _ _ ⟨⟨point, x, hx, rfl⟩, rfl⟩ hactive
  exact ⟨shows_other (by simp), wp_record hactive (fun o ho => hb.agrees o (ho ▸ hx)) hb.looked hx⟩

/-- Whatever stands before a write, and the piece among it that records the point. -/
theorem through_beforeWrite (hi : v.method.insns[k]? = some (.putField fd))
    (hpiece : Plan.BeforePiece v.context v.plan k code) (hb : h.Awaits fd T b) :
    fieldWatch.Through code (fun b h => h.Awaits fd T b) b h ∧
      (h.Arms fd T b ∨ .hook (.setFieldPoint fd.key) ∈ code →
        fieldWatch.Through code (fun b h => h.Arms fd T b) b h) := by
  cases hpiece with
  | element _ hreads =>
    rcases hreads with ⟨t, hi'⟩ | ⟨target, hi', -⟩ <;> cases Option.some.inj (hi.symm.trans hi')
  | field _ hi' => cases Option.some.inj (hi.symm.trans hi')
  | join _ _ _ hcode =>
    have hload := Plan.loading_of_loadPoint hcode
    have harms (L : Array Value) (hb : h.Arms fd T b) : h.Arms fd T ⟨b.world, L, b.stack⟩ :=
      ⟨⟨hb.stack, hb.looked, hb.agrees⟩, hb.recorded⟩
    refine ⟨through_stash (v := v) hload fun L => hb.imp id (harms L), fun hb => ?_⟩
    refine through_stash (v := v) hload (harms · (hb.resolve_right fun hmem => ?_))
    rcases List.mem_append.mp hmem with hmem | hmem
    · have hadded := hload.inserted (i := .nop) _ hmem
      generalize hj : Insn.hook (.setFieldPoint fd.key) = j at hadded
      cases hadded with
      | hook _ hset => exact hset fd.key (Insn.hook.inj hj).symm
      | setFieldPoint hi => cases hi
      | _ => cases hj
    · cases List.mem_singleton.mp hmem
  | fieldStore hi' _ hcode =>
    obtain rfl := Insn.putField.inj (Option.some.inj (hi.symm.trans hi'))
    have hrecord := through_record (v := v) (Plan.loading_of_pointCode hcode) hb.opens
    exact ⟨hrecord.mono fun _ _ h => .inr h, fun _ => hrecord⟩
  | returning hi' _ _ _ _ => cases Option.some.inj (hi.symm.trans hi')

/-- **A write** settles what was recorded for it. -/
theorem settled_of_write {heap : Heap} {x : Value} (hb : h.Awaits fd T ⟨w, b.locals, T⟩)
    (ho : T[1]? = some (.ref o)) (hput : w.heap.putField o fd.name fd.ty x = .ok heap)
    (hcarried : Carrier.carriesField fd → h.Arms fd T ⟨w, b.locals, T⟩) :
    Settled { h with writes := ⟨o, fd, x.narrowed fd.ty, h.recorded⟩ :: h.writes, recorded := none }
      { w with heap } := by
  have hopen := hb.opens.agrees o ho
  refine ⟨⟨fun o' key _ => ?_, fun o' fields hfields name e he => ?_, ?_⟩, rfl, hb.opens.looked⟩
  · show w.store.notedPoint o' key = _
    by_cases hplace : o' = o ∧ key = fd.key
    · obtain ⟨rfl, rfl⟩ := hplace
      rcases hb with ⟨-, hh⟩ | hb
      · rw [hh.agrees.points o' fd.key (by simp)]
        simp [lastRecorded, hh.recorded]
      · simp [lastRecorded, hb.recorded o' ho]
    · rw [hopen.points o' key fun h => hplace (by simpa [eq_comm] using h)]
      have hother : ¬(o = o' ∧ fd.key = key ∧ h.recorded.isSome) :=
        fun h => hplace ⟨h.1.symm, h.2.1.symm⟩
      simp [lastRecorded, hother]
  · obtain ⟨before, hbefore, rfl⟩ := Heap.fieldsOf?_putField hput hfields
    have hvalues := hopen.values o' before hbefore name
    unfold lastWrite at he
    rw [List.find?_cons] at he
    by_cases hplace : o = o' ∧ fd.name = name
    · obtain ⟨rfl, rfl⟩ := hplace
      simp only [decide_true, and_self] at he
      rw [← Option.some.inj he, if_pos rfl, Heap.lookup_setField, if_pos rfl]
    · simp only [hplace, decide_false] at he
      split
      · rename_i ho'
        rw [Heap.lookup_setField, if_neg fun hname => hplace ⟨ho'.symm, hname.symm⟩]
        exact hvalues e he
      · exact hvalues e he
  · refine List.forall_mem_cons.mpr ⟨fun hcarries => ?_, hopen.recorded⟩
    show h.recorded.isSome
    rw [(hcarried hcarries).recorded o ho]
    rfl

/-- **The block of a write.** -/
theorem along_write {breakInterning : Bool} (hv : v.Covering breakInterning)
    (hi : v.method.insns[k]? = some (.putField fd)) (hf : v.frame? k = some f)
    (hh : h.Settled b.world) :
    v.Along fieldWatch (v.HasFrame (k + 1)) (v.plan.block k (.putField fd)) b h := by
  rw [Plan.block_field v.planned hi (.inr rfl)]
  have hpiece : ∀ e ∈ v.plan.before, e.1 = k → Plan.BeforePiece v.context v.plan k e.2 :=
    fun e he hk => hk ▸ v.planned.before e he
  have hkeeps : ∀ e ∈ v.plan.before, e.1 = k → ∀ b' h', h'.Awaits fd b.stack b' →
      fieldWatch.Through e.2 (fun b' h' => h'.Awaits fd b.stack b') b' h' :=
    fun e he hk b' h' hb' => (through_beforeWrite hi (hpiece e he hk) hb').1
  have hstart : h.Awaits fd b.stack b := .inl ⟨rfl, hh⟩
  have hbefore : fieldWatch.Through (Plan.codeAt k v.plan.before)
      (fun b' h' => h'.Awaits fd b.stack b' ∧
          (Carrier.carriesField fd → h'.Arms fd b.stack b')) b h := by
    by_cases hcarries : Carrier.carriesField fd
    · have haction : Site.action? v.method breakInterning f (.putField fd) =
          some (.fieldStore fd.key (f.top 0)) := by simp [Site.action?, hcarries]
      obtain ⟨code, he⟩ := hv.covers hi hf haction
      refine (Watch.through_codeAt_of_mem (P := fun b' h' => h'.Awaits fd b.stack b')
        (Q := fun b' h' => h'.Arms fd b.stack b') he rfl hkeeps
        (fun b' h' hb' => (through_beforeWrite hi (hpiece _ he rfl) hb').2 (.inr (by simp)))
        (fun e he hk b' h' hb' => (through_beforeWrite hi (hpiece e he hk) (.inr hb')).2 (.inl hb'))
        hstart).mono fun _ _ h => ⟨.inr h, fun _ => h⟩
    · exact (Watch.through_codeAt (P := fun b' h' => h'.Awaits fd b.stack b') hkeeps hstart).mono
        fun _ _ h => ⟨h, fun hc => absurd hc hcarries⟩
  refine Woven.along_through (hbefore.mono fun b' h' hb' hgiven =>
    ⟨shows_other (by simp), fun method pc inUse => ?_⟩)
  obtain ⟨w, L, stack⟩ := b'
  obtain ⟨hawaits, hcarried⟩ := hb'
  obtain rfl : stack = b.stack := hawaits.opens.stack
  rcases hstack : b.stack with _ | ⟨x, _ | ⟨y, S⟩⟩
  · trivial
  · trivial
  · rw [hstack] at hawaits hcarried
    simp only [Work.perform, Work.popTarget, Work.changeHeap, Action.wp_bind, Work.wp_pop_cons,
      Work.wp_fromHeap, Work.wp_onHeap, Action.wp_pure]
    cases y with
    | ref o =>
      simp only [Heap.target, Heap.reference]
      split
      · rename_i heap hput
        exact along_behind hi hf rfl
          (settled_of_write (b := ⟨w, L, x :: .ref o :: S⟩) hawaits rfl hput hcarried)
      · trivial
    | _ => trivial

end FieldHistory

/-! ## 5. Runs -/

namespace FieldHistory

variable {h : FieldHistory} {p : Program}

/-- **Woven methods** keep things settled. -/
theorem lasts (hnatives : ∀ e ∈ p.natives, e.2.SparesFields) : fieldWatch.Lasts p where
  null := keeps (by simp) (by simp) (by simp)
  store _ := keeps (by simp) (by simp) (by simp)
  claim _ := keeps (by simp) (by simp) (by simp)
  block {v _ k i _} hv hi hf b h hh := by
    have hhook (hk : Hook) : i ≠ .hook hk := v.analysed.not_hook hi hf hk
    by_cases hput : ∃ fd, i = .putField fd
    · obtain ⟨fd, rfl⟩ := hput
      exact along_write hv hi hf hh
    · by_cases hget : ∃ fd, i = .getField fd
      · obtain ⟨fd, rfl⟩ := hget
        exact along_read hi hf hh
      · refine Woven.along_block hi hf (fun j hj => ?_) b h hh
        have hput' (fd : FieldRef) : i ≠ .putField fd := fun hfd => hput ⟨fd, hfd⟩
        have hget' (fd : FieldRef) : i ≠ .getField fd := fun hfd => hget ⟨fd, hfd⟩
        rcases v.mem_block hi hj with ⟨rfl, -⟩ | hadded
        · exact keeps hput' (fun _ => hhook _) fun _ => hhook _
        · exact keeps_of_added hput' hget' hadded
  native {m n b h} hn _ hh record signature := by
    have hrobust : World.Robust b.world.SparesFields :=
      World.robust_of_sparesFields fun h hw => hw.trans h
    exact (hnatives _ (mem_of_lookup hn) _ _).mono
      (fun _ w hw => hh.spared ((hrobust.claim signature (.refl _)).trans hw)) fun _ _ h => h

/-- What is known of a history while the place of its next write is not open. -/
theorem Agrees.lastRecorded_eq {w : World} {o : ObjectId} {fd : FieldRef} (hh : h.Agrees none w)
    (hsame : ∀ e ∈ h.writes, e.object = o → (e.field.name = fd.name ↔ e.field.key = fd.key) ∧
      (e.field.name = fd.name → Carrier.carriesField e.field)) :
    h.lastRecorded o fd.key = h.lastWrite o fd.name := by
  unfold lastRecorded lastWrite
  refine List.find?_congr fun e he => ?_
  have hrecorded := hh.recorded e he
  have hsame := hsame e he
  simp only [decide_eq_decide]
  constructor
  · rintro ⟨ho, hkey, -⟩
    exact ⟨ho, (hsame ho).1.mpr hkey⟩
  · rintro ⟨ho, hname⟩
    exact ⟨ho, (hsame ho).1.mp hname, hrecorded ((hsame ho).2 hname)⟩

end FieldHistory

/-- **The point of a field is that of its last write.**  Consider a run, from a world in which no
points of fields are known, in which all methods that run are woven and tracking stays on.  Whenever
a field is about to be read and its point was looked up before, it was looked up for the object that
is read and the key of that field.  Let every write to this object so far be one to the field that
is read, by name and by key, or to another one, by name and by key, and let those to the field be of
a kind that is followed.  Then the point is the one that was recorded for the last write to the
field, or null if none was or if there was no write, and the value that is read is the one that was
written then. -/
theorem Program.fieldPoint_of_lastWrite {p : Program} {limits : MachineSettings} {w : World}
    {s : RunState} {h : FieldHistory} (hnatives : ∀ e ∈ p.natives, e.2.SparesFields)
    (hempty : w.store.fields.entries = [])
    (hrun : fieldWatch.toChronicle.Run p limits
      (fun s => s.current.routine.FromWeaving ∧ s.world.store.isActive = true) w s h)
    {fd : FieldRef} (hi : s.insn? = some (.getField fd)) {look : FieldLook}
    (hlooked : h.looked = some look) :
    s.current.stack[0]? = some (.ref look.object) ∧ look.key = fd.key ∧
    ((∀ e ∈ h.writes, e.object = look.object → (e.field.name = fd.name ↔ e.field.key = fd.key) ∧
        (e.field.name = fd.name → Carrier.carriesField e.field)) →
      look.point = (h.lastWrite look.object fd.name).bind (fun e => e.recorded.join) ∧
      ∀ e, h.lastWrite look.object fd.name = some e →
        ∀ fields, s.world.heap.fieldsOf? look.object = some fields →
          s.world.heap.getField look.object fd.name fd.ty = .ok e.value) := by
  have hstart : fieldWatch.Holds w fieldWatch.start := by
    refine ⟨⟨fun o key _ => ?_, fun _ _ _ _ _ he => (by cases he),
      fun _ he => (by cases he)⟩, rfl, rfl⟩
    simp [Store.notedPoint, WeakMap.get?, hempty, FieldHistory.lastRecorded, fieldWatch]
  obtain ⟨htop, hkey, hagrees, hpoint⟩ := (FieldHistory.lasts hnatives).shows hstart
    (fun s hs => ⟨hs.1, fun _ _ => hs.2⟩) hrun hi fd rfl look hlooked
  refine ⟨htop, hkey, fun hsame => ⟨?_, fun e he fields hfields => ?_⟩⟩
  · rw [hpoint, hkey, hagrees.points _ _ (by simp), hagrees.lastRecorded_eq hsame]
  · exact Heap.getField_of_fieldsOf? hfields (hagrees.values _ _ hfields _ e he)

/-! ## 6. One method -/

/-- Writes a sum to a field, then a literal, and copies the field to an array. -/
def keepLetter : Trial where
  method := ⟨"demo/Keep", "run", ⟨[.object "demo/B", .array .char], .void⟩, true, 2, 0,
    [.load 0, .const (.int 48), .const (.int 49), .binary .add .int,
      .putField ⟨"demo/B", "c", .char⟩, .load 0, .const (.int 120),
      .putField ⟨"demo/B", "c", .char⟩, .load 1, .const (.int 0), .load 0,
      .getField ⟨"demo/B", "c", .char⟩, .arrayStore .char, .ret .void]⟩
  world := ⟨((Heap.empty.allocate (.instance "demo/B" [])).2.allocate (.charArray "a")).2,
    .empty .default, [], [], []⟩
  args := [.ref 1, .ref 2]

namespace Trial

/-- The woven method, and the store as weaving left it. -/
def woven? (x : Trial) : Option (Method × Store) :=
  match Weaver.everywhere.weaveMethod false x.literals x.method with
  | (.ok (some (m, _)), pool) => some (m, pool.store)
  | _ => none

theorem weaves_of_woven? {x : Trial} {m : Method} {store : Store} (h : x.woven? = some (m, store)) :
    Weaver.everywhere.Weaves false x.method m := by
  unfold woven? at h
  split at h
  · rename_i m' kinds pool hweave
    obtain ⟨rfl, -⟩ := Prod.mk.inj (Option.some.inj h)
    exact ⟨x.literals, pool, some (m', kinds), hweave, rfl⟩
  · cases h

/-- A program of a single method, with the built-in natives. -/
def furnished (m : Method) : Program := { program m with natives := Native.builtIn }

/-- Where the run of the woven method stands after that many steps, with a history. -/
def history? {H : Type} (x : Trial) (C : Chronicle H) (n : Nat) : Option (RunState × H) :=
  x.woven?.bind fun (m, store) =>
    C.follow (furnished m) ⟨8, 1000⟩ (·.world.store.isActive) { x.world with store } m.owner m.name
      m.desc.descriptor x.args n

/-- The program of a method runs nothing else. -/
theorem routine_of_furnished {m : Method} (owner name descriptor : String) (r : Routine)
    (h : (furnished m).routine? owner name descriptor = some r) : r = .ofMethod m := by
  unfold Program.routine? at h
  obtain ⟨routines, hlookup, hfind⟩ := Option.bind_eq_some_iff.mp h
  obtain ⟨-, rfl⟩ := Prod.mk.inj (List.mem_singleton.mp (mem_of_lookup hlookup))
  exact List.mem_singleton.mp (List.mem_of_find?_eq_some hfind)

/-- What is computed is a run of woven methods. -/
theorem run_of_history? {H : Type} {x : Trial} {C : Chronicle H} {n : Nat} {s : RunState} {h : H}
    (hrun : x.history? C n = some (s, h)) :
    ∃ m store, x.woven? = some (m, store) ∧ C.Run (furnished m) ⟨8, 1000⟩
      (fun s => s.current.routine.FromWeaving ∧ s.world.store.isActive = true)
        { x.world with store } s h := by
  obtain ⟨⟨m, store⟩, hwoven, hfollow⟩ := Option.bind_eq_some_iff.mp hrun
  refine ⟨m, store, hwoven, (Chronicle.run_of_follow hfollow).of_routines fun _ _ _ r hr => ?_⟩
  exact ⟨Weaver.everywhere, false, x.method, m, weaves_of_woven? hwoven,
    routine_of_furnished _ _ _ r hr⟩

end Trial

/-- The literal is read with the point of its place in the table of the class, and not with that of
the sum, which has none. -/
theorem keepLetter_fieldPoint :
    ∃ m store s h, keepLetter.woven? = some (m, store) ∧ store.fields.entries = [] ∧
      fieldWatch.toChronicle.Run (Trial.furnished m) ⟨8, 1000⟩
        (fun s => s.current.routine.FromWeaving ∧ s.world.store.isActive = true)
        { keepLetter.world with store } s h ∧
      s.insn? = some (.getField ⟨"demo/B", "c", .char⟩) ∧
      h.looked = some ⟨1, "demo/B c", some ⟨1, 44, 1⟩⟩ ∧
      h.writes = [⟨1, ⟨"demo/B", "c", .char⟩, .int 120, some (some ⟨1, 44, 1⟩)⟩,
        ⟨1, ⟨"demo/B", "c", .char⟩, .int 97, some none⟩] ∧
      (h.lastWrite 1 "c").bind (fun e => e.recorded.join) = some ⟨1, 44, 1⟩ ∧
      s.world.heap.getField 1 "c" .char = .ok (.int 120) := by
  have hseen : (keepLetter.history? fieldWatch.toChronicle 24).map (fun r =>
      (r.1.insn?, r.2, r.1.world.heap.fieldsOf? 1)) =
      some (some (.getField ⟨"demo/B", "c", .char⟩),
        ⟨[⟨1, ⟨"demo/B", "c", .char⟩, .int 120, some (some ⟨1, 44, 1⟩)⟩,
            ⟨1, ⟨"demo/B", "c", .char⟩, .int 97, some none⟩],
          none, some ⟨1, "demo/B c", some ⟨1, 44, 1⟩⟩⟩, some [("c", .int 120)]) := by decide +kernel
  obtain ⟨⟨s, h⟩, hrun, hseen⟩ := Option.map_eq_some_iff.mp hseen
  simp only [Prod.mk.injEq] at hseen
  obtain ⟨hi, rfl, hfields⟩ := hseen
  obtain ⟨m, store, hwoven, hrun⟩ := Trial.run_of_history? hrun
  have hempty : store.fields.entries = [] := by
    have hnone : keepLetter.woven?.map (fun r => r.2.fields.entries.isEmpty) = some true := by
      decide +kernel
    rw [hwoven] at hnone
    exact List.isEmpty_iff.mp (Option.some.inj hnone)
  obtain ⟨-, -, hlast⟩ := Program.fieldPoint_of_lastWrite Native.builtIn_sparesFields
    (w := { keepLetter.world with store }) hempty hrun hi rfl
  obtain ⟨hpoint, hvalue⟩ :=
    hlast (by simp [Carrier.carriesField, Ty.isTrackedScalar, Ty.stringClass])
  exact ⟨m, store, s, _, hwoven, hempty, hrun, hi, rfl, rfl, hpoint.symm,
    hvalue _ rfl _ hfields⟩

end Provenance
