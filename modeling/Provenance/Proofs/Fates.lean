/-
# What becomes of the methods of a class

The methods of a class share the table of its literals, and a method may register some before it
fails.  Still each method goes its own way: whether it is changed, needs no change or fails, and
into what, up to the places of literals, depends on nothing but the method (`Weaver.fate`).  So the
report of a class can be told method by method (`Weaver.weaveClass_report`), and it makes no
difference to the others whether a method that fails is there (`Weaver.weaveClass_without`).
-/
import Provenance.Proofs.Instrumenting
import Provenance.Proofs.Placing

namespace Provenance

namespace Weaver

/-! ## 1. One method -/

/-- What weaving makes of a method: the error, or the new method and the kinds of its sites, or
nothing. -/
abbrev Outcome := Except WeaveError (Option (Method × List SiteKind))

/-- An outcome without the places of literals. -/
def unplacedOutcome (r : Outcome) : Outcome := r.map (Option.map fun e => (e.1.unplaced, e.2))

/-- What becomes of a method, wherever its literals stand. -/
def fate (w : Weaver) (breakInterning : Bool) (m : Method) : Outcome :=
  unplacedOutcome (w.weaveMethod breakInterning (.ofClass (.empty .default) m.owner) m).1

variable {w : Weaver} {breakInterning : Bool} {pool pool' : LiteralPool} {m m' : Method}

/-- What speaks against too many locals has nothing to do with the places of literals. -/
theorem tooManyLocals_unplaced (m : Method) : tooManyLocals m.unplaced = tooManyLocals m := by
  simp only [tooManyLocals, Method.unplaced, unplaced, List.findIdx_map, List.getElem?_map,
    Option.map_map, Function.comp_def, Insn.local?_unplaced]

theorem checkDepth_unplaced (h : m.unplaced = m'.unplaced) :
    (∃ e, checkDepth m = .error e ∧ checkDepth m' = .error e) ∨
      checkDepth m = .ok m ∧ checkDepth m' = .ok m' := by
  have hrequired : requiredStack m = requiredStack m' := by
    rw [← requiredStack_unplaced m, h, requiredStack_unplaced m']
  have hmax : m.maxStack = m'.maxStack :=
    show m.unplaced.maxStack = m'.unplaced.maxStack from congrArg Method.maxStack h
  have hlocals : m.maxLocals = m'.maxLocals :=
    show m.unplaced.maxLocals = m'.unplaced.maxLocals from congrArg Method.maxLocals h
  have hmany : tooManyLocals m = tooManyLocals m' := by
    rw [← tooManyLocals_unplaced m, h, tooManyLocals_unplaced m']
  unfold checkDepth
  rw [hrequired, hmax, hlocals, hmany]
  split
  · exact .inl ⟨_, rfl, rfl⟩
  · split
    · exact .inl ⟨_, rfl, rfl⟩
    · split
      · exact .inl ⟨_, rfl, rfl⟩
      · exact .inr ⟨rfl, rfl⟩

/-- **Weaving a method with one table or another**: the outcome is the same but for the places of
literals, and the table can still be written to. -/
theorem weaveMethod_alike (h : pool.Usable) (h' : pool'.Usable) :
    unplacedOutcome (w.weaveMethod breakInterning pool m).1 =
      unplacedOutcome (w.weaveMethod breakInterning pool' m).1 ∧
    (w.weaveMethod breakInterning pool m).2.Usable := by
  unfold weaveMethod
  split
  · exact ⟨rfl, h⟩
  · rename_i a _
    simp only
    split
    · exact ⟨rfl, h⟩
    · have hplan := Plan.planSites_alike ⟨m, a⟩ (Site.find m a breakInterning) _ _
        (Plan.start_alike ⟨m, a⟩ h h')
      generalize (Plan.planSites ⟨m, a⟩ _).run.run (Plan.start ⟨m, a⟩ pool) = r at hplan ⊢
      generalize (Plan.planSites ⟨m, a⟩ _).run.run (Plan.start ⟨m, a⟩ pool') = r' at hplan ⊢
      cases hplan with
      | error e hp => exact ⟨rfl, hp.usable⟩
      | @ok _ _ p q _ hp =>
        simp only [hp.hasEdits_eq]
        split
        · have hwoven := hp.woven_eq m
          rcases checkDepth_unplaced hwoven with ⟨e, he, he'⟩ | ⟨hok, hok'⟩
          · rw [he, he']
            exact ⟨rfl, hp.usable⟩
          · rw [hok, hok']
            exact ⟨congrArg (fun m => Except.ok (some (m, _))) hwoven, hp.usable⟩
        · exact ⟨rfl, hp.usable⟩

theorem fate_of_weaveMethod {r : Outcome} (hpool : pool.Usable)
    (h : w.weaveMethod breakInterning pool m = (r, pool')) :
    w.fate breakInterning m = unplacedOutcome r ∧ pool'.Usable := by
  obtain ⟨hsame, husable⟩ := weaveMethod_alike (w := w) hpool
    (LiteralPool.ofClass_usable (.empty .default) m.owner)
  rw [h] at hsame husable
  exact ⟨hsame.symm, husable⟩

/-- Whether a method is changed. -/
def changes (w : Weaver) (breakInterning : Bool) (m : Method) : Bool :=
  match w.fate breakInterning m with
  | .ok (some _) => true
  | _ => false

/-- Whether a method needs no change. -/
def spares (w : Weaver) (breakInterning : Bool) (m : Method) : Bool :=
  match w.fate breakInterning m with
  | .ok none => true
  | _ => false

/-- What is reported of a method that fails. -/
def failure? (w : Weaver) (breakInterning : Bool) (m : Method) : Option (String × WeaveError) :=
  match w.fate breakInterning m with
  | .error e => some (m.signature, e)
  | _ => none

/-- The kinds of the sites of a method that is changed. -/
def siteKinds (w : Weaver) (breakInterning : Bool) (m : Method) : List SiteKind :=
  match w.fate breakInterning m with
  | .ok (some (_, kinds)) => kinds
  | _ => []

/-- What a method of a class turns into: the method as it was woven with some table, or itself. -/
inductive Becomes (w : Weaver) (breakInterning : Bool) (m : Method) : Method → Prop where
  | changed {m' : Method} {kinds : List SiteKind} {pool pool' : LiteralPool} (hpool : pool.Usable)
      (h : w.weaveMethod breakInterning pool m = (.ok (some (m', kinds)), pool')) :
      Becomes w breakInterning m m'
  | kept (h : w.changes breakInterning m = false) : Becomes w breakInterning m m

/-- A method turns into the same, wherever its literals stand. -/
theorem Becomes.unplaced_eq {m₁ m₂ : Method} (h₁ : w.Becomes breakInterning m m₁)
    (h₂ : w.Becomes breakInterning m m₂) : m₁.unplaced = m₂.unplaced := by
  have hchanged : ∀ {m' kinds pool pool'}, pool.Usable →
      w.weaveMethod breakInterning pool m = (.ok (some (m', kinds)), pool') →
      w.fate breakInterning m = .ok (some (m'.unplaced, kinds)) :=
    fun hpool h => (fate_of_weaveMethod hpool h).1
  have hchanges : ∀ {m' kinds pool pool'}, pool.Usable →
      w.weaveMethod breakInterning pool m = (.ok (some (m', kinds)), pool') →
      w.changes breakInterning m = true :=
    fun hpool h => by simp only [changes, hchanged hpool h]
  cases h₁ with
  | changed hpool h =>
    cases h₂ with
    | changed hpool' h' =>
      have hsame := (hchanged hpool h).symm.trans (hchanged hpool' h')
      exact congrArg Prod.fst (Option.some.inj (Except.ok.inj hsame))
    | kept h' => exact absurd (hchanges hpool h) (by simp [h'])
  | kept h =>
    cases h₂ with
    | changed hpool' h' => exact absurd (hchanges hpool' h') (by simp [h])
    | kept _ => rfl

/-! ## 2. All methods -/

/-- The method that stands in the class in the end. -/
def standing (m : Method) : Outcome → Method
  | .ok (some (m', _)) => m'
  | _ => m

/-- A report with the outcome of one more method. -/
def reporting (r : WeaveReport) (m : Method) : Outcome → WeaveReport
  | .ok (some (_, kinds)) =>
    { r with instrumented := r.instrumented ++ [m.signature], sites := r.sites ++ kinds }
  | .ok none => { r with unchanged := r.unchanged ++ [m.signature] }
  | .error e => { r with failed := r.failed ++ [(m.signature, e)] }

theorem weaveMethods_cons (r : WeaveReport) (ms : List Method) :
    w.weaveMethods breakInterning pool r (m :: ms) =
      (standing m (w.weaveMethod breakInterning pool m).1 ::
          (w.weaveMethods breakInterning (w.weaveMethod breakInterning pool m).2
            (reporting r m (w.weaveMethod breakInterning pool m).1) ms).1,
        (w.weaveMethods breakInterning (w.weaveMethod breakInterning pool m).2
          (reporting r m (w.weaveMethod breakInterning pool m).1) ms).2) := by
  conv_lhs => unfold weaveMethods
  rcases w.weaveMethod breakInterning pool m with ⟨e | ⟨⟩ | ⟨woven, kinds⟩, pool₁⟩ <;> rfl

/-- What weaving adds to a report. -/
structure Reported (w : Weaver) (breakInterning : Bool) (ms : List Method) (r r' : WeaveReport) :
    Prop where
  className : r'.className = r.className
  included : r'.included = r.included
  instrumented : r'.instrumented =
    r.instrumented ++ (ms.filter (w.changes breakInterning)).map Method.signature
  unchanged : r'.unchanged =
    r.unchanged ++ (ms.filter (w.spares breakInterning)).map Method.signature
  failed : r'.failed = r.failed ++ ms.filterMap (w.failure? breakInterning)
  sites : r'.sites = r.sites ++ ms.flatMap (w.siteKinds breakInterning)

theorem Reported.cons {ms : List Method} {r r' : WeaveReport} {o : Outcome}
    (ho : w.fate breakInterning m = unplacedOutcome o)
    (h : Reported w breakInterning ms (reporting r m o) r') :
    Reported w breakInterning (m :: ms) r r' := by
  rcases o with e | ⟨⟩ | ⟨woven, kinds⟩
  · have hfate : w.fate breakInterning m = .error e := ho
    refine ⟨h.className, h.included, ?_, ?_, ?_, ?_⟩
    · simp [h.instrumented, reporting, changes, hfate]
    · simp [h.unchanged, reporting, spares, hfate]
    · simp [h.failed, reporting, failure?, hfate]
    · simp [h.sites, reporting, siteKinds, hfate]
  · have hfate : w.fate breakInterning m = .ok none := ho
    refine ⟨h.className, h.included, ?_, ?_, ?_, ?_⟩
    · simp [h.instrumented, reporting, changes, hfate]
    · simp [h.unchanged, reporting, spares, hfate]
    · simp [h.failed, reporting, failure?, hfate]
    · simp [h.sites, reporting, siteKinds, hfate]
  · have hfate : w.fate breakInterning m = .ok (some (woven.unplaced, kinds)) := ho
    refine ⟨h.className, h.included, ?_, ?_, ?_, ?_⟩
    · simp [h.instrumented, reporting, changes, hfate]
    · simp [h.unchanged, reporting, spares, hfate]
    · simp [h.failed, reporting, failure?, hfate]
    · simp [h.sites, reporting, siteKinds, hfate]

/-- What stands in the class in the end is what the method becomes. -/
theorem becomes_standing (hpool : pool.Usable) :
    w.Becomes breakInterning m (standing m (w.weaveMethod breakInterning pool m).1) := by
  rcases h : w.weaveMethod breakInterning pool m with ⟨e | ⟨⟩ | ⟨woven, kinds⟩, pool₁⟩
  · exact .kept (by simp [changes, (fate_of_weaveMethod hpool h).1, unplacedOutcome, Except.map])
  · exact .kept (by simp [changes, (fate_of_weaveMethod hpool h).1, unplacedOutcome, Except.map])
  · exact .changed hpool h

/-- **The methods one after the other**: each becomes what it would become on its own, and is
reported in one list. -/
theorem weaveMethods_fates (w : Weaver) (breakInterning : Bool) : ∀ (ms : List Method)
    (r : WeaveReport) {pool : LiteralPool}, pool.Usable →
    Reported w breakInterning ms r (w.weaveMethods breakInterning pool r ms).2.1 ∧
      List.Forall₂ (w.Becomes breakInterning) ms (w.weaveMethods breakInterning pool r ms).1 := by
  intro ms
  induction ms with
  | nil => exact fun _ _ _ => ⟨⟨rfl, rfl, by simp [weaveMethods], by simp [weaveMethods],
      by simp [weaveMethods], by simp [weaveMethods]⟩, .nil⟩
  | cons m ms ih =>
    intro r pool hpool
    obtain ⟨hfate, hpool₁⟩ := fate_of_weaveMethod (w := w) (m := m) hpool rfl
    obtain ⟨hreported, hbecome⟩ := ih _ hpool₁
    rw [weaveMethods_cons]
    exact ⟨hreported.cons hfate, .cons (becomes_standing hpool) hbecome⟩

/-- The report that is added to makes no difference to the methods and the table. -/
theorem weaveMethods_report_irrel (w : Weaver) (breakInterning : Bool) : ∀ (ms : List Method)
    (pool : LiteralPool) (r r' : WeaveReport),
    (w.weaveMethods breakInterning pool r ms).1 = (w.weaveMethods breakInterning pool r' ms).1 ∧
      (w.weaveMethods breakInterning pool r ms).2.2 =
        (w.weaveMethods breakInterning pool r' ms).2.2 := by
  intro ms
  induction ms with
  | nil => exact fun _ _ _ => ⟨rfl, rfl⟩
  | cons m ms ih =>
    intro pool r r'
    obtain ⟨hmethods, htable⟩ := ih (w.weaveMethod breakInterning pool m).2
      (reporting r m (w.weaveMethod breakInterning pool m).1)
      (reporting r' m (w.weaveMethod breakInterning pool m).1)
    simp only [weaveMethods_cons, hmethods, htable, and_self]

/-- **A method that cannot be analysed** leaves the others and the table as they would be without
it. -/
theorem weaveMethods_unanalysed (breakInterning : Bool) {e : WeaveError}
    (hm : Analysis.ofMethod w.settings.order w.settings.maxIterations m = .error e)
    (after : List Method) : ∀ (before : List Method) (pool : LiteralPool) (r : WeaveReport),
    ∃ before' after', before'.length = before.length ∧
      (w.weaveMethods breakInterning pool r (before ++ m :: after)).1 = before' ++ m :: after' ∧
      (w.weaveMethods breakInterning pool r (before ++ after)).1 = before' ++ after' ∧
      (w.weaveMethods breakInterning pool r (before ++ m :: after)).2.2 =
        (w.weaveMethods breakInterning pool r (before ++ after)).2.2 := by
  intro before
  induction before with
  | nil =>
    intro pool r
    have hfails : w.weaveMethod breakInterning pool m = (.error e, pool) := by
      simp only [weaveMethod, hm]
    obtain ⟨hmethods, htable⟩ := weaveMethods_report_irrel w breakInterning after pool
      (reporting r m (.error e)) r
    refine ⟨[], _, rfl, ?_, rfl, ?_⟩
    · rw [List.nil_append, weaveMethods_cons, hfails, hmethods]
      rfl
    · rw [List.nil_append, weaveMethods_cons, hfails, htable]
      rfl
  | cons m₀ before ih =>
    intro pool r
    obtain ⟨before', after', hlen, hwith, hwithout, htable⟩ :=
      ih (w.weaveMethod breakInterning pool m₀).2
        (reporting r m₀ (w.weaveMethod breakInterning pool m₀).1)
    refine ⟨standing m₀ (w.weaveMethod breakInterning pool m₀).1 :: before', after', ?_, ?_, ?_, ?_⟩
    · rw [List.length_cons, List.length_cons, hlen]
    · rw [List.cons_append, weaveMethods_cons, hwith]
      rfl
    · rw [List.cons_append, weaveMethods_cons, hwithout]
      rfl
    · simp only [List.cons_append, weaveMethods_cons, htable]

/-! ## 3. The class -/

/-- The report with which weaving a class begins. -/
def blankReport (c : Class) : WeaveReport := ⟨c.name, true, [], [], [], [], none⟩

theorem weaveClass_included (store : Store) {c : Class} (h : w.filter.includes c.name = true) :
    w.weaveClass store c =
      let out :=
  w.weaveMethods (w.interning.includes c.name) (.ofClass store c.name) (blankReport c)
        c.methods
      ({ c with methods := out.1 }, { out.2.1 with constantTable := out.2.2.table },
          out.2.2.store) := by
  simp only [weaveClass, h, if_true]
  rfl

theorem weaveClass_excluded (store : Store) {c : Class} (h : w.filter.includes c.name = false) :
    w.weaveClass store c =
      (c, ⟨c.name, false, [], c.methods.map Method.signature, [], [], none⟩, store) := by
  simp only [weaveClass, h, Bool.false_eq_true, if_false]

/-- A woven method is known by the same signature. -/
theorem Becomes.signature_eq (h : w.Becomes breakInterning m m') : m'.signature = m.signature := by
  cases h with
  | changed _ h =>
    obtain ⟨a, p, -, rfl, -⟩ := weaveMethod_plans h
    rfl
  | kept _ => rfl

theorem Becomes.changes (h : w.Becomes breakInterning m m') :
    m' = m ∨ w.changes breakInterning m = true := by
  cases h with
  | changed hpool h =>
    refine .inr ?_
    simp only [Weaver.changes, (fate_of_weaveMethod hpool h).1]
    rfl
  | kept _ => exact .inl rfl

/-- **Every method is reported once**: it is changed, or needs no change, or fails. -/
theorem reported_once (w : Weaver) (breakInterning : Bool) : ∀ ms : List Method,
    ((ms.filter (w.changes breakInterning)).map Method.signature ++
      (ms.filter (w.spares breakInterning)).map Method.signature ++
      (ms.filterMap (w.failure? breakInterning)).map Prod.fst).Perm (ms.map Method.signature)
  | [] => .nil
  | m :: ms => by
    have ih := reported_once w breakInterning ms
    rcases hfate : w.fate breakInterning m with e | ⟨⟩ | ⟨woven, kinds⟩
    · simp only [List.filter_cons, changes, spares, failure?, hfate, Bool.false_eq_true, if_false,
        List.filterMap_cons, List.map_cons]
      exact List.perm_middle.trans (ih.cons _)
    · simp only [List.filter_cons, changes, spares, failure?, hfate, Bool.false_eq_true, if_false,
        if_true, List.filterMap_cons, List.map_cons, List.append_assoc, List.cons_append]
      rw [List.append_assoc] at ih
      exact List.perm_middle.trans (ih.cons _)
    · simp only [List.filter_cons, changes, spares, failure?, hfate, Bool.false_eq_true, if_false,
        if_true, List.filterMap_cons, List.map_cons, List.cons_append]
      exact ih.cons _

/-- The failures are reported in the order of the methods. -/
theorem failures_sublist (w : Weaver) (breakInterning : Bool) : ∀ ms : List Method,
    ((ms.filterMap (w.failure? breakInterning)).map Prod.fst).Sublist (ms.map Method.signature)
  | [] => .slnil
  | m :: ms => by
    have ih := failures_sublist w breakInterning ms
    rcases hfate : w.fate breakInterning m with e | r
    · simp only [List.filterMap_cons, failure?, hfate, List.map_cons]
      exact ih.cons_cons _
    · simp only [List.filterMap_cons, failure?, hfate, List.map_cons]
      exact ih.cons _

/-- The lists of a report that began blank. -/
theorem Reported.lists {c : Class} {ms : List Method} {r : WeaveReport}
    (h : Reported w breakInterning ms (blankReport c) r) :
    r.instrumented = (ms.filter (w.changes breakInterning)).map Method.signature ∧
      r.unchanged = (ms.filter (w.spares breakInterning)).map Method.signature ∧
      r.failed = ms.filterMap (w.failure? breakInterning) :=
  ⟨h.instrumented, h.unchanged, h.failed⟩

/-- What a report and the methods that it is about, before and after, say of each other: each method
stands where it stood, as it was or changed, and its signature stands in one of the three lists,
each in the order of the methods. -/
structure Tells (r : WeaveReport) (methods methods' : List Method) : Prop where
  stands : List.Forall₂ (fun m m' => m'.signature = m.signature ∧
    (m' = m ∨ m.signature ∈ r.instrumented)) methods methods'
  once : (r.instrumented ++ r.unchanged ++ r.failed.map Prod.fst).Perm
    (methods.map Method.signature)
  instrumented : r.instrumented.Sublist (methods.map Method.signature)
  unchanged : r.unchanged.Sublist (methods.map Method.signature)
  failed : (r.failed.map Prod.fst).Sublist (methods.map Method.signature)

/-- **The methods of a class, woven**, are told of by the report. -/
theorem weaveClass_report (w : Weaver) (store : Store) (c : Class) :
    Tells (w.weaveClass store c).2.1 c.methods (w.weaveClass store c).1.methods := by
  cases hincluded : w.filter.includes c.name with
  | false =>
    rw [weaveClass_excluded store hincluded]
    exact ⟨List.forall₂_same.mpr fun m _ => ⟨rfl, .inl rfl⟩, by simp, by simp, by simp, by simp⟩
  | true =>
    rw [weaveClass_included store hincluded]
    obtain ⟨hreported, hbecome⟩ := weaveMethods_fates w (w.interning.includes c.name) c.methods
      (blankReport c) (LiteralPool.ofClass_usable store c.name)
    obtain ⟨hinstrumented, hunchanged, hfailed⟩ := hreported.lists
    refine ⟨?_, ?_, ?_, ?_, ?_⟩
    · have hmember := (List.forall₂_and_left _ _).mpr ⟨fun m (hm : m ∈ c.methods) => hm, hbecome⟩
      refine hmember.imp fun m m' ⟨hm, h⟩ =>
        ⟨h.signature_eq, h.changes.imp_right fun hchanges => ?_⟩
      simp only [hinstrumented]
      exact List.mem_map_of_mem (List.mem_filter.mpr ⟨hm, hchanges⟩)
    · simp only [hinstrumented, hunchanged, hfailed]
      exact reported_once w _ c.methods
    · simp only [hinstrumented]
      exact List.filter_sublist.map _
    · simp only [hunchanged]
      exact List.filter_sublist.map _
    · simp only [hfailed]
      exact failures_sublist w _ c.methods

/-- An entry comes from a method, and without the method it is gone. -/
theorem exists_of_filterMap_getElem? {α β : Type} {f : α → Option β} :
    ∀ {l : List α} {n : Nat} {y : β}, (l.filterMap f)[n]? = some y →
    ∃ before x after, l = before ++ x :: after ∧ f x = some y ∧
      (before ++ after).filterMap f = (l.filterMap f).eraseIdx n
  | [], n, y, h => by simp at h
  | x :: l, n, y, h => by
    cases hx : f x with
    | none =>
      rw [List.filterMap_cons_none hx] at h ⊢
      obtain ⟨before, z, after, rfl, hz, herase⟩ := exists_of_filterMap_getElem? h
      exact ⟨x :: before, z, after, rfl,
        hz, by rw [List.cons_append, List.filterMap_cons_none hx, herase]⟩
    | some y' =>
      rw [List.filterMap_cons_some hx] at h ⊢
      cases n with
      | zero =>
        obtain rfl : y' = y := by simpa using h
        exact ⟨[], x, l, rfl, hx, rfl⟩
      | succ n =>
        obtain ⟨before, z, after, rfl, hz, herase⟩ :=
          exists_of_filterMap_getElem? (show _ = some y by simpa using h)
        refine ⟨x :: before, z, after, rfl, hz, ?_⟩
        rw [List.cons_append, List.filterMap_cons_some hx, herase, List.eraseIdx_cons_succ]

/-- Methods that turn into something without and with a table turn into the same. -/
theorem unplaced_eq_of_becomes {ms ms₁ ms₂ : List Method}
    (h₁ : List.Forall₂ (w.Becomes breakInterning) ms ms₁)
    (h₂ : List.Forall₂ (w.Becomes breakInterning) ms ms₂) :
    ms₁.map Method.unplaced = ms₂.map Method.unplaced := by
  induction h₁ generalizing ms₂ with
  | nil =>
    cases h₂
    rfl
  | cons h _ ih =>
    cases h₂ with
    | cons h' hrest => rw [List.map_cons, List.map_cons, h.unplaced_eq h', ih hrest]

theorem fate_of_failure? {y : String × WeaveError} (h : w.failure? breakInterning m = some y) :
    ∃ e, w.fate breakInterning m = .error e ∧ y = (m.signature, e) := by
  unfold failure? at h
  split at h
  · rename_i e he
    exact ⟨e, he, (Option.some.inj h).symm⟩
  · exact nomatch h

/-- What is reported of the others. -/
theorem Reported.without {before after : List Method} {e : WeaveError} {r r₁ r₂ : WeaveReport}
    (h₁ : Reported w breakInterning (before ++ m :: after) r r₁)
    (h₂ : Reported w breakInterning (before ++ after) r r₂)
    (hm : w.fate breakInterning m = .error e) :
    r₂.instrumented = r₁.instrumented ∧ r₂.unchanged = r₁.unchanged ∧ r₂.sites = r₁.sites := by
  refine ⟨?_, ?_, ?_⟩
  · simp [h₁.instrumented, h₂.instrumented, changes, hm]
  · simp [h₁.unchanged, h₂.unchanged, spares, hm]
  · simp [h₁.sites, h₂.sites, siteKinds, hm]

/-- The methods before, the method that failed, and those after it, as they stand in the end. -/
theorem exists_standing {before after out : List Method} {e : WeaveError}
    (h : List.Forall₂ (w.Becomes breakInterning) (before ++ m :: after) out)
    (hm : w.fate breakInterning m = .error e) :
    ∃ before' after', out = before' ++ m :: after' ∧ before'.length = before.length ∧
      List.Forall₂ (w.Becomes breakInterning) (before ++ after) (before' ++ after') := by
  have hbefore := List.forall₂_take before.length h
  have hafter := List.forall₂_drop before.length h
  rw [List.take_left] at hbefore
  rw [List.drop_left, List.forall₂_cons_left_iff] at hafter
  obtain ⟨m', after', hm', hrest, hout⟩ := hafter
  obtain rfl : m' = m := hm'.changes.resolve_right (by simp [changes, hm])
  refine ⟨out.take before.length, after', ?_, hbefore.length_eq.symm, ?_⟩
  · rw [← hout, List.take_append_drop]
  · exact List.rel_append hbefore hrest

/-- **Weaving without a method that fails**: the others turn into the same, and are reported in the
same lists. -/
theorem weaveMethods_without {r : WeaveReport} {before after : List Method} {e : WeaveError}
    (hpool : pool.Usable) (hpool' : pool'.Usable) (hm : w.fate breakInterning m = .error e) :
    ∃ before' after', before'.length = before.length ∧
      (w.weaveMethods breakInterning pool r (before ++ m :: after)).1 = before' ++ m :: after' ∧
      (before' ++ after').map Method.unplaced =
        (w.weaveMethods breakInterning pool' r (before ++ after)).1.map Method.unplaced := by
  obtain ⟨-, hbecome⟩ := weaveMethods_fates w breakInterning (before ++ m :: after) r hpool
  obtain ⟨-, hbecome'⟩ := weaveMethods_fates w breakInterning (before ++ after) r hpool'
  obtain ⟨before', after', hout, hlen, hstand⟩ := exists_standing hbecome hm
  exact ⟨before', after', hlen, hout, unplaced_eq_of_becomes hstand hbecome'⟩

/-- **A method that fails makes no difference to the others.**  Every failure that is reported is
that of a method which stands in the class as it was.  Without the method the others are changed in
the same way, but for the places of literals, and reported in the same lists, with sites of the same
kinds.  If the method could not even be analysed, all literals stand where they stood, and the
tables are the same.  All methods, the one that fails included, stand in the class and in one of the
lists as the report tells. -/
theorem weaveClass_without {store : Store} {c : Class} {n : Nat} {signature : String}
    {e : WeaveError} (store' : Store)
    (h : (w.weaveClass store c).2.1.failed[n]? = some (signature, e)) :
    ∃ before m after before' after', c.methods = before ++ m :: after ∧ m.signature = signature ∧
      before'.length = before.length ∧
      let out := w.weaveClass store c
      let rest := w.weaveClass store' { c with methods := before ++ after }
      out.1.methods = before' ++ m :: after' ∧
      (before' ++ after').map Method.unplaced = rest.1.methods.map Method.unplaced ∧
      rest.2.1.instrumented = out.2.1.instrumented ∧ rest.2.1.unchanged = out.2.1.unchanged ∧
      rest.2.1.failed = out.2.1.failed.eraseIdx n ∧ rest.2.1.siteCounts = out.2.1.siteCounts ∧
      (store' = store →
        (Analysis.ofMethod w.settings.order w.settings.maxIterations m).isOk = false →
        rest.1.methods = before' ++ after' ∧ rest.2.1.constantTable = out.2.1.constantTable ∧
          rest.2.2 = out.2.2) ∧
      Tells out.2.1 c.methods out.1.methods := by
  have htells := weaveClass_report w store c
  cases hincluded : w.filter.includes c.name with
  | false =>
    rw [weaveClass_excluded store hincluded] at h
    simp at h
  | true =>
    obtain ⟨name, methods⟩ := c
    have hpool := LiteralPool.ofClass_usable store name
    have hpool' := LiteralPool.ofClass_usable store' name
    obtain ⟨hreported, -⟩ := weaveMethods_fates w (w.interning.includes name) methods
      (blankReport ⟨name, methods⟩) hpool
    rw [weaveClass_included store hincluded] at h
    simp only [hreported.lists.2.2] at h
    obtain ⟨before, m, after, rfl, hfails, herase⟩ := exists_of_filterMap_getElem? h
    obtain ⟨e', hfate, hentry⟩ := fate_of_failure? hfails
    obtain ⟨before', after', hlen, hout, hsame⟩ :=
      weaveMethods_without (r := blankReport ⟨name, before ++ m :: after⟩) hpool hpool' hfate
    obtain ⟨hreported', -⟩ := weaveMethods_fates w (w.interning.includes name) (before ++ after)
      (blankReport ⟨name, before ++ after⟩) hpool'
    obtain ⟨hinstrumented, hunchanged, hsites⟩ := hreported.without hreported' hfate
    refine ⟨before, m, after, before', after', rfl, (congrArg Prod.fst hentry).symm, hlen, ?_⟩
    rw [weaveClass_included store hincluded] at htells ⊢
    rw [weaveClass_included (c := ⟨name, before ++ after⟩) store' hincluded]
    refine ⟨hout, hsame, hinstrumented, hunchanged, ?_, ?_, ?_, htells⟩
    · simp only [hreported.lists.2.2, hreported'.lists.2.2, herase]
    · simp only [WeaveReport.siteCounts, hsites]
    · rintro rfl hunanalysed
      cases ha : Analysis.ofMethod w.settings.order w.settings.maxIterations m with
      | ok a => simp [ha, Except.isOk, Except.toBool] at hunanalysed
      | error e₁ =>
        obtain ⟨before₁, after₁, hlen₁, hwith, hwithout, htable⟩ :=
          weaveMethods_unanalysed (w.interning.includes name) ha after before
            (.ofClass store' name) (blankReport ⟨name, before ++ after⟩)
        obtain ⟨rfl, hrest⟩ := List.append_inj (hwith.symm.trans hout) (hlen₁.trans hlen.symm)
        obtain rfl := (List.cons_eq_cons.mp hrest).2
        exact ⟨hwithout, congrArg LiteralPool.table htable.symm,
          congrArg LiteralPool.store htable.symm⟩

/-- Stores a character, copies between arrays through a method of the right name that is called on
an object, and does so again; what takes its place leaves the object behind. -/
def copyingTwice : Method :=
  let copy : List Insn := [.load 0, .load 0, .const (.int 0), .load 1, .const (.int 0),
    .const (.int 1), .invoke ⟨.virtual, "java/lang/System", "arraycopy",
      ⟨[.object "java/lang/Object", .int, .object "java/lang/Object", .int, .int], .void⟩⟩]
  ⟨"demo/T", "bad", ⟨[.array .char, .array .char], .void⟩, true, 2, 0,
    [.load 0, .const (.int 0), .const (.int 65), .arrayStore .char] ++ copy ++ copy ++ [.ret .void]⟩

/-- Stores another character. -/
def storingOnce : Method :=
  ⟨"demo/T", "good", ⟨[.array .char], .void⟩, true, 1, 0,
    [.load 0, .const (.int 0), .const (.int 66), .arrayStore .char, .ret .void]⟩

theorem copyingTwice_without :
    (everywhere.weaveClass (.empty .default)
      ⟨"demo/T", [copyingTwice, storingOnce]⟩).2.1.failed[0]? =
      some (copyingTwice.signature, .unsupported 0 (.depthExceeded 7 6)) ∧
    ∃ before m after, [copyingTwice, storingOnce] = before ++ m :: after ∧
      m.signature = copyingTwice.signature ∧
      (everywhere.weaveClass (.empty .default) ⟨"demo/T", before ++ after⟩).2.1.instrumented =
        (everywhere.weaveClass (.empty .default)
          ⟨"demo/T", [copyingTwice, storingOnce]⟩).2.1.instrumented := by
  have hfailed : (everywhere.weaveClass (.empty .default)
      ⟨"demo/T", [copyingTwice, storingOnce]⟩).2.1.failed[0]? =
        some (copyingTwice.signature, .unsupported 0 (.depthExceeded 7 6)) := by decide +kernel
  obtain ⟨before, m, after, _, _, hmethods, hsignature, -, -, -, hinstrumented, -⟩ :=
    weaveClass_without (.empty .default) hfailed
  exact ⟨hfailed, before, m, after, hmethods, hsignature, hinstrumented⟩

/-- Its literal stays in the table, in front of that of the other method. -/
example :
    let text := fun c => let s := (everywhere.weaveClass (.empty .default) c).2.2
      s.tables.map s.tableText
    text ⟨"demo/T", [copyingTwice, storingOnce]⟩ =
    ["class demo.T\nvoid bad(char[], char[]):\n  A\n" ++
        "void good(char[]):\n  B\n"] ∧
      text ⟨"demo/T", [storingOnce]⟩ = ["class demo.T\nvoid good(char[]):\n  B\n"] := by
  decide +kernel

end Weaver

end Provenance
