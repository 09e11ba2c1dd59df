/-
# Classes and their woven forms

`Weaving` is a class with the weaver and the store it is woven with.  Loading the classes of some
weavings, or what they became, gives two programs that are a pair, so invoking a method comes to
the same in both (`invoke_agrees`).  What is asked of the classes and the natives is `Compatible`.
-/
import Mathlib.Data.List.Induction
import Provenance.Proofs.Descriptors
import Provenance.Proofs.Simulation

namespace Provenance

/-! ## 1. Arrays that weaving clones -/

/-- The arrays that weaving clones. -/
theorem Carrier.owner_of_clonedArray {m : MethodRef} (h : (clonedArray? m).isSome) :
    m.name = "clone" ∧ (m.owner = "[B" ∨ m.owner = "[C" ∨ m.owner = "[I") := by
  unfold clonedArray? at h
  split at h
  · rename_i hc
    simp only [Bool.and_eq_true, decide_eq_true_eq] at hc
    refine ⟨hc.1.1, ?_⟩
    split at h
    · rename_i elem hp
      split at h
      · rename_i helem
        have howner : String.ofList (Ty.array elem).descriptorChars = m.owner := by
          rw [← Ty.eq_of_ofChars hp, String.ofList_toList]
        cases elem <;> simp [Ty.isTrackedElement] at helem <;> simp [← howner, Ty.descriptorChars]
      · exact absurd h (by simp)
    · exact absurd h (by simp)
  · exact absurd h (by simp)

/-! ## 2. Loading classes -/

/-- A program of classes that are loaded one after the other. -/
def Program.ofClasses (natives : List (String × Native)) (classes : List Class) : Program :=
  classes.foldl Program.load ⟨[], natives⟩

/-- A class with what it is woven with. -/
structure Weaving where
  weaver : Weaver
  store : Store
  source : Class

namespace Weaving

/-- The woven class. -/
def result (x : Weaving) : Class := (x.weaver.weaveClass x.store x.source).1

def report (x : Weaving) : WeaveReport := (x.weaver.weaveClass x.store x.source).2.1

end Weaving

/-- A call that is made as the built-in natives that weaving knows expect it. -/
structure MethodRef.Usual (m : MethodRef) : Prop where
  arrayCopy : Carrier.isArrayCopy m = true → m.kind = .static ∧
    m.desc = ⟨[.object "java/lang/Object", .int, .object "java/lang/Object", .int, .int], .void⟩
  charAt : Carrier.isCharAt m = true → m.kind ≠ .static ∧ m.desc = ⟨[.int], .char⟩
  clone : (Carrier.clonedArray? m).isSome →
    m.kind ≠ .static ∧ m.desc = ⟨[], .object "java/lang/Object"⟩

/-- Classes whose weaving cannot be noticed: literals keep their identity and no comparison of
strings is rewritten, the sources are not woven yet, built-in natives are called as usual and are
overridden neither by a class nor by another native, and no native looks at call records. -/
structure Compatible (natives : List (String × Native)) (xs : List Weaving) : Prop where
  interning : ∀ x ∈ xs, x.weaver.interning.includes x.source.name = false
  comparisons : ∀ x ∈ xs, SiteKind.stringComparison ∉ x.report.sites
  hooks : ∀ x ∈ xs, ∀ m ∈ x.source.methods, ∀ h, .hook h ∉ m.insns
  calls : ∀ x ∈ xs, ∀ m ∈ x.source.methods, ∀ target, .invoke target ∈ m.insns → target.Usual
  overridden : ∀ x ∈ xs, ∀ m ∈ x.source.methods,
    methodKey x.source.name m.name m.desc.descriptor ∉ Native.builtIn.map Prod.fst
  builtIn : ∀ e ∈ Native.builtIn, natives.lookup e.1 = some e.2
  blind : ∀ e ∈ natives, e.2.Blind

/-- Classes that weaving takes as they are meant: the sources are not woven yet, built-in natives
are called as usual and are overridden neither by a class nor by another native, and no native looks
at call records. -/
structure Weavable (natives : List (String × Native)) (xs : List Weaving) : Prop where
  hooks : ∀ x ∈ xs, ∀ m ∈ x.source.methods, ∀ h, .hook h ∉ m.insns
  calls : ∀ x ∈ xs, ∀ m ∈ x.source.methods, ∀ target, .invoke target ∈ m.insns → target.Usual
  overridden : ∀ x ∈ xs, ∀ m ∈ x.source.methods,
    methodKey x.source.name m.name m.desc.descriptor ∉ Native.builtIn.map Prod.fst
  builtIn : ∀ e ∈ Native.builtIn, natives.lookup e.1 = some e.2
  blind : ∀ e ∈ natives, e.2.Blind

/-- Strings keep their identity in woven classes. -/
structure Interned (xs : List Weaving) : Prop where
  interning : ∀ x ∈ xs, x.weaver.interning.includes x.source.name = false
  comparisons : ∀ x ∈ xs, SiteKind.stringComparison ∉ x.report.sites

theorem Compatible.weavable {natives : List (String × Native)} {xs : List Weaving}
    (h : Compatible natives xs) : Weavable natives xs :=
  ⟨h.hooks, h.calls, h.overridden, h.builtIn, h.blind⟩

theorem Compatible.interned {natives : List (String × Native)} {xs : List Weaving}
    (h : Compatible natives xs) : Interned xs := ⟨h.interning, h.comparisons⟩

variable {natives : List (String × Native)} {xs : List Weaving} {interned : Prop} {p p' : Program}

theorem Program.ofClasses_concat (natives : List (String × Native)) (cs : List Class) (c : Class) :
    ofClasses natives (cs ++ [c]) = (ofClasses natives cs).load c := by
  unfold ofClasses
  rw [List.foldl_append]
  rfl

theorem Program.ofClasses_natives (natives : List (String × Native)) (classes : List Class) :
    (ofClasses natives classes).natives = natives := by
  induction classes using List.reverseRecOn with
  | nil => rfl
  | append_singleton cs c ih =>
    rw [ofClasses_concat]
    exact ih

theorem Program.mem_replace {α : Type} {name : String} {a : α} {e : String × α} :
    ∀ {l : List (String × α)}, e ∈ replace name a l → e = (name, a) ∨ e ∈ l
  | [], h => Or.inl (List.mem_singleton.mp h)
  | (k, b) :: rest, h => by
    unfold replace at h
    split at h
    · rcases List.mem_cons.mp h with h | h
      · exact Or.inl h
      · exact Or.inr (List.mem_cons_of_mem _ h)
    · rcases List.mem_cons.mp h with h | h
      · exact Or.inr (h ▸ List.mem_cons_self)
      · exact (mem_replace h).imp_right (List.mem_cons_of_mem _)

/-- What is loaded was a class. -/
theorem Program.mem_ofClasses {classes : List Class} {e : String × List Routine}
    (h : e ∈ (ofClasses natives classes).classes) :
    ∃ c ∈ classes, e = (c.name, c.methods.map Routine.ofMethod) := by
  induction classes using List.reverseRecOn with
  | nil => exact absurd h (by simp [ofClasses])
  | append_singleton cs c ih =>
    rw [ofClasses_concat] at h
    rcases mem_replace h with h | h
    · exact ⟨c, by simp, h⟩
    · obtain ⟨c', hc', he⟩ := ih h
      exact ⟨c', List.mem_append_left _ hc', he⟩

/-- A routine that is found is a method of a class. -/
theorem Program.exists_of_routine {classes : List Class}
    {owner name descriptor : String} {r : Routine}
    (h : (ofClasses natives classes).routine? owner name descriptor = some r) :
    ∃ c ∈ classes, c.name = owner ∧ ∃ m ∈ c.methods,
      r = .ofMethod m ∧ m.name = name ∧ m.desc.descriptor = descriptor := by
  obtain ⟨routines, hlookup, hfind⟩ := Option.bind_eq_some_iff.mp h
  obtain ⟨c, hc, he⟩ := mem_ofClasses (mem_of_lookup hlookup)
  obtain ⟨howner, rfl⟩ := Prod.mk.inj he
  obtain ⟨m, hm, rfl⟩ := List.mem_map.mp (List.mem_of_find?_eq_some hfind)
  have hsame := List.find?_some hfind
  simp only [Bool.and_eq_true, beq_iff_eq] at hsame
  exact ⟨c, hc, howner.symm, m, hm, rfl, hsame.1, hsame.2⟩

/-- Classes of the same names whose routines are related are found under the same names. -/
theorem Program.replace_forall₂ {α : Type} {R : α → α → Prop} {name : String} {a a' : α}
    (ha : R a a') :
    ∀ {l l' : List (String × α)}, List.Forall₂ (fun e e' => e'.1 = e.1 ∧ R e.2 e'.2) l l' →
    List.Forall₂ (fun e e' => e'.1 = e.1 ∧ R e.2 e'.2) (replace name a l) (replace name a' l')
  | _, _, .nil => .cons ⟨rfl, ha⟩ .nil
  | (k, b) :: _, (k', b') :: _, .cons ⟨hk, hb⟩ hrest => by
    obtain rfl : k' = k := hk
    unfold replace
    split
    · exact .cons ⟨rfl, ha⟩ hrest
    · exact .cons ⟨rfl, hb⟩ (replace_forall₂ ha hrest)

theorem Program.lookup_forall₂ {α : Type} {R : α → α → Prop} (name : String) :
    ∀ {l l' : List (String × α)}, List.Forall₂ (fun e e' => e'.1 = e.1 ∧ R e.2 e'.2) l l' →
    Option.Rel R (l.lookup name) (l'.lookup name)
  | _, _, .nil => .none
  | (k, b) :: _, (k', b') :: _, .cons ⟨hk, hb⟩ hrest => by
    obtain rfl : k' = k := hk
    rw [lookup_cons_if, lookup_cons_if]
    split
    · exact .some hb
    · exact lookup_forall₂ name hrest

theorem Routine.Pair.find {q : Program} {name descriptor : String} : ∀ {rs rs' : List Routine},
    List.Forall₂ (Routine.Pair interned q) rs rs' → Option.Rel (Routine.Pair interned q)
      (rs.find? fun r => r.method.name == name && r.descriptor == descriptor)
      (rs'.find? fun r => r.method.name == name && r.descriptor == descriptor)
  | _, _, .nil => .none
  | r :: _, r' :: _, .cons hr hrest => by
    have hsame : (r'.method.name == name && r'.descriptor == descriptor) =
        (r.method.name == name && r.descriptor == descriptor) := by
      cases hr <;> rfl
    rw [List.find?_cons, List.find?_cons, hsame]
    split
    · exact .some hr
    · exact find hrest

/-! ## 3. Woven classes make a pair with their sources -/

/-- Calls of built-in natives reach them. -/
theorem Weavable.answers (h : Weavable natives xs) {m : MethodRef} {n : Native}
    (hn : (methodKey m.owner m.name m.desc.descriptor, n) ∈ Native.builtIn) :
    (Program.ofClasses natives (xs.map Weaving.source)).Answers m n.body := by
  refine ⟨?_, n.held, ?_⟩
  · cases hr : (Program.ofClasses natives (xs.map Weaving.source)).routine? m.owner m.name
      m.desc.descriptor with
    | none => rfl
    | some r =>
      obtain ⟨c, hc, howner, m', hm', -, hname, hdesc⟩ := Program.exists_of_routine hr
      obtain ⟨x, hx, rfl⟩ := List.mem_map.mp hc
      refine absurd ?_ (h.overridden x hx m' hm')
      rw [howner, hname, hdesc]
      exact List.mem_map_of_mem hn
  · unfold Program.native?
    rw [Program.ofClasses_natives]
    exact h.builtIn _ hn

theorem Weavable.standard (h : Weavable natives xs) {m : MethodRef} (hm : m.Usual) :
    (Program.ofClasses natives (xs.map Weaving.source)).Standard m := by
  refine ⟨fun hcopy => ?_, fun hchar => ?_, fun hclone => ?_⟩
  · obtain ⟨hkind, hdesc⟩ := hm.arrayCopy hcopy
    simp only [Carrier.isArrayCopy, Bool.and_eq_true, decide_eq_true_eq] at hcopy
    refine ⟨by simp [MethodRef.operandCount, MethodRef.hasReceiver, hkind, hdesc], by rw [hdesc],
      h.answers (n := ⟨Native.arrayCopy, []⟩) ?_⟩
    rw [hcopy.1.1, hcopy.1.2, hcopy.2]
    simp [Native.builtIn, Carrier.systemClass, Carrier.arrayCopyDescriptor]
  · obtain ⟨hkind, hdesc⟩ := hm.charAt hchar
    simp only [Carrier.isCharAt, Bool.and_eq_true, decide_eq_true_eq] at hchar
    refine ⟨by simp [MethodRef.operandCount, MethodRef.hasReceiver, hkind, hdesc],
      h.answers (n := ⟨Native.charAt, []⟩) ?_⟩
    rw [hchar.1.1, hchar.1.2, hchar.2]
    simp [Native.builtIn, Ty.stringClass]
  · obtain ⟨hkind, hdesc⟩ := hm.clone hclone
    obtain ⟨hname, howner⟩ := Carrier.owner_of_clonedArray hclone
    refine ⟨by simp [MethodRef.operandCount, MethodRef.hasReceiver, hkind, hdesc], by simp [hdesc],
      h.answers (n := ⟨Native.clone, []⟩) ?_⟩
    have hdescriptor : m.desc.descriptor = "()Ljava/lang/Object;" := by
      rw [hdesc]
      decide
    rw [hname, hdescriptor]
    rcases howner with h | h | h <;> simp [Native.builtIn, h]

/-- A method and what weaving made of it. -/
theorem Weavable.routine (h : Weavable natives xs) (hinterned : interned → Interned xs)
    {x : Weaving} (hx : x ∈ xs) {m m' : Method} (hm : m ∈ x.source.methods)
    (hwoven : WovenFrom (x.weaver.interning.includes x.source.name) x.report.sites m m') :
    Routine.Pair interned (Program.ofClasses natives (xs.map Weaving.source)) (.ofMethod m)
      (.ofMethod m') := by
  rcases hwoven with rfl | ⟨v, rfl, rfl, hsites, hkinds⟩
  · exact .same m' (h.hooks x hx m' hm)
  · refine .woven v ⟨fun hin k text hmem => ?_, fun hin k equal target hmem => ?_,
      fun target htarget => ?_⟩
    · rw [hsites, (hinterned hin).interning x hx] at hmem
      exact Site.stringLiteral_not_mem hmem
    · exact (hinterned hin).comparisons x hx (hkinds _ hmem)
    · exact h.standard (h.calls x hx _ hm target htarget)

/-- **The routines of a class and of its woven form.** -/
theorem Weavable.routines (h : Weavable natives xs) (hinterned : interned → Interned xs)
    {x : Weaving} (hx : x ∈ xs) :
    x.result.name = x.source.name ∧ List.Forall₂
      (Routine.Pair interned (Program.ofClasses natives (xs.map Weaving.source)))
      (x.source.methods.map Routine.ofMethod) (x.result.methods.map Routine.ofMethod) := by
  obtain ⟨hname, hmethods⟩ := Weaver.weaveClass_methods
    (show x.weaver.weaveClass x.store x.source = (x.result, x.report, _) from rfl)
  refine ⟨hname, ?_⟩
  have hall : ∀ {ms ms' : List Method}, List.Forall₂
      (WovenFrom (x.weaver.interning.includes x.source.name) x.report.sites) ms ms' →
      (∀ m ∈ ms, m ∈ x.source.methods) → List.Forall₂
        (Routine.Pair interned (Program.ofClasses natives (xs.map Weaving.source)))
        (ms.map Routine.ofMethod) (ms'.map Routine.ofMethod) := by
    intro ms ms' hmethods
    induction hmethods with
    | nil => exact fun _ => .nil
    | cons hwoven _ ih =>
      intro hms
      exact .cons (h.routine hinterned hx (hms _ (by simp)) hwoven)
        (ih fun m hm => hms m (by simp [hm]))
  exact hall hmethods fun _ hm => hm

/-- **A program and its woven form are a pair.** -/
theorem Weavable.pair (h : Weavable natives xs) (hinterned : interned → Interned xs) :
    (Program.ofClasses natives (xs.map Weaving.source)).Pair interned
      (Program.ofClasses natives (xs.map Weaving.result)) := by
  have hclasses : ∀ ys : List Weaving, (∀ y ∈ ys, y ∈ xs) → List.Forall₂
      (fun e e' : String × List Routine => e'.1 = e.1 ∧ List.Forall₂
        (Routine.Pair interned (Program.ofClasses natives (xs.map Weaving.source))) e.2 e'.2)
      (Program.ofClasses natives (ys.map Weaving.source)).classes
      (Program.ofClasses natives (ys.map Weaving.result)).classes := by
    intro ys
    induction ys using List.reverseRecOn with
    | nil => exact fun _ => .nil
    | append_singleton ys y ih =>
      intro hys
      obtain ⟨hname, hroutines⟩ := h.routines hinterned (hys y (by simp))
      simp only [List.map_append, List.map_singleton, Program.ofClasses_concat]
      unfold Program.load
      rw [hname]
      exact Program.replace_forall₂ hroutines (ih fun y' hy' => hys y' (by simp [hy']))
  refine ⟨?_, ?_, fun owner name descriptor => ?_⟩
  · rw [Program.ofClasses_natives, Program.ofClasses_natives]
  · rw [Program.ofClasses_natives]
    exact h.blind
  · have hlookup := Program.lookup_forall₂ owner (hclasses xs fun _ hx => hx)
    unfold Program.routine?
    generalize (Program.ofClasses natives (xs.map Weaving.source)).classes.lookup owner = rs
      at hlookup ⊢
    generalize (Program.ofClasses natives (xs.map Weaving.result)).classes.lookup owner = rs'
      at hlookup ⊢
    cases hlookup with
    | none => exact .none
    | some hrs => exact Routine.Pair.find hrs

/-! ## 4. Invoking a method -/

/-- The built-in natives are found under their keys. -/
theorem Native.lookup_builtIn : ∀ e ∈ builtIn, builtIn.lookup e.1 = some e.2 := by
  unfold builtIn
  simp only [List.forall_mem_cons]
  exact ⟨rfl, rfl, rfl, rfl, rfl, rfl, rfl, rfl, by simp⟩

/-- A method that copies one element. -/
def copyElement : Method :=
  ⟨"demo/Copy", "run", ⟨[.array .char, .array .char], .void⟩, true, 2, 4,
    [.load 1, .const (.int 0), .load 0, .const (.int 0), .arrayLoad .char, .arrayStore .char,
      .ret .void]⟩

/-- Its class, woven without regard to its name. -/
def copyWeaving : Weaving :=
  ⟨⟨⟨"", "", 100, .fifo⟩, ⟨[⟨true, .leading []⟩]⟩, ⟨[]⟩⟩, .empty .default,
    ⟨"demo/Copy", [copyElement]⟩⟩

/-- A heap with two arrays of one character each. -/
def copyHeap : Heap := ((Heap.empty.allocate (.charArray "a")).2.allocate (.charArray "b")).2

theorem copyWeaving_compatible : Compatible Native.builtIn [copyWeaving] where
  interning := by decide +kernel
  comparisons := by decide +kernel
  hooks := by simp [copyWeaving, copyElement]
  calls := by simp [copyWeaving, copyElement]
  overridden := by decide +kernel
  builtIn := Native.lookup_builtIn
  blind := Native.builtIn_blind

end Provenance
