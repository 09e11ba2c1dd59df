/-
# Comparisons of literals that are copies

Where literals become instances of their own, weaving rewrites comparisons of references, so that
they go on as before.  A woven program does what the original does with copies of its literals, and
that is what the original does under other names (`RunState.Alike`).  So it follows the original
step by step and takes the same branches (`RunState.Alike.trace`).

There is one exception.  A comparison that weaving leaves alone tells copies of one literal apart
(`RunState.comparesCopies`), and from there on the two may go different ways.  Up to then they do
not (`Weavable.branches_agree`).
-/
import Provenance.Proofs.LeavingAlone
import Provenance.Proofs.Namesakes

namespace Provenance

/-! ## 1. Counted runs -/

/-- Where a run stands after its next step; there may be no instruction. -/
def Program.next (p : Program) (limits : MachineSettings) (s : RunState) : Progress :=
  match s.insn? with
  | some i => p.step limits s i
  | none => .ended ⟨.error (.fellOffEnd s.current.routine.key), s.world⟩

namespace Chronicle

variable {H : Type} {C : Chronicle H} {p : Program} {limits : MachineSettings}
    {ok : RunState → Bool}
  {s t u : RunState} {h h' h'' : H} {n m : Nat}

theorem trace_succ {i : Insn} (hi : s.insn? = some i) (ht : p.step limits s i = .running t)
    (hok : ok t = true) :
    C.trace p limits ok (n + 1) s h = C.trace p limits ok n t (C.after i s.bench h) := by
  rw [trace]
  simp only [hi, ht, hok, if_true]

theorem exists_of_trace_succ (ht : C.trace p limits ok (n + 1) s h = some (u, h')) :
    ∃ i t, s.insn? = some i ∧ p.step limits s i = .running t ∧ ok t = true ∧
      C.trace p limits ok n t (C.after i s.bench h) = some (u, h') := by
  unfold trace at ht
  split at ht
  · cases ht
  · rename_i i hi
    split at ht
    · rename_i t hs
      split at ht
      · rename_i hok
        exact ⟨i, t, hi, hs, hok, ht⟩
      · cases ht
    · cases ht

/-- One run after another. -/
theorem trace_add (ht : C.trace p limits ok n s h = some (t, h')) (m : Nat) :
    C.trace p limits ok (n + m) s h = C.trace p limits ok m t h' := by
  induction n generalizing s h with
  | zero =>
    obtain ⟨rfl, rfl⟩ := Prod.mk.inj (Option.some.inj ht)
    rw [Nat.zero_add]
  | succ n ih =>
    obtain ⟨i, u, hi, hu, hok, ht⟩ := exists_of_trace_succ ht
    rw [Nat.succ_add, trace_succ hi hu hok]
    exact ih ht

/-- The first steps of a run. -/
theorem exists_of_trace (ht : C.trace p limits ok n s h = some (u, h')) (hle : m ≤ n) :
    ∃ t h'', C.trace p limits ok m s h = some (t, h'') ∧
      C.trace p limits ok (n - m) t h'' = some (u, h') := by
  induction m generalizing n s h with
  | zero => exact ⟨s, h, rfl, ht⟩
  | succ m ih =>
    obtain ⟨n, rfl⟩ : ∃ n', n = n' + 1 := ⟨n - 1, by omega⟩
    obtain ⟨i, t, hi, hs, hok, ht⟩ := exists_of_trace_succ ht
    rw [trace_succ hi hs hok, Nat.add_sub_add_right]
    exact ih ht (Nat.le_of_succ_le_succ hle)

/-- No run goes on from where it ended. -/
theorem trace_ended {r : RunResult} (hr : p.next limits s = .ended r) :
    C.trace p limits ok (n + 1) s h = none := by
  cases ht : C.trace p limits ok (n + 1) s h with
  | none => rfl
  | some e =>
    obtain ⟨i, t, hi, hs, -, -⟩ := exists_of_trace_succ ht
    unfold Program.next at hr
    simp only [hi, hs] at hr
    cases hr

theorem exists_of_follow {w : World} {owner name descriptor : String} {args : List Value}
    (hf : C.follow p limits ok w owner name descriptor args n = some (t, h)) :
    ∃ s, p.enter limits w [] owner name descriptor args = .running s ∧ ok s = true ∧
      C.trace p limits ok n s C.start = some (t, h) := by
  unfold follow at hf
  split at hf
  · rename_i s hs
    split at hf
    · rename_i hok
      exact ⟨s, hs, hok, hf⟩
    · cases hf
  · cases hf

theorem follow_of_trace {w : World} {owner name descriptor : String} {args : List Value}
    (hs : p.enter limits w [] owner name descriptor args = .running s) (hok : ok s = true)
    (ht : C.trace p limits ok n s C.start = some (t, h)) :
    C.follow p limits ok w owner name descriptor args n = some (t, h) := by
  unfold follow
  simp only [hs, hok, if_true]
  exact ht

/-- What a run comes to, with the number of its steps. -/
theorem Eventually.trace {Goal : RunState → H → Prop} {Done : RunResult → H → Prop}
    (hs : C.Eventually p limits Goal Done s h) :
    ∃ n t h', C.trace p limits (fun _ => true) n s h = some (t, h') ∧
      (Goal t h' ∨ ∃ r, p.next limits t = .ended r ∧ Done r h') := by
  induction hs with
  | @here s h hgoal => exact ⟨0, s, h, rfl, .inl hgoal⟩
  | @step s t h i hi ht _ ih =>
    obtain ⟨n, u, h', hu, hgoal⟩ := ih
    exact ⟨n + 1, u, h', (trace_succ hi ht rfl).trans hu, hgoal⟩
  | @ended s h i r hi hr hdone =>
    refine ⟨0, s, h, rfl, .inr ⟨r, ?_, hdone⟩⟩
    unfold Program.next
    rw [hi]
    exact hr
  | @fell s h hi hdone =>
    refine ⟨0, s, h, rfl, .inr ⟨_, ?_, hdone⟩⟩
    unfold Program.next
    rw [hi]

end Chronicle

/-- Branches are only added. -/
theorem suffix_branches_after (i : Insn) (b : Bench) (hist : List Branch) :
    hist <:+ branches.after i b hist := by
  unfold branches
  simp only
  split
  · exact List.suffix_append _ _
  · exact List.suffix_refl _

theorem suffix_of_trace {p : Program} {limits : MachineSettings} {ok : RunState → Bool} {n : Nat}
    {s t : RunState} {hist hist' : List Branch}
    (ht : branches.trace p limits ok n s hist = some (t, hist')) : hist <:+ hist' := by
  induction n generalizing s hist with
  | zero =>
    obtain ⟨-, rfl⟩ := Prod.mk.inj (Option.some.inj ht)
    exact List.suffix_refl _
  | succ n ih =>
    obtain ⟨i, u, -, -, -, ht⟩ := Chronicle.exists_of_trace_succ ht
    exact (suffix_branches_after i s.bench hist).trans (ih ht)

/-- A step adds its branch. -/
theorem branches_after_step {p : Program} {limits : MachineSettings} {s t : RunState} {i : Insn}
    (ht : p.step limits s i = .running t) (hist : List Branch) :
    branches.after i s.bench hist = i.branchesOf (s.outcome false i) ++ hist := by
  rw [Program.step_eq] at ht
  rcases hout : s.outcome false i with ⟨r, b⟩
  rw [hout] at ht
  cases r with
  | error e => cases ht
  | ok r =>
    unfold RunState.outcome at hout
    rw [Work.performAs_false] at hout
    exact branches_after hist hout

/-! ## 2. States that are alike -/

/-- The next instruction compares two references that are different copies of one string. -/
def RunState.comparesCopies (s : RunState) : Bool :=
  (s.insn?.bind Insn.comparison?).isSome && s.bench.onCopies

/-- A state of the original and one of the woven program that are the same, but for the names of
objects and what is known of origins. -/
def RunState.Alike (known : Nat → Prop) (R : Renaming) (p : Program) (s s' : RunState) : Prop :=
  ∃ R' s₁, R.Grows R' ∧ s.Renamed R' s₁ ∧ s₁.Pair known False p s'

variable {known : Nat → Prop} {R : Renaming} {p p' : Program} {limits : MachineSettings}
  {s s' t : RunState} {i : Insn} {hist : List Branch}

/-- The original does no hook. -/
theorem RunState.Pair.not_hook {interned : Prop} (h : s.Pair known interned p s')
    (hi : s.insn? = some i) : ∀ hk, i ≠ .hook hk := by
  obtain ⟨w, a, callers⟩ := s
  obtain ⟨w', a', callers'⟩ := s'
  obtain ⟨-, ha, -⟩ := h
  cases ha with
  | @same m pc L S hm _ _ =>
    rintro hk rfl
    exact hm hk (List.mem_of_getElem? ((Routine.insns_getElem? m pc).symm.trans hi))
  | @woven v k pc pending L L' S _ _ _ _ _ _ hreach =>
    have hinsn : v.method.insns[k]? = some i := (Routine.insns_getElem? v.method k).symm.trans hi
    obtain ⟨f, hf, -⟩ := hreach i hinsn
    exact v.analysed.not_hook hinsn hf

/-- A literal stands for a string. -/
theorem World.Renamed.string {w w' : World} (h : w.Renamed R w') {text : String} {o' : ObjectId}
    (ho' : w'.literals.lookup text = some o') : ∃ chars, w'.heap.object o' = .string chars := by
  have hrel := h.literals text
  rw [ho'] at hrel
  generalize w.literals.lookup text = u at hrel
  cases hrel with
  | some ho =>
    obtain ⟨chars, hchars⟩ := Option.isSome_iff_exists.mp ho.2
    have hobject := (h.heap.chars ho.1).trans hchars
    refine ⟨chars, ?_⟩
    generalize w'.heap.object o' = x at hobject
    cases x with
    | string chars' => exact congrArg HeapObject.string (Option.some.inj hobject)
    | array _ _ | «instance» _ _ => cases hobject

/-- Failures of one kind are too deep together. -/
theorem RunResult.TooDeep.of_kind {r r' : RunResult} (h : r'.TooDeep)
    (hboth : Both (fun _ _ => True) r.outcome r'.outcome) : r.TooDeep := by
  obtain ⟨n, hn⟩ := h
  obtain ⟨outcome, w⟩ := r
  obtain ⟨outcome', w'⟩ := r'
  obtain rfl : outcome' = .error (.callDepthExceeded n) := hn
  cases hboth with
  | @failed e _ hkind =>
    cases e with
    | callDepthExceeded limit => exact ⟨limit, rfl⟩
    | _ => simp [RunError.kind] at hkind

/-- **A step of the original is followed** by the woven program, unless that comes to compare
copies, or the step is a call that is too deep. -/
theorem RunState.Alike.step (hp : p.Pair False p') (himpartial : p.Impartial R)
    (h : s.Alike known R p s') (hi : s.insn? = some i) (hs : s.world.onlyLiterals = true)
    (ht : ∀ t, p.step limits s i = .running t → t.world.onlyLiterals = true) (hist : List Branch) :
    branches.Eventually p' limits
      (fun t' h' =>
        (∃ t, p.step limits s i = .running t ∧ t.Alike known R p t' ∧
          h' = i.branchesOf (s.outcome false i) ++ hist) ∨
        (h' = hist ∧ t'.comparesCopies = true) ∨ ∃ r, p.step limits s i = .ended r ∧ r.TooDeep)
      (fun _ h' => h' = hist ∧ ∃ r, p.step limits s i = .ended r) s' hist := by
  obtain ⟨R₁, s₁, hR, hrenamed, hpair⟩ := h
  have hi₁ : s₁.insn? = some i := hrenamed.insn.trans hi
  have hproceed {byText : Bool}
      (hcopies : byText = false → i.comparison?.isSome → s₁.bench.onCopies = false) :=
    proceed_renamed (himpartial.grow hR) limits hrenamed (hpair.not_hook hi₁)
    (fun _ => hs) hcopies ht
  refine (hpair.faces hp hi₁ fun _ text o ho => hrenamed.world.string ho).trans ?_ ?_
  · rintro t' _ ⟨rfl, byText, hfaces⟩
    by_cases hcopies : byText = false → i.comparison?.isSome → s₁.bench.onCopies = false
    · obtain ⟨hprogress, hbranches⟩ := hproceed hcopies
      have hfollowed := hfaces.followed
      unfold FollowedAs at hfollowed
      rw [hbranches] at hfollowed
      generalize p.step limits s i = x at hprogress ⊢
      generalize p.proceed limits s₁ (s₁.outcome byText i) = x₁ at hprogress hfollowed
      cases hprogress with
      | @running t t₁ R₂ hR₂ hrenamed =>
        refine Chronicle.Eventually.trans (Chronicle.Soon.eventually hfollowed) ?_
          fun _ _ h => h.elim
        rintro u' h' ⟨rfl, t₂, -, hcopied, hpair⟩
        obtain ⟨R₃, hR₃, hrenamed⟩ := hrenamed.copied hcopied
        exact .here (.inl ⟨t, rfl, ⟨R₃, t₂, (hR.trans hR₂).trans hR₃, hrenamed, hpair⟩, rfl⟩)
      | @ended r r₁ hboth =>
        rcases hfollowed with hdeep | hfollowed
        · exact .here (.inr (.inr ⟨r, rfl, hdeep.of_kind hboth⟩))
        · exact (hfollowed.mono (fun _ _ h => h.elim) fun _ _ h => ⟨h.1, r, rfl⟩).eventually
    · -- the comparison was left alone, and sees what the original with copies sees
      simp only [Classical.not_imp, Bool.not_eq_false] at hcopies
      obtain ⟨hbyText, hcompares, hcopies⟩ := hcopies
      obtain ⟨hinsn, hheap, hstack⟩ := hfaces.alone hbyText hcompares
      refine .here (.inr (.inl ⟨rfl, ?_⟩))
      unfold RunState.comparesCopies Bench.onCopies RunState.bench at *
      simp only [hinsn, hheap, hstack, Option.bind_some, hcompares, Bool.true_and]
      exact hcopies
  · rintro r' h' ⟨rfl, hcompares, r₁, hr₁, -⟩
    refine ⟨rfl, ?_⟩
    obtain ⟨hprogress, -⟩ := @hproceed false fun _ hsome => by simp [hcompares] at hsome
    rw [← Program.step_eq, hr₁] at hprogress
    generalize p.step limits s i = x at hprogress ⊢
    cases hprogress with
    | @ended r _ _ => exact ⟨r, rfl⟩

/-! ## 3. Runs that are alike -/

/-- **The woven program catches up** with every run of the original and has taken the same branches,
unless on the way it comes to compare copies. -/
theorem RunState.Alike.trace (hp : p.Pair False p') (himpartial : p.Impartial R) {n : Nat}
    {hist₁ : List Branch} : ∀ {s s' : RunState} {hist : List Branch}, s.Alike known R p s' →
    s.world.onlyLiterals = true →
    branches.trace p limits (·.world.onlyLiterals) n s hist = some (t, hist₁) →
    ∃ m t' hist', branches.trace p' limits (fun _ => true) m s' hist = some (t', hist') ∧
      ((hist' = hist₁ ∧ t.world.onlyLiterals = true ∧ t.Alike known R p t') ∨
        (hist' <:+ hist₁ ∧ t'.comparesCopies = true)) := by
  induction n with
  | zero =>
    intro s s' hist h hs ht
    obtain ⟨rfl, rfl⟩ := Prod.mk.inj (Option.some.inj ht)
    exact ⟨0, s', hist, rfl, .inl ⟨rfl, hs, h⟩⟩
  | succ n ih =>
    intro s s' hist h hs ht
    obtain ⟨i, u, hi, hu, hok, ht⟩ := Chronicle.exists_of_trace_succ ht
    have hnext : ∀ t, p.step limits s i = .running t → t.world.onlyLiterals = true := by
      intro t ht
      obtain rfl := Progress.running.inj (hu.symm.trans ht)
      exact hok
    obtain ⟨m, t', hist', hm, hgoal⟩ := (h.step hp himpartial hi hs hnext hist).trace
    rw [branches_after_step hu] at ht
    rcases hgoal with (⟨u₁, hu₁, halike, rfl⟩ | ⟨rfl, hcopies⟩ | ⟨r, hr, -⟩) | ⟨_, -, -, r, hr⟩
    · obtain rfl := Progress.running.inj (hu.symm.trans hu₁)
      obtain ⟨m', t'', hist'', hm', hcase⟩ := ih halike hok ht
      exact ⟨m + m', t'', hist'', (Chronicle.trace_add hm m').trans hm', hcase⟩
    · refine ⟨m, t', hist', hm, .inr ⟨?_, hcopies⟩⟩
      exact (List.suffix_append _ _).trans (suffix_of_trace ht)
    · exact absurd (hu.symm.trans hr) (by simp)
    · exact absurd (hu.symm.trans hr) (by simp)

/-- **Where the original ends**, the woven program ends and takes no more branches, unless on the
way it comes to compare copies, or the original called too deep. -/
theorem RunState.Alike.ends (hp : p.Pair False p') (himpartial : p.Impartial R)
    (h : s.Alike known R p s') (hs : s.world.onlyLiterals = true) {r : RunResult}
    (hr : p.next limits s = .ended r) (hist : List Branch) :
    r.TooDeep ∨ ∃ m t', branches.trace p' limits (fun _ => true) m s' hist = some (t', hist) ∧
      (t'.comparesCopies = true ∨ ∃ r', p'.next limits t' = .ended r') := by
  unfold Program.next at hr
  cases hi : s.insn? with
  | none =>
    obtain ⟨R₁, s₁, -, hrenamed, hpair⟩ := h
    obtain ⟨m, t', hist', hm, hgoal⟩ :=
      (follow_end p' limits hpair (hrenamed.insn.trans hi) hist).eventually.trace
    rcases hgoal with hfalse | ⟨r', hr', rfl, -⟩
    · exact hfalse.elim
    · exact .inr ⟨m, t', hm, .inr ⟨r', hr'⟩⟩
  | some i =>
    simp only [hi] at hr
    have hnext : ∀ t, p.step limits s i = .running t → t.world.onlyLiterals = true :=
      fun t ht => absurd (hr.symm.trans ht) (by simp)
    obtain ⟨m, t', hist', hm, hgoal⟩ := (h.step hp himpartial hi hs hnext hist).trace
    rcases hgoal with (⟨u, hu, -⟩ | ⟨rfl, hcopies⟩ | ⟨r', hr', hdeep⟩) | ⟨r', hr', rfl, -⟩
    · exact absurd (hr.symm.trans hu) (by simp)
    · exact .inr ⟨m, t', hm, .inl hcopies⟩
    · exact .inl (Progress.ended.inj (hr.symm.trans hr') ▸ hdeep)
    · exact .inr ⟨m, t', hm, .inr ⟨r', hr'⟩⟩

/-- **Two runs that are alike**, as far as each of them was followed: all branches that the woven
program took the original took, or the woven program went further, as the original may, or it came
to compare copies. -/
theorem RunState.Alike.agrees (hp : p.Pair False p') (himpartial : p.Impartial R)
    (h : s.Alike known R p s') (hs : s.world.onlyLiterals = true) {n n' : Nat} {t' : RunState}
    {hist₁ hist₂ : List Branch}
    (ht : branches.trace p limits (·.world.onlyLiterals) n s hist = some (t, hist₁))
    (ht' : branches.trace p' limits (fun _ => true) n' s' hist = some (t', hist₂)) :
    hist₂ <:+ hist₁ ∨ (hist₁ <:+ hist₂ ∧ ∀ r, p.next limits t = .ended r → r.TooDeep) ∨
      ∃ m u earlier, m ≤ n' ∧
      branches.trace p' limits (fun _ => true) m s' hist = some (u, earlier) ∧
        earlier <:+ hist₁ ∧ u.comparesCopies = true := by
  -- a place in the run of the woven program that its first steps did not go past
  have hbefore {m k : Nat} {a u : RunState} {h₀ h₁ h₂ : List Branch} (hle : k ≤ m)
      (hm : branches.trace p' limits (fun _ => true) m a h₀ = some (u, h₁))
      (hk : branches.trace p' limits (fun _ => true) k a h₀ = some (t', h₂)) : h₂ <:+ h₁ := by
    obtain ⟨_, _, hk', hrest⟩ := Chronicle.exists_of_trace hm hle
    obtain ⟨-, rfl⟩ := Prod.mk.inj (Option.some.inj (hk'.symm.trans hk))
    exact suffix_of_trace hrest
  obtain ⟨m, u, earlier, hm, hcase⟩ := h.trace hp himpartial hs ht
  rcases Nat.le_total n' m with hle | hle
  · refine .inl ((hbefore hle hm ht').trans ?_)
    rcases hcase with ⟨rfl, -⟩ | ⟨hsuffix, -⟩
    · exact List.suffix_refl _
    · exact hsuffix
  · rcases hcase with ⟨rfl, hliterals, halike⟩ | ⟨hsuffix, hcopies⟩
    · have hrest : branches.trace p' limits (fun _ => true) (n' - m) u earlier =
          some (t', hist₂) := by
        rw [← Chronicle.trace_add hm, Nat.add_sub_cancel' hle]
        exact ht'
      by_cases hdeep : ∀ r, p.next limits t = .ended r → r.TooDeep
      · exact .inr (.inl ⟨suffix_of_trace hrest, hdeep⟩)
      · simp only [not_forall] at hdeep
        obtain ⟨r, hr, hdeep⟩ := hdeep
        obtain ⟨m', u', hm', hend⟩ :=
          (halike.ends hp himpartial hliterals hr earlier).resolve_left hdeep
        rcases Nat.lt_or_ge m' (n' - m) with hlt | hle'
        · rcases hend with hcopies | ⟨r', hr'⟩
          · refine .inr (.inr ⟨m + m', u', earlier, by omega, ?_, List.suffix_refl _, hcopies⟩)
            exact (Chronicle.trace_add hm m').trans hm'
          · obtain ⟨k, hk⟩ := Nat.exists_eq_add_of_lt hlt
            rw [hk, Nat.add_assoc, Chronicle.trace_add hm', Chronicle.trace_ended hr'] at hrest
            cases hrest
        · exact .inl (hbefore hle' hm' hrest)
    · exact .inr (.inr ⟨m, u, earlier, hle, hm, hsuffix, hcopies⟩)

/-! ## 4. Invocations that are alike -/

/-- Two worlds that hold the same under a renaming.  Both know the known records, by the same
signatures. -/
structure World.Resembles (known : Nat → Prop) (R : Renaming) (w w' : World) : Prop where
  heap : w.heap.Renamed R w'.heap
  literals : ∀ text, Option.Rel (fun o o' => R.rel o o' ∧ (R.text o).isSome)
    (w.literals.lookup text) (w'.literals.lookup text)
  within : w'.heap.Within known
  records : ∀ id, known id → ∃ r r', w.store.record? id = some r ∧ w'.store.record? id = some r' ∧
    r'.signature = r.signature

/-- The objects of a heap under their own names. -/
def Heap.names (h : Heap) : Renaming where
  rel o o' := o' = o ∧ (h.objects.get? o).isSome
  text o := (h.object o).chars?
  unique h₁ h₂ := h₁.1.symm.trans h₂.1
  apart h₁ h₂ := .inl (h₁.1.trans h₂.1.symm)

/-- All references in a heap are to objects of it. -/
def Heap.Closed (h : Heap) : Prop :=
  ∀ o, ∀ v ∈ (h.object o).contents, ∀ a, v.object? = some a → (h.objects.get? a).isSome

theorem Value.renamed_names {h : Heap} {v : Value}
    (hv : ∀ a, v.object? = some a → (h.objects.get? a).isSome) : Value.Renamed h.names v v := by
  cases v with
  | ref o => exact .ref ⟨rfl, hv o rfl⟩
  | _ => exact .same rfl

/-- A heap without dangling references holds the same as itself. -/
theorem Heap.Closed.renamed {h : Heap} (hclosed : h.Closed) : h.Renamed h.names h where
  present := by
    rintro _ o ⟨rfl, ho⟩
    exact ⟨ho, ho⟩
  object := by
    rintro _ o ⟨rfl, -⟩
    have hcontents := hclosed o
    generalize h.object o = x at hcontents
    cases x with
    | array elem values =>
      exact .array (List.forall₂_same.mpr fun v hv => Value.renamed_names (hcontents v hv))
    | string chars => exact .string chars
    | «instance» className fields =>
      exact .instance (List.forall₂_same.mpr fun e he =>
        ⟨rfl, Value.renamed_names (hcontents e.2 (List.mem_map_of_mem he))⟩)
  text := fun _ => rfl

/-- **Worlds that are the same** resemble each other, unless references dangle or literals stand for
other objects than strings. -/
theorem World.Same.resembles {w w' : World} (h : World.Same known w w') (hclosed : w.heap.Closed)
    (hliterals : ∀ text o, w.literals.lookup text = some o → (w.heap.object o).chars?.isSome) :
    w.Resembles known w.heap.names w' where
  heap := h.heap ▸ hclosed.renamed
  literals := fun text => by
    rw [h.literals]
    cases ho : w.literals.lookup text with
    | none => exact .none
    | some o =>
      have hstring := hliterals text o ho
      refine .some ⟨⟨rfl, ?_⟩, hstring⟩
      cases hget : w.heap.objects.get? o with
      | some x => rfl
      | none =>
        unfold Heap.object at hstring
        rw [hget] at hstring
        cases hstring
  within := h.heap ▸ h.within
  records := h.records

namespace World.Resembles

variable {w w' : World}

/-- The woven program's world as the original would see it. -/
theorem renamed (h : w.Resembles known R w') : w.Renamed R { w' with store := w.store } :=
  ⟨h.heap, h.literals, rfl⟩

theorem same (h : w.Resembles known R w') : World.Same known { w' with store := w.store } w' :=
  ⟨rfl, rfl, h.within, h.records⟩

/-- **Invocations** in worlds that resemble each other start alike. -/
theorem alike (h : w.Resembles known R w') (hp : p.Pair False p') (himpartial : p.Impartial R)
    {owner name descriptor : String} {args args' : List Value}
    (hargs : List.Forall₂ (Value.Renamed R) args args') (hknown : ∀ x ∈ args', x.Within known)
    (hs : p.enter limits w [] owner name descriptor args = .running s)
    (hs' : p'.enter limits w' [] owner name descriptor args' = .running s') :
    s.Alike known R p s' := by
  have hrenamed := enter_renamed himpartial limits h.renamed .nil owner name descriptor hargs
  have hpair := enter_pair hp limits h.same .nil owner name descriptor hknown
  rw [hs] at hrenamed
  rw [hs'] at hpair
  generalize p.enter limits { w' with store := w.store } [] owner name descriptor args' = x
    at hrenamed hpair
  cases hrenamed with
  | running hR hrenamed =>
    cases hpair with
    | running hpair => exact ⟨_, _, hR, hrenamed, hpair⟩

end World.Resembles

/-! ## 5. Woven classes -/

theorem RunState.comparison_of_comparesCopies (h : s.comparesCopies = true) :
    ∃ i, s.insn? = some i ∧ i.comparison?.isSome := by
  unfold comparesCopies at h
  cases hi : s.insn? with
  | none => simp [hi] at h
  | some i =>
    simp only [hi, Option.bind_some, Bool.and_eq_true] at h
    exact ⟨i, rfl, h.1⟩

/-- **Copies of literals are told apart** only by comparisons that weaving left alone.  An
invocation on woven classes takes the branches that it takes on their sources, as long as there all
strings are instances of literals: it has taken no others, or went further where the one on the
sources was not followed to its end or called too deep, or it came to a comparison of different
copies of one string that was left alone, before which it had taken no others. -/
theorem Weavable.branches_agree {natives : List (String × Native)} {xs : List Weaving}
    (h : Weavable natives xs) (himpartial : ∀ e ∈ natives, e.2.Impartial)
    (hheld : ∀ e ∈ natives, ∀ v ∈ e.2.held, Value.Renamed R v v) (limits : MachineSettings)
    {w w' : World} (hw : w.Resembles known R w') (owner name descriptor : String)
    {args args' : List Value} (hargs : List.Forall₂ (Value.Renamed R) args args')
    (hknown : ∀ x ∈ args', x.Within known) {n n' : Nat} {s s' : RunState} {hist hist' : List Branch}
    (hplain : branches.follow (Program.ofClasses natives (xs.map Weaving.source)) limits
      (·.world.onlyLiterals) w owner name descriptor args n = some (s, hist))
    (hwoven : branches.follow (Program.ofClasses natives (xs.map Weaving.result)) limits
      (fun _ => true) w' owner name descriptor args' n' = some (s', hist')) :
    hist' <:+ hist ∨
    (hist <:+ hist' ∧
      ∀ r, (Program.ofClasses natives (xs.map Weaving.source)).next limits s = .ended r →
      r.TooDeep) ∨
    ∃ m t earlier, m ≤ n' ∧
      branches.follow (Program.ofClasses natives (xs.map Weaving.result)) limits (fun _ => true) w'
        owner name descriptor args' m = some (t, earlier) ∧
      earlier <:+ hist ∧ t.comparesCopies = true ∧
      ∃ x ∈ xs, ∃ m' ∈ x.result.methods,
        t.current.routine = .ofMethod m' ∧ x.LeavesAlone m' t.current.pc := by
  have hp := h.pair fun hfalse : False => hfalse.elim
  have hprogram : (Program.ofClasses natives (xs.map Weaving.source)).Impartial R := by
    refine ⟨?_, ?_⟩
    · rw [Program.ofClasses_natives]
      exact himpartial
    · rw [Program.ofClasses_natives]
      exact hheld
  have hmethods : ∀ owner name descriptor r,
      (Program.ofClasses natives (xs.map Weaving.result)).routine? owner name descriptor = some r →
      ∃ x ∈ xs, ∃ m' ∈ x.result.methods, r = .ofMethod m' := by
    intro owner name descriptor r hr
    obtain ⟨c, hc, -, m', hm', hr, -⟩ := Program.exists_of_routine hr
    obtain ⟨x, hx, rfl⟩ := List.mem_map.mp hc
    exact ⟨x, hx, m', hm', hr⟩
  obtain ⟨s₀, hs₀, hliterals, htrace⟩ := Chronicle.exists_of_follow hplain
  obtain ⟨s₀', hs₀', -, htrace'⟩ := Chronicle.exists_of_follow hwoven
  have halike := hw.alike hp hprogram hargs hknown hs₀ hs₀'
  rcases halike.agrees hp hprogram hliterals htrace htrace' with
    hless | hmore | ⟨m, t, earlier, hle, hm, hsuffix, hcopies⟩
  · exact .inl hless
  · exact .inr (.inl hmore)
  · have hfollow := Chronicle.follow_of_trace hs₀' rfl hm
    refine .inr (.inr ⟨m, t, earlier, hle, hfollow, hsuffix, hcopies, ?_⟩)
    obtain ⟨⟨x, hx, m', hm', hroutine⟩, -⟩ := (Chronicle.run_of_follow hfollow).routines hmethods
    refine ⟨x, hx, m', hm', hroutine, ?_⟩
    obtain ⟨i, hi, hcompares⟩ := RunState.comparison_of_comparesCopies hcopies
    rw [RunState.insn?, hroutine, Routine.insns_getElem?] at hi
    exact x.leavesAlone hm' hi hcompares

/-- The weaver of the default settings. -/
def byDefault : Weaver :=
  ⟨.default, ⟨ClassFilter.recommended ++ [⟨true, .leading []⟩]⟩,
    ⟨ClassFilter.recommended ++ [⟨true, .leading []⟩]⟩⟩

def kw : Insn := .const (.str "kw")

/-- Compares the two references on the stack. -/
def comparison : List Insn :=
  [.ifRefNe 1, .const (.int 1), .ret .boolean, .label 1, .const (.int 0), .ret .boolean]

/-- Hands a literal twice to a method that compares its parameters, which are of that type. -/
def comparingParameters (t : Ty) : Weaving :=
  ⟨byDefault, .empty .default, ⟨"demo/Names",
    [⟨"demo/Names", "same", ⟨[t, t], .boolean⟩, true, 2, 0, [.load 0, .load 1] ++ comparison⟩,
      ⟨"demo/Names", "run", ⟨[], .boolean⟩, true, 0, 0,
        [kw, kw, .invoke ⟨.static, "demo/Names", "same", ⟨[t, t], .boolean⟩⟩, .ret .boolean]⟩]⟩⟩

/-- The branches of invocations on the classes and on their woven forms, each after some steps. -/
def branchesOf (natives : List (String × Native)) (xs : List Weaving) (limits : MachineSettings)
    (owner : String) (n n' : Nat) : Option (List Branch) × Option (List Branch) :=
  ((branches.follow (Program.ofClasses natives (xs.map Weaving.source)) limits
    (·.world.onlyLiterals)
      (.empty .default) owner "run" "()Z" [] n).map Prod.snd,
    (branches.follow (Program.ofClasses natives (xs.map Weaving.result)) limits (fun _ => true)
      (.empty .default) owner "run" "()Z" [] n').map Prod.snd)

theorem comparingObjects_weavable :
    Weavable Native.builtIn [comparingParameters (.object Ty.objectClass)] where
  hooks := by simp [comparingParameters, comparison, kw]
  calls := by
    have hown : (⟨.static, "demo/Names", "same",
        ⟨[.object Ty.objectClass, .object Ty.objectClass], .boolean⟩⟩ : MethodRef).Usual :=
      ⟨by decide, by decide, by decide⟩
    simpa [comparingParameters, comparison, kw] using hown
  overridden := by decide +kernel
  builtIn := Native.lookup_builtIn
  blind := Native.builtIn_blind

/-- Strings are compared as strings. -/
example : branchesOf Native.builtIn [comparingParameters (.object Ty.stringClass)] .default
    "demo/Names" 6 9 = (some [⟨1, false⟩], some [⟨1, false⟩]) := by decide +kernel

/-- Where the operands are not seen to be strings, the copies are told apart. -/
theorem comparingObjects_copies :
    ∃ m t earlier, m ≤ 8 ∧ branches.follow (Program.ofClasses Native.builtIn
        ([comparingParameters (.object Ty.objectClass)].map Weaving.result)) .default
          (fun _ => true)
        (.empty .default) "demo/Names" "run" "()Z" [] m = some (t, earlier) ∧
      t.comparesCopies = true ∧
      ∃ m' ∈ (comparingParameters (.object Ty.objectClass)).result.methods,
        t.current.routine = .ofMethod m' ∧
          (comparingParameters (.object Ty.objectClass)).LeavesAlone m' t.current.pc := by
  have hbranches : branchesOf Native.builtIn [comparingParameters (.object Ty.objectClass)] .default
      "demo/Names" 6 8 = (some [⟨1, false⟩], some [⟨1, true⟩]) := by decide +kernel
  obtain ⟨hplain, hwoven⟩ := Prod.mk.inj hbranches
  obtain ⟨⟨s, hist⟩, hplain, hhist⟩ := Option.map_eq_some_iff.mp hplain
  obtain ⟨⟨s', hist'⟩, hwoven, hhist'⟩ := Option.map_eq_some_iff.mp hwoven
  obtain rfl : hist = [⟨1, false⟩] := hhist
  obtain rfl : hist' = [⟨1, true⟩] := hhist'
  have hworld : World.Same (fun _ => False) (.empty .default) (.empty .default) :=
    ⟨rfl, rfl, Heap.within_empty _, fun _ h => h.elim⟩
  have hresembles := hworld.resembles
    (by simp [Heap.Closed, Heap.object, World.empty, Heap.empty, HeapObject.contents])
    (by simp [World.empty])
  rcases comparingObjects_weavable.branches_agree Native.builtIn_impartial
      (by simp [Native.builtIn]) .default hresembles "demo/Names" "run" "()Z" .nil (by simp)
      hplain hwoven with
    hless | ⟨hmore, -⟩ | ⟨m, t, earlier, hm, hfollow, -, hcopies, x, hx, halone⟩
  · exact absurd hless (by decide)
  · exact absurd hmore (by decide)
  · obtain rfl := List.mem_singleton.mp hx
    exact ⟨m, t, earlier, hm, hfollow, hcopies, halone⟩

/-- Compares what that code leaves on the stack. -/
def comparingAfter (name : String) (code : List Insn) : Weaving :=
  ⟨byDefault, .empty .default,
    ⟨name, [⟨name, "run", ⟨[], .boolean⟩, true, 0, 0, code ++ comparison⟩]⟩⟩

/-- A call of a native that picks an object. -/
def pick (t : Ty) : MethodRef :=
  ⟨.static, "demo/Objects", "pick", ⟨[.object Ty.objectClass, t], .object Ty.objectClass⟩⟩

/-- Gives its first argument back if both are the same. -/
def pickingSame : String × Native :=
  (methodKey "demo/Objects" "pick" (pick (.object Ty.objectClass)).desc.descriptor,
    ⟨fun c => do
      let a ← c.arg 0
      let b ← c.arg 1
      let same ← .inspect fun w => w.heap.sameReference a b
      return some (if same then a else .null), []⟩)

/-- Gives its first argument back if no call record was handed over. -/
def pickingUnrecorded : String × Native :=
  (methodKey "demo/Objects" "pick" (pick .char).desc.descriptor,
    ⟨fun c => do
      let a ← c.arg 0
      return some (if c.record.isNone then a else .null), []⟩)

/-- A clone of a new array. -/
def cloning (kind : InvokeKind) : List Insn :=
  [.const (.int 1), .newArray .char, .invoke ⟨kind, "[C", "clone", ⟨[], .object Ty.objectClass⟩⟩]

/-- Clones an array of characters by giving a literal back. -/
def overridingClone : Weaving :=
  ⟨byDefault, .empty .default,
    ⟨"[C",
      [⟨"[C", "clone", ⟨[], .object Ty.objectClass⟩, false, 1, 0,
        [kw, .ret (.object Ty.objectClass)]⟩]⟩⟩

/-- **Comparisons of literals can be told** from those of copies, with the default settings. -/
theorem comparingLiterals_apart :
    Weaver.ofSettings .default = .ok byDefault ∧
      -- the operands are not seen to be strings
      branchesOf Native.builtIn [comparingParameters (.object Ty.objectClass)] .default
        "demo/Names" 6 8 = (some [⟨1, false⟩], some [⟨1, true⟩]) ∧
      -- the class keeps identity comparisons
      branchesOf Native.builtIn [comparingAfter "java/lang/Names" [kw, kw]] .default
        "java/lang/Names" 3 5 = (some [⟨1, false⟩], some [⟨1, true⟩]) ∧
      -- a native tells copies apart
      branchesOf (pickingSame :: Native.builtIn)
        [comparingAfter "demo/Names" [kw, kw, .invoke (pick (.object Ty.objectClass)),
          .const .null]]
        .default "demo/Names" 5 7 = (some [⟨1, true⟩], some [⟨1, false⟩]) ∧
      -- a native looks at call records
      branchesOf (pickingUnrecorded :: Native.builtIn)
        [comparingAfter "demo/Names" [kw, .const (.int 65), .invoke (pick .char), .const .null]]
        .default "demo/Names" 5 11 = (some [⟨1, true⟩], some [⟨1, false⟩]) ∧
      -- a class overrides a built-in native
      branchesOf Native.builtIn
        [comparingAfter "demo/Names" (cloning .virtual ++ [kw]), overridingClone]
        .default "demo/Names" 7 7 = (some [⟨1, false⟩], some [⟨1, true⟩]) ∧
      -- a built-in native is called without a receiver, and fails; what replaces it does not
      branchesOf Native.builtIn [comparingAfter "demo/Names" (cloning .static ++ [.pop, kw, kw])]
        .default "demo/Names" 3 10 = (none, some [⟨1, false⟩]) ∧
      -- the call is too deep; what replaces it is none
      branchesOf Native.builtIn [comparingAfter "demo/Names" (cloning .virtual ++ [.pop, kw, kw])]
        ⟨1, 100⟩ "demo/Names" 3 10 = (none, some [⟨1, false⟩]) := by
  refine ⟨rfl, ?_, ?_, ?_, ?_, ?_, ?_, ?_⟩ <;> decide +kernel

end Provenance
