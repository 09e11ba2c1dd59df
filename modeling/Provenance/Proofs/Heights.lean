/-
# What the search for stack heights finds

`stackHeights` goes through a method once.  What it finds fits together (`Fits`): the first
instruction stands at height zero, every instruction that has a height has its operands and its
local, and wherever it goes on has the height that it leaves (`stackHeights_fits`).

The search is also complete: if heights fit at all, it finds them and reports no depth beyond theirs
(`requiredStack_of_fits`).
-/
import Mathlib.Data.List.Nodup
import Provenance.Flow.Height
import Provenance.Proofs.Edges

namespace Provenance

/-! ## 1. Edges, both ways -/

namespace FlowGraph.Describes

variable {g : FlowGraph} {m : Method}

/-- **An edge** is falling through or a jump. -/
theorem mem_next (h : g.Describes m) {k t : Nat} {i : Insn} (hk : m.insns[k]? = some i)
    (ht : t ∈ FlowGraph.next g.successors k) :
    (i.fallsThrough = true ∧ t = k + 1) ∨ ∃ l, i.jumpTarget? = some l ∧ m.labelAt? l = some t := by
  have hfollow : t ∈ (if i.fallsThrough ∧ k + 1 < m.insns.length then [k + 1] else []) →
      i.fallsThrough = true ∧ t = k + 1 := fun h => by
    split at h
    · rename_i hc
      exact ⟨hc.1, List.mem_singleton.mp h⟩
    · exact absurd h List.not_mem_nil
  have hs := h.successorsOf hk
  unfold FlowGraph.successorsOf at hs
  cases hj : i.jumpTarget? with
  | none =>
    simp only [hj, Except.ok.injEq] at hs
    exact .inl (hfollow (hs ▸ ht))
  | some l =>
    cases hl : m.labelAt? l with
    | none => simp [hj, hl] at hs
    | some place =>
      simp only [hj, hl, Except.ok.injEq] at hs
      rw [← hs, List.mem_cons] at ht
      rcases ht with rfl | ht
      · exact .inr ⟨l, rfl, hl⟩
      · exact .inl (hfollow (List.mem_filter.mp ht).1)

/-- No edge is there twice. -/
theorem nodup_next (h : g.Describes m) (k : Nat) : (FlowGraph.next g.successors k).Nodup := by
  cases hk : m.insns[k]? with
  | none =>
    have hlen := FlowGraph.edgesFrom_length h.edges
    rw [List.getElem?_eq_none_iff] at hk
    simp [FlowGraph.next, List.getElem?_eq_none (hlen ▸ hk)]
  | some i =>
    have hs := h.successorsOf hk
    have hfollow : (if i.fallsThrough ∧ k + 1 < m.insns.length then [k + 1] else []).Nodup := by
      split <;> simp
    unfold FlowGraph.successorsOf at hs
    cases hj : i.jumpTarget? with
    | none =>
      simp only [hj, Except.ok.injEq] at hs
      exact hs ▸ hfollow
    | some l =>
      cases hl : m.labelAt? l with
      | none => simp [hj, hl] at hs
      | some place =>
        simp only [hj, hl, Except.ok.injEq] at hs
        rw [← hs]
        exact List.nodup_cons.mpr ⟨by simp, hfollow.filter _⟩

end FlowGraph.Describes

/-! ## 2. The instructions that are reached -/

namespace FlowGraph

variable {successors : List (List Nat)}

theorem seen_sub_explore : ∀ (fuel : Nat) (queue seen : List Nat),
    ∀ k ∈ seen, k ∈ explore successors fuel queue seen
  | 0, _, _, _, h => h
  | _ + 1, [], _, _, h => h
  | fuel + 1, _ :: _, _, k, h => by
    rw [explore]
    exact seen_sub_explore fuel _ _ k (List.mem_append_left _ h)

/-- Only what edges lead to is reached. -/
theorem explore_sub {P : Nat → Prop} (hP : ∀ k, P k → ∀ t ∈ next successors k, P t) :
    ∀ (fuel : Nat) (queue seen : List Nat), (∀ k ∈ queue, P k) → (∀ k ∈ seen, P k) →
      ∀ k ∈ explore successors fuel queue seen, P k
  | 0, _, _, _, h, k, hk => h k hk
  | _ + 1, [], _, _, h, k, hk => h k hk
  | fuel + 1, index :: queue, seen, hqueue, hseen, k, hk => by
    have hfresh : ∀ k ∈ (next successors index).filter fun j => !seen.contains j, P k :=
      fun k hk => hP index (hqueue index (by simp)) k (List.mem_filter.mp hk).1
    rw [explore] at hk
    refine explore_sub hP fuel _ _ (fun k hk => ?_) (fun k hk => ?_) k hk
    · rcases List.mem_append.mp hk with hk | hk
      · exact hqueue k (by simp [hk])
      · exact hfresh k hk
    · rcases List.mem_append.mp hk with hk | hk
      · exact hseen k hk
      · exact hfresh k hk

/-- **What is reached leads only to what is reached**, given fuel for every index that may still
enter the queue. -/
theorem explore_closed {size : Nat} (hlt : ∀ k, ∀ t ∈ next successors k, t < size)
    (hnodup : ∀ k, (next successors k).Nodup) : ∀ (fuel : Nat) (queue seen : List Nat),
    seen.Nodup → (∀ k ∈ seen, k < size) → queue.length + size ≤ fuel + seen.length →
    (∀ k ∈ seen, k ∈ queue ∨ ∀ t ∈ next successors k, t ∈ seen) →
    ∀ k ∈ explore successors fuel queue seen, ∀ t ∈ next successors k,
      t ∈ explore successors fuel queue seen
  | 0, queue, seen, hseen, hsize, hfuel, hdone => by
    have hle : seen.length ≤ (List.range size).length :=
      hseen.length_le_of_subset fun k hk => List.mem_range.mpr (hsize k hk)
    rw [List.length_range] at hle
    obtain rfl := List.length_eq_zero_iff.mp (show queue.length = 0 by omega)
    exact fun k hk => (hdone k hk).resolve_left List.not_mem_nil
  | fuel + 1, [], seen, _, _, _, hdone => by
    exact fun k hk => (hdone k hk).resolve_left List.not_mem_nil
  | fuel + 1, index :: queue, seen, hseen, hsize, hfuel, hdone => by
    rw [explore]
    have hfresh : ∀ t, t ∈ ((next successors index).filter fun j => !seen.contains j) ↔
        t ∈ next successors index ∧ t ∉ seen := fun t => by simp
    refine explore_closed hlt hnodup fuel _ _ ?_ (fun k hk => ?_) ?_ fun k hk => ?_
    · exact List.nodup_append.mpr ⟨hseen, (hnodup index).filter _, fun a ha b hb hab =>
        ((hfresh b).mp hb).2 (hab ▸ ha)⟩
    · rcases List.mem_append.mp hk with hk | hk
      · exact hsize k hk
      · exact hlt index k ((hfresh k).mp hk).1
    · simp only [List.length_cons, List.length_append] at hfuel ⊢
      omega
    · rcases List.mem_append.mp hk with hk | hk
      · rcases hdone k hk with hqueue | hnext
        · rcases List.mem_cons.mp hqueue with rfl | hqueue
          · refine .inr fun t ht => ?_
            by_cases hold : t ∈ seen
            · exact List.mem_append_left _ hold
            · exact List.mem_append_right _ ((hfresh t).mpr ⟨ht, hold⟩)
          · exact .inl (List.mem_append_left _ hqueue)
        · exact .inr fun t ht => List.mem_append_left _ (hnext t ht)
      · exact .inl (List.mem_append_right _ hk)

/-- What the graph of a method reaches is what the search found. -/
theorem ofMethod_explore {m : Method} {g : FlowGraph} (h : ofMethod m = .ok g) :
    g.reached = explore g.successors m.insns.length [0] [0] ∧
      ¬ (openEnd m && g.reached.contains (m.insns.length - 1)) = true := by
  have hg := ofMethod_describes h
  unfold ofMethod at h
  rw [if_neg (by simpa using hg.nonempty), hg.labels] at h
  simp only [hg.edges] at h
  split at h
  · exact absurd h (by simp)
  · rename_i hopen
    have hreached : g.reached = explore g.successors m.insns.length [0] [0] := by
      rw [← Except.ok.inj h]
    exact ⟨hreached, hreached ▸ hopen⟩

/-- **The graph of a method** reaches its first instruction and whatever edges lead to from there,
and no such instruction falls through past the end. -/
theorem ofMethod_reached {m : Method} {g : FlowGraph} (h : ofMethod m = .ok g) :
    0 ∈ g.reached ∧ (∀ k ∈ g.reached, ∀ t ∈ next g.successors k, t ∈ g.reached) ∧
      ∀ k ∈ g.reached, ∀ i, m.insns[k]? = some i → i.fallsThrough = true →
        k + 1 < m.insns.length := by
  have hg := ofMethod_describes h
  have hpos : 0 < m.insns.length := List.length_pos_iff.mpr hg.nonempty
  obtain ⟨hreached, hopen⟩ := ofMethod_explore h
  refine ⟨?_, ?_, fun k hk i hi hfall => ?_⟩
  · rw [hreached]
    exact seen_sub_explore _ _ _ 0 (by simp)
  · have hlt : ∀ k, ∀ t ∈ next g.successors k, t < m.insns.length := fun k t ht => hg.next_lt ht
    rw [hreached]
    exact explore_closed hlt hg.nodup_next _ _ _ (by simp) (by simpa using hpos) (by simp; omega)
      (by simp)
  · have hlt := (List.getElem?_eq_some_iff.mp hi).1
    refine Nat.lt_of_le_of_ne hlt fun hlast => hopen ?_
    have hk' : m.insns.length - 1 = k := by omega
    rw [Bool.and_eq_true, List.contains_iff_mem, hk']
    refine ⟨?_, hk⟩
    unfold openEnd
    rw [List.getLast?_eq_getElem?, hk', hi]
    exact hfall

end FlowGraph

/-! ## 3. Heights that fit together -/

/-- An instruction that stands at a height: it has its operands and its local, no height goes beyond
the depth, and wherever it goes on has the height that it leaves. -/
structure Stands (m : Method) (heights : Nat → Option Nat) (depth k : Nat) (i : Insn)
    (height : Nat) :
    Prop where
  slot : ∀ l, i.local? = some l → l < m.maxLocals
  operands : i.pops ≤ height
  before : height ≤ depth
  after : height - i.pops + i.pushes ≤ depth
  falls : i.fallsThrough = true → heights (k + 1) = some (height - i.pops + i.pushes)
  jumps : ∀ l, i.jumpTarget? = some l →
    ∃ t, m.labelAt? l = some t ∧ heights t = some (height - i.pops + i.pushes)

/-- Heights of instructions that fit together, from an empty stack at the first one. -/
structure Fits (m : Method) (heights : Nat → Option Nat) (depth : Nat) : Prop where
  first : heights 0 = some 0
  stands : ∀ k h, heights k = some h → ∃ i, m.insns[k]? = some i ∧ Stands m heights depth k i h

namespace HeightSearch

/-- The height found for an instruction. -/
def heightAt (s : HeightSearch) (k : Nat) : Option Nat := (s.heights[k]?).join

/-- How many instructions have no height yet. -/
def unassigned (s : HeightSearch) : Nat := s.heights.countP Option.isNone

theorem heightAfter_eq_ok {m : Method} {k height after : Nat} {i : Insn} :
    heightAfter m k i height = .ok after ↔ (∀ l, i.local? = some l → l < m.maxLocals) ∧
      i.pops ≤ height ∧ height - i.pops + i.pushes = after := by
  unfold heightAfter
  cases i.local? with
  | none =>
    simp only [reduceCtorEq, false_implies, implies_true, true_and]
    split
    · simp; omega
    · rename_i h
      simp [Nat.not_lt.mp h]
  | some l =>
    simp only [Option.some.injEq, forall_eq']
    split
    · simp; omega
    · rename_i hl
      split
      · simp; omega
      · rename_i h
        simp [Nat.not_lt.mp h, Nat.not_le.mp hl]

/-- What carrying a height over edges to some instructions does. -/
structure Arrived (s s' : HeightSearch) (height : Nat) (targets : List Nat) : Prop where
  kept : ∀ k h, s.heightAt k = some h → s'.heightAt k = some h
  here : ∀ t ∈ targets, s'.heightAt t = some height
  fresh : ∀ k h, s'.heightAt k = some h → s.heightAt k = some h ∨ (k ∈ targets ∧ k ∈ s'.queue)
  queue : ∀ k ∈ s.queue, k ∈ s'.queue
  queued : ∀ k ∈ s'.queue, k ∈ s.queue ∨ k ∈ targets
  deepest : s'.deepest = s.deepest
  size : s'.heights.length = s.heights.length
  fuel : s'.queue.length + s'.unassigned = s.queue.length + s.unassigned

theorem Arrived.refl (s : HeightSearch) (height : Nat) : Arrived s s height [] :=
  ⟨fun _ _ h => h, by simp, fun _ _ h => .inl h, fun _ h => h, fun _ h => .inl h, rfl, rfl, rfl⟩

/-- Arriving at one instruction and then at others. -/
theorem Arrived.cons {s s' s'' : HeightSearch} {height t : Nat} {targets : List Nat}
    (h : Arrived s s' height [t]) (h' : Arrived s' s'' height targets) :
    Arrived s s'' height (t :: targets) where
  kept k x hk := h'.kept k x (h.kept k x hk)
  here u hu := by
    rcases List.mem_cons.mp hu with rfl | hu
    · exact h'.kept _ _ (h.here _ (by simp))
    · exact h'.here u hu
  fresh k x hk := by
    rcases h'.fresh k x hk with hk | ⟨hk, hqueue⟩
    · rcases h.fresh k x hk with hk | ⟨hk, hqueue⟩
      · exact .inl hk
      · exact .inr ⟨by simpa using .inl (List.mem_singleton.mp hk), h'.queue k hqueue⟩
    · exact .inr ⟨by simp [hk], hqueue⟩
  queue k hk := h'.queue k (h.queue k hk)
  queued k hk := by
    rcases h'.queued k hk with hk | hk
    · rcases h.queued k hk with hk | hk
      · exact .inl hk
      · exact .inr (by simpa using .inl (List.mem_singleton.mp hk))
    · exact .inr (by simp [hk])
  deepest := h'.deepest.trans h.deepest
  size := h'.size.trans h.size
  fuel := h'.fuel.trans h.fuel

/-- Arriving with the height that is known, or where none is known, goes well. -/
theorem arrive_arrived {s : HeightSearch} {height t : Nat} (ht : t < s.heights.length)
    (hagree : ∀ h, s.heightAt t = some h → h = height) :
    ∃ s', s.arrive height t = .ok s' ∧ Arrived s s' height [t] := by
  unfold arrive
  cases hknown : (s.heights[t]?).join with
  | some known =>
    obtain rfl := hagree known hknown
    refine ⟨s, by simp, ⟨fun _ _ h => h, fun u hu => ?_, fun _ _ h => .inl h, fun _ h => h,
      fun _ h => .inl h, rfl, rfl, rfl⟩⟩
    rw [List.mem_singleton.mp hu]
    exact hknown
  | none =>
    have hset : ∀ k, ((s.heights.set t (some height))[k]?).join =
        if k = t then some height else s.heightAt k := fun k => by
      rw [List.getElem?_set]
      by_cases hk : t = k
      · simp [hk, hk ▸ ht]
      · simp [hk, Ne.symm hk, heightAt]
    have hnone : s.heights[t] = none := by simpa [List.getElem?_eq_getElem ht] using hknown
    refine ⟨_, rfl, ⟨fun k h hk => ?_, fun u hu => ?_, fun k h hk => ?_, fun k hk => by simp [hk],
      fun k hk => by simpa using hk, rfl, by simp, ?_⟩⟩
    · refine (hset k).trans ?_
      split
      · rename_i hkt
        rw [hkt] at hk
        exact absurd (hk.symm.trans hknown) (by simp)
      · exact hk
    · exact (hset u).trans (if_pos (List.mem_singleton.mp hu))
    · have hk' := (hset k).symm.trans hk
      split at hk'
      · rename_i hkt
        exact .inr ⟨by simp [hkt], by simp [hkt]⟩
      · exact .inl hk'
    · have hpos : 0 < s.unassigned :=
        List.countP_pos_iff.mpr ⟨_, List.getElem_mem ht, by simp [hnone]⟩
      simp only [unassigned, List.countP_set ht, hnone, List.length_append] at hpos ⊢
      simp
      omega

theorem arrive_agrees {s s' : HeightSearch} {height t h : Nat} (hok : s.arrive height t = .ok s')
    (hknown : s.heightAt t = some h) : h = height := by
  unfold arrive at hok
  unfold heightAt at hknown
  simp only [hknown] at hok
  split at hok
  · assumption
  · exact absurd hok (by simp)

/-- Arriving at several instructions goes well if their heights agree. -/
theorem arriveAll_arrived {height : Nat} : ∀ {targets : List Nat} {s : HeightSearch},
    (∀ t ∈ targets, t < s.heights.length) →
    (∀ t ∈ targets, ∀ h, s.heightAt t = some h → h = height) →
    ∃ s', s.arriveAll height targets = .ok s' ∧ Arrived s s' height targets
  | [], s, _, _ => ⟨s, rfl, .refl s height⟩
  | t :: targets, s, hlt, hagree => by
    obtain ⟨s', hs', h⟩ := arrive_arrived (hlt t (by simp)) (hagree t (by simp))
    have hlt' : ∀ u ∈ targets, u < s'.heights.length := fun u hu => h.size ▸ hlt u (by simp [hu])
    have hagree' : ∀ u ∈ targets, ∀ x, s'.heightAt u = some x → x = height := fun u hu x hx => by
      rcases h.fresh u x hx with hold | ⟨hnew, -⟩
      · exact hagree u (by simp [hu]) x hold
      · exact Option.some.inj (hx.symm.trans (h.here u hnew))
    obtain ⟨s'', hs'', h'⟩ := arriveAll_arrived hlt' hagree'
    exact ⟨s'', by simp only [arriveAll, hs', hs''], h.cons h'⟩

/-- Where arriving goes well, the heights agreed. -/
theorem arriveAll_agrees {height : Nat} : ∀ {targets : List Nat} {s s' : HeightSearch},
    s.arriveAll height targets = .ok s' → (∀ t ∈ targets, t < s.heights.length) →
    ∀ t ∈ targets, ∀ h, s.heightAt t = some h → h = height
  | u :: targets, s, s', hok, hlt, t, ht, h, hknown => by
    rw [arriveAll] at hok
    split at hok
    · exact absurd hok (by simp)
    · rename_i s₁ hs₁
      rcases List.mem_cons.mp ht with rfl | ht
      · exact arrive_agrees hs₁ hknown
      · obtain ⟨s₂, hs₂, harrived⟩ := arrive_arrived (hlt u (by simp)) fun h => arrive_agrees hs₁
        obtain rfl := Except.ok.inj (hs₁.symm.trans hs₂)
        exact arriveAll_agrees hok (fun v hv => harrived.size ▸ hlt v (by simp [hv])) t ht h
          (harrived.kept t h hknown)

/-! ## 4. The search -/

variable {m : Method} {g : FlowGraph} {s s' : HeightSearch} {k height : Nat} {i : Insn}

/-- Looking at an instruction of a known height carries the height that it leaves over its edges. -/
theorem visit_eq (hi : m.insns[k]? = some i) (hh : s.heightAt k = some height) :
    HeightSearch.visit m g s k =
      match heightAfter m k i height with
      | .error e => .error e
      | .ok after => { s with deepest := max (max s.deepest height) after }.arriveAll after
          (FlowGraph.next g.successors k) := by
  unfold HeightSearch.visit
  unfold heightAt at hh
  cases hafter : heightAfter m k i height with
  | error e => simp only [hi, hh, Option.getD_some, hafter]
  | ok after => simp only [hi, hh, Option.getD_some, hafter]

/-- An instruction that was looked at: it may stand at its height, and its successors have the
height that it leaves. -/
def Done (m : Method) (g : FlowGraph) (s : HeightSearch) (k h : Nat) : Prop :=
  ∃ i after, m.insns[k]? = some i ∧ heightAfter m k i h = .ok after ∧ h ≤ s.deepest ∧
    after ≤ s.deepest ∧ ∀ t ∈ FlowGraph.next g.successors k, s.heightAt t = some after

/-- What holds of a search all along: whatever has a height is reached, and is looked at or will be.
-/
structure Sound (m : Method) (g : FlowGraph) (s : HeightSearch) : Prop where
  size : s.heights.length = m.insns.length
  first : s.heightAt 0 = some 0
  reached : ∀ k h, s.heightAt k = some h → k ∈ g.reached
  queued : ∀ k ∈ s.queue, ∃ h, s.heightAt k = some h
  done : ∀ k h, s.heightAt k = some h → k ∈ s.queue ∨ Done m g s k h

/-- At the start only the first instruction has a height. -/
theorem eq_zero_of_start {size k h : Nat} {queue : List Nat} {deepest : Nat}
    (hk : heightAt ⟨(List.replicate size none).set 0 (some 0), queue, deepest⟩ k = some h) :
    k = 0 ∧ h = 0 := by
  unfold heightAt at hk
  cases k with
  | zero =>
    cases size with
    | zero => simp at hk
    | succ size => exact ⟨rfl, by simpa using hk.symm⟩
  | succ k =>
    simp only [List.getElem?_set, List.getElem?_replicate] at hk
    split at hk
    · rename_i hne
      exact absurd hne (by simp)
    · split at hk <;> simp at hk

theorem sound_start (hg : FlowGraph.ofMethod m = .ok g) :
    Sound m g ⟨(List.replicate m.insns.length none).set 0 (some 0), [0], 0⟩ := by
  have hpos : 0 < m.insns.length :=
    List.length_pos_iff.mpr (FlowGraph.ofMethod_describes hg).nonempty
  have hfirst : (((List.replicate m.insns.length (none : Option Nat)).set 0 (some 0))[0]?).join =
      some 0 := by simp [hpos]
  refine ⟨by simp, hfirst, fun k h hk => ?_, fun k hk => ⟨0, ?_⟩, fun k h hk => .inl ?_⟩
  · rw [(eq_zero_of_start hk).1]
    exact (FlowGraph.ofMethod_reached hg).1
  · rw [List.mem_singleton.mp hk]
    exact hfirst
  · simp [(eq_zero_of_start hk).1]

/-- What is done remains so. -/
theorem Done.mono {s s' : HeightSearch} {k h : Nat} (hdone : Done m g s k h)
    (hkept : ∀ k h, s.heightAt k = some h → s'.heightAt k = some h) (hle : s.deepest ≤ s'.deepest) :
    Done m g s' k h := by
  obtain ⟨i, after, hi, hafter, hh, hle', hnext⟩ := hdone
  exact ⟨i, after, hi, hafter, Nat.le_trans hh hle, Nat.le_trans hle' hle,
    fun t ht => hkept t after (hnext t ht)⟩

/-- **Looking at one instruction** leaves a search that is sound, with one instruction less to look
at or to reach. -/
theorem Sound.visit (hg : FlowGraph.ofMethod m = .ok g) {queue : List Nat} (hs : Sound m g s)
    (hqueue : s.queue = k :: queue) (hvisit : HeightSearch.visit m g { s with queue } k = .ok s') :
    Sound m g s' ∧ s'.queue.length + s'.unassigned + 1 = s.queue.length + s.unassigned := by
  obtain ⟨height, hh⟩ := hs.queued k (by simp [hqueue])
  obtain ⟨-, hclosed, -⟩ := FlowGraph.ofMethod_reached hg
  have hlt : ∀ t ∈ FlowGraph.next g.successors k, t < s.heights.length :=
    fun t ht => hs.size ▸ (FlowGraph.ofMethod_describes hg).next_lt ht
  have hk : k < m.insns.length := by
    rw [← hs.size]
    refine Nat.lt_of_not_le fun hle => ?_
    simp [heightAt, List.getElem?_eq_none hle] at hh
  have hi := List.getElem?_eq_getElem hk
  rw [visit_eq (s := { s with queue }) hi hh] at hvisit
  split at hvisit
  · exact absurd hvisit (by simp)
  · rename_i after hafter
    obtain ⟨s₁, hs₁, h⟩ := arriveAll_arrived
      (s := { s with queue, deepest := max (max s.deepest height) after }) hlt
      (arriveAll_agrees hvisit hlt)
    obtain rfl := Except.ok.inj (hvisit.symm.trans hs₁)
    have hdeep : s.deepest ≤ s'.deepest := by
      rw [h.deepest]
      exact Nat.le_trans (Nat.le_max_left _ _) (Nat.le_max_left _ _)
    refine ⟨⟨h.size.trans hs.size, h.kept _ _ hs.first, fun j x hx => ?_, fun j hj => ?_,
      fun j x hx => ?_⟩, ?_⟩
    · rcases h.fresh j x hx with hold | ⟨hnew, -⟩
      · exact hs.reached j x hold
      · exact hclosed k (hs.reached k height hh) j hnew
    · rcases h.queued j hj with hj | hj
      · obtain ⟨x, hx⟩ := hs.queued j (by simp [hqueue, show j ∈ queue from hj])
        exact ⟨x, h.kept j x hx⟩
      · exact ⟨after, h.here j hj⟩
    · rcases h.fresh j x hx with hold | ⟨-, hnew⟩
      · rcases hs.done j x hold with hwaits | hdone
        · rw [hqueue] at hwaits
          rcases List.mem_cons.mp hwaits with rfl | hwaits
          · -- this is the instruction that was looked at
            obtain rfl : x = height := Option.some.inj (hold.symm.trans hh)
            refine .inr ⟨_, after, hi, hafter, ?_, ?_, h.here⟩
            · rw [h.deepest]
              exact Nat.le_trans (Nat.le_max_right _ _) (Nat.le_max_left _ _)
            · rw [h.deepest]
              exact Nat.le_max_right _ _
          · exact .inl (h.queue j hwaits)
        · exact .inr (hdone.mono h.kept hdeep)
      · exact .inl hnew
    · have hfuel : s'.queue.length + s'.unassigned = queue.length + s.unassigned := h.fuel
      rw [hqueue, List.length_cons, hfuel]
      omega

/-- **The whole search**: with fuel for every instruction to be looked at or reached, it ends with
an empty queue. -/
theorem Sound.run (hg : FlowGraph.ofMethod m = .ok g) :
    ∀ {fuel : Nat} {s : HeightSearch}, Sound m g s →
    s.queue.length + s.unassigned ≤ fuel → ∀ {s'}, HeightSearch.run m g fuel s = .ok s' →
    Sound m g s' ∧ s'.queue = []
  | 0, s, hs, hfuel, s', hrun => by
    obtain rfl := Except.ok.inj hrun
    exact ⟨hs, List.length_eq_zero_iff.mp (by omega)⟩
  | fuel + 1, s, hs, hfuel, s', hrun => by
    rw [HeightSearch.run] at hrun
    split at hrun
    · rename_i hqueue
      obtain rfl := Except.ok.inj hrun
      exact ⟨hs, hqueue⟩
    · rename_i index queue hqueue
      split at hrun
      · exact absurd hrun (by simp)
      · rename_i s₁ hs₁
        obtain ⟨hsound, hless⟩ := hs.visit hg hqueue hs₁
        exact hsound.run hg (by omega) hrun

/-- What an instruction that was looked at comes to in the method. -/
theorem Done.stands (hg : FlowGraph.ofMethod m = .ok g) (hreached : k ∈ g.reached)
    (hdone : Done m g s k height) :
    ∃ i, m.insns[k]? = some i ∧ Stands m s.heightAt s.deepest k i height := by
  obtain ⟨i, after, hi, hafter, hheight, hle, hnext⟩ := hdone
  obtain ⟨hslot, hpops, rfl⟩ := heightAfter_eq_ok.mp hafter
  have hdescribes := FlowGraph.ofMethod_describes hg
  obtain ⟨-, -, hinside⟩ := FlowGraph.ofMethod_reached hg
  refine ⟨i, hi, hslot, hpops, hheight, hle, fun hfall => ?_, fun l hl => ?_⟩
  · exact hnext _ (hdescribes.following hi hfall (hinside k hreached i hi hfall))
  · obtain ⟨t, ht, hedge⟩ := hdescribes.jump hi hl
    exact ⟨t, ht, hnext t hedge⟩

/-! ## 5. Completeness -/

/-- A search that has found nothing but given heights. -/
structure Under (m : Method) (heights : Nat → Option Nat) (depth : Nat)
    (s : HeightSearch) : Prop where
  size : s.heights.length = m.insns.length
  found : ∀ k h, s.heightAt k = some h → heights k = some h
  queued : ∀ k ∈ s.queue, ∃ h, s.heightAt k = some h
  deepest : s.deepest ≤ depth

variable {heights : Nat → Option Nat} {depth : Nat}

/-- Under heights that fit, looking at an instruction goes well. -/
theorem Under.visit (hg : FlowGraph.ofMethod m = .ok g) (hfits : Fits m heights depth)
    {queue : List Nat} (hs : Under m heights depth s) (hqueue : s.queue = k :: queue) :
    ∃ s', HeightSearch.visit m g { s with queue } k = .ok s' ∧ Under m heights depth s' := by
  obtain ⟨height, hh⟩ := hs.queued k (by simp [hqueue])
  obtain ⟨i, hi, hstands⟩ := hfits.stands k height (hs.found k height hh)
  have hdescribes := FlowGraph.ofMethod_describes hg
  have hafter := (heightAfter_eq_ok (k := k)).mpr ⟨hstands.slot, hstands.operands, rfl⟩
  have hnext : ∀ t ∈ FlowGraph.next g.successors k,
      heights t = some (height - i.pops + i.pushes) := fun t ht => by
    rcases hdescribes.mem_next hi ht with ⟨hfall, rfl⟩ | ⟨l, hl, htarget⟩
    · exact hstands.falls hfall
    · obtain ⟨t', ht', hheight⟩ := hstands.jumps l hl
      rwa [← Option.some.inj (ht'.symm.trans htarget)]
  have hagree : ∀ t ∈ FlowGraph.next g.successors k, ∀ x, s.heightAt t = some x →
      x = height - i.pops + i.pushes := fun t ht x hx =>
    Option.some.inj ((hs.found t x hx).symm.trans (hnext t ht))
  obtain ⟨s', hs', h⟩ := arriveAll_arrived
    (s := { s with queue, deepest := max (max s.deepest height) (height - i.pops + i.pushes) })
    (fun t ht => hs.size ▸ hdescribes.next_lt ht) hagree
  refine ⟨s', ?_, h.size.trans hs.size, fun j x hx => ?_, fun j hj => ?_, ?_⟩
  · rw [visit_eq (s := { s with queue }) hi hh, hafter]
    exact hs'
  · rcases h.fresh j x hx with hold | ⟨hnew, -⟩
    · exact hs.found j x hold
    · rw [hnext j hnew, ← h.here j hnew, hx]
  · rcases h.queued j hj with hj | hj
    · obtain ⟨x, hx⟩ := hs.queued j (by simp [hqueue, show j ∈ queue from hj])
      exact ⟨x, h.kept j x hx⟩
    · exact ⟨_, h.here j hj⟩
  · rw [h.deepest]
    exact Nat.max_le.mpr ⟨Nat.max_le.mpr ⟨hs.deepest, hstands.before⟩, hstands.after⟩

theorem Under.run (hg : FlowGraph.ofMethod m = .ok g) (hfits : Fits m heights depth) :
    ∀ (fuel : Nat) {s : HeightSearch}, Under m heights depth s →
      ∃ s', HeightSearch.run m g fuel s = .ok s' ∧ Under m heights depth s'
  | 0, s, hs => ⟨s, rfl, hs⟩
  | fuel + 1, s, hs => by
    rw [HeightSearch.run]
    split
    · exact ⟨s, rfl, hs⟩
    · rename_i index queue hqueue
      obtain ⟨s₁, hs₁, hunder⟩ := hs.visit hg hfits hqueue
      rw [hs₁]
      exact hunder.run hg hfits fuel

end HeightSearch

/-- **The heights that are found fit together.** -/
theorem stackHeights_fits {m : Method} {heights : List (Option Nat)} {depth : Nat}
    (h : stackHeights m = .ok (heights, depth)) :
    m.repeatedLabel? = none ∧ Fits m (fun k => (heights[k]?).join) depth := by
  unfold stackHeights at h
  split at h
  · exact absurd h (by simp)
  · rename_i g hg
    simp only at h
    split at h
    · exact absurd h (by simp)
    · rename_i s hs
      obtain ⟨rfl, rfl⟩ := Prod.mk.inj (Except.ok.inj h)
      have hdescribes := FlowGraph.ofMethod_describes hg
      have hpos : 0 < m.insns.length := List.length_pos_iff.mpr hdescribes.nonempty
      obtain ⟨hsound, hempty⟩ := (HeightSearch.sound_start hg).run hg (by
        simp [HeightSearch.unassigned, List.countP_set, List.countP_replicate, hpos]
        omega) hs
      refine ⟨hdescribes.labels, hsound.first, fun k x hx => ?_⟩
      have hdone := (hsound.done k x hx).resolve_left (by simp [hempty])
      exact hdone.stands hg (hsound.reached k x hx)

/-- **Heights that fit are found**, and no depth beyond theirs is reported. -/
theorem requiredStack_of_fits {m : Method} {g : FlowGraph} (hg : FlowGraph.ofMethod m = .ok g)
    {heights : Nat → Option Nat} {depth : Nat} (hfits : Fits m heights depth) :
    ∃ required, requiredStack m = .ok required ∧ required ≤ depth := by
  have hsound := HeightSearch.sound_start hg
  have hstart : HeightSearch.Under m heights depth
      ⟨(List.replicate m.insns.length none).set 0 (some 0), [0], 0⟩ := by
    refine ⟨hsound.size, fun k h hk => ?_, hsound.queued, Nat.zero_le _⟩
    obtain ⟨rfl, rfl⟩ := HeightSearch.eq_zero_of_start hk
    exact hfits.first
  obtain ⟨s, hs, hunder⟩ := hstart.run hg hfits m.insns.length
  exact ⟨s.deepest, by simp only [requiredStack, stackHeights, hg, hs], hunder.deepest⟩

end Provenance
