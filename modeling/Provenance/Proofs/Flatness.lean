/-
# What is recorded is flat

Parts mention only trackers that stand for themselves, never one that records parts
(`Ledger.Reachable.flat`), because a copy out of a recording tracker writes what that one has its
data from.  Two things follow.

* Looking up an index takes one step at most: every depth from two on gives the same answer, and the
  limit is never met (`lookUp_flat`).
* What is done to one tracker changes no lookup in another one (`resolve_perform`), however much of
  the first was copied into the second before.

The trackers that nobody refers to any more may go meanwhile: what is kept leads only to what is
kept (`reach_closed`).
-/
import Provenance.Proofs.NormalForm

namespace Provenance

/-! ## 1. The sources of parts -/

namespace Parts

theorem source_of_mem_clear {index stop : Nat} {ps : List Part} {p : Part}
    (h : p ∈ clear index stop ps) :
    ∃ q ∈ ps, q.source = p.source := by
  obtain ⟨q, hq, hp⟩ := List.mem_flatMap.mp h
  exact ⟨q, hq, (Normal.source_of_piece hp).1.symm⟩

/-- Overwriting a range brings in no source but the given one. -/
theorem source_of_mem_record {index length : Nat} {place : Option Place} {ps : List Part} {p : Part}
    (h : p ∈ record index length place ps) :
    (∃ q ∈ ps, q.source = p.source) ∨ ∃ x, place = some x ∧ x.source = p.source := by
  unfold record at h
  split at h
  · exact .inl ⟨p, h, rfl⟩
  · cases place with
    | none => exact .inl (source_of_mem_clear h)
    | some x =>
      obtain ⟨q, hq, -, hsource, -⟩ := Normal.begins_of_mem_insert h
      rcases List.mem_cons.mp hq with rfl | hq
      · exact .inr ⟨x, rfl, hsource.symm⟩
      · obtain ⟨r, hr, hrq⟩ := source_of_mem_clear hq
        exact .inl ⟨r, hr, hrq.trans hsource.symm⟩

/-- Writing stretches brings in no sources but theirs. -/
theorem source_of_mem_recordAll {p : Part} : ∀ (ss : List Stretch) {ps : List Part} {index : Nat},
    p ∈ recordAll index ps ss →
    (∃ q ∈ ps, q.source = p.source) ∨ ∃ s ∈ ss, ∃ x, s.place = some x ∧ x.source = p.source
  | [], _, _, h => .inl ⟨p, h, rfl⟩
  | s :: ss, _, _, h => by
    rcases source_of_mem_recordAll ss h with ⟨q, hq, hqp⟩ | ⟨r, hr, x, hx⟩
    · rcases source_of_mem_record hq with ⟨r, hr, hrq⟩ | ⟨x, hx, hxq⟩
      · exact .inl ⟨r, hr, hrq.trans hqp⟩
      · exact .inr ⟨s, by simp, x, hx, hxq.trans hqp⟩
    · exact .inr ⟨r, by simp [hr], x, hx⟩

theorem place_of_mem_gap {length : Nat} {s : Stretch} (h : s ∈ gap length) : s.place = none := by
  unfold gap at h
  split at h
  · exact absurd h List.not_mem_nil
  · rw [List.mem_singleton.mp h]

/-- The stretches of a range have their places in the sources of the parts. -/
theorem source_of_mem_window {stop : Nat} {s : Stretch} {x : Place} (hx : s.place = some x) :
    ∀ {ps : List Part} {cursor : Nat}, s ∈ window cursor stop ps → ∃ p ∈ ps, p.source = x.source
  | [], _, h => by simp [place_of_mem_gap h] at hx
  | p :: ps, cursor, h => by
    have hlater : ∀ {cursor : Nat}, s ∈ window cursor stop ps →
        ∃ q ∈ p :: ps, q.source = x.source :=
      fun h => (source_of_mem_window hx h).imp fun q hq => ⟨by simp [hq.1], hq.2⟩
    rw [window] at h
    split at h
    · exact hlater h
    · split at h
      · simp [place_of_mem_gap h] at hx
      · rcases List.mem_append.mp h with h | h
        · simp [place_of_mem_gap h] at hx
        · rcases List.mem_cons.mp h with rfl | h
          · cases hx
            exact ⟨p, by simp, rfl⟩
          · exact hlater h

end Parts

namespace Ledger

/-! ## 2. What is kept leads to what is kept -/

/-- A list without repetitions is no longer. -/
theorem length_eraseDups_le (ids : List TrackerId) : ids.eraseDups.length ≤ ids.length := by
  cases ids with
  | nil => simp
  | cons id ids =>
    have hrest := length_eraseDups_le (ids.filter fun other => !other == id)
    have hfilter := List.length_filter_le (fun other => !other == id) ids
    simp only [List.eraseDups_cons, List.length_cons]
    omega
termination_by ids.length
decreasing_by
  have hfilter := List.length_filter_le (fun other => !other == id) ids
  simp only [List.length_cons]
  omega

/-- How many mentions of sources there are in trackers not yet seen. -/
def unseen (l : Ledger) (seen ids : List TrackerId) : Nat :=
  (ids.flatMap fun id => if seen.contains id then [] else l.sourcesOf id).length

/-- Seeing one more tracker takes its mentions off. -/
theorem unseen_cons (l : Ledger) {id : TrackerId} {seen : List TrackerId} (hnew : id ∉ seen) :
    ∀ ids : List TrackerId, l.unseen (id :: seen) ids ≤ l.unseen seen ids ∧
      (id ∈ ids → l.unseen (id :: seen) ids + (l.sourcesOf id).length ≤ l.unseen seen ids)
  | [] => by simp [unseen]
  | other :: ids => by
    obtain ⟨hle, hlt⟩ := unseen_cons l hnew ids
    by_cases hother : other = id
    · subst hother
      simp only [unseen, List.flatMap_cons, List.length_append, List.contains_iff_mem,
        List.mem_cons, true_or, if_true, hnew, if_false, List.length_nil] at hle ⊢
      exact ⟨by omega, fun _ => by omega⟩
    · simp only [unseen, List.flatMap_cons, List.length_append, List.contains_iff_mem,
        List.mem_cons, hother, false_or, Ne.symm hother] at hle hlt ⊢
      exact ⟨by omega, fun h => by have := hlt h; omega⟩

theorem mem_ids {l : Ledger} {id : TrackerId} {t : Tracker} (h : l.tracker? id = some t) :
    id ∈ l.trackers.ids := by
  unfold tracker? Table.get? at h
  cases id with
  | zero => simp at h
  | succ n =>
    refine List.mem_map.mpr ⟨n, List.mem_range.mpr ?_, rfl⟩
    refine Nat.lt_of_not_le fun hle => ?_
    simp [Array.getElem?_eq_none hle] at h

/-- A tracker that mentions sources is in the ledger. -/
theorem tracker_of_mem_sourcesOf {l : Ledger} {id source : TrackerId}
    (h : source ∈ l.sourcesOf id) :
    ∃ t, l.tracker? id = some t ∧ source ∈ t.parts.map Part.source := by
  unfold sourcesOf parts at h
  split at h
  · rename_i t ht
    exact ⟨t, ht, h⟩
  · exact absurd h List.not_mem_nil

/-- One more tracker seen, and its sources to be followed: there is less to do than before. -/
theorem unseen_next (l : Ledger) {id : TrackerId} {seen : List TrackerId} (hnew : id ∉ seen)
    (rest : List TrackerId) : ((l.sourcesOf id).eraseDups ++ rest).length +
      l.unseen (id :: seen) l.trackers.ids ≤ rest.length + l.unseen seen l.trackers.ids := by
  obtain ⟨hle, hlt⟩ := l.unseen_cons hnew l.trackers.ids
  have hdups := length_eraseDups_le (l.sourcesOf id)
  simp only [List.length_append]
  by_cases hid : id ∈ l.trackers.ids
  · have := hlt hid
    omega
  · -- a number that is not given out mentions nothing
    have hnone : l.sourcesOf id = [] := List.eq_nil_iff_forall_not_mem.mpr fun source hsource =>
      hid (mem_ids (tracker_of_mem_sourcesOf hsource).choose_spec.1)
    rw [hnone] at hdups ⊢
    simp only [List.length_nil] at hdups
    omega

/-- **Following sources ends with nothing left to follow**: with fuel for every mention, all that is
found leads only to what is found. -/
theorem reach_closed (l : Ledger) : ∀ (fuel : Nat) (work seen : List TrackerId),
    work.length + l.unseen seen l.trackers.ids ≤ fuel →
    (∀ id ∈ seen, ∀ source ∈ l.sourcesOf id, source ∈ seen ∨ source ∈ work) →
    ∀ id ∈ l.reach fuel work seen, ∀ source ∈ l.sourcesOf id, source ∈ l.reach fuel work seen
  | 0, work, seen, hfuel, hseen => by
    obtain rfl := List.length_eq_zero_iff.mp (show work.length = 0 by omega)
    intro id hid source hsource
    simpa [reach] using hseen id hid source hsource
  | fuel + 1, [], seen, _, hseen => by
    intro id hid source hsource
    simpa [reach] using hseen id hid source hsource
  | fuel + 1, id :: rest, seen, hfuel, hseen => by
    simp only [List.length_cons] at hfuel
    rw [reach]
    split
    · rename_i hold
      rw [List.contains_iff_mem] at hold
      refine reach_closed l fuel rest seen (by omega) fun other hother source hsource => ?_
      rcases hseen other hother source hsource with h | h
      · exact .inl h
      · rcases List.mem_cons.mp h with rfl | h
        · exact .inl hold
        · exact .inr h
    · rename_i hnew
      rw [List.contains_iff_mem] at hnew
      refine reach_closed l fuel _ (id :: seen) ?_ fun other hother source hsource => ?_
      · have hnext := l.unseen_next hnew rest
        omega
      · rcases List.mem_cons.mp hother with rfl | hother
        · exact .inr (by simp [List.mem_eraseDups, hsource])
        · rcases hseen other hother source hsource with h | h
          · exact .inl (by simp [h])
          · rcases List.mem_cons.mp h with rfl | h
            · exact .inl (by simp)
            · exact .inr (by simp [h])

/-- What was to be followed is among what is found. -/
theorem mem_reach (l : Ledger) : ∀ (fuel : Nat) (work seen : List TrackerId),
    work.length + l.unseen seen l.trackers.ids ≤ fuel →
    ∀ id, id ∈ seen ∨ id ∈ work → id ∈ l.reach fuel work seen
  | 0, work, seen, hfuel => by
    obtain rfl := List.length_eq_zero_iff.mp (show work.length = 0 by omega)
    intro id hid
    simpa [reach] using hid
  | fuel + 1, [], seen, _ => by
    intro id hid
    simpa [reach] using hid
  | fuel + 1, next :: rest, seen, hfuel => by
    simp only [List.length_cons] at hfuel
    intro id hid
    rw [reach]
    split
    · rename_i hold
      rw [List.contains_iff_mem] at hold
      refine mem_reach l fuel rest seen (by omega) id ?_
      rcases hid with hid | hid
      · exact .inl hid
      · rcases List.mem_cons.mp hid with rfl | hid
        · exact .inl hold
        · exact .inr hid
    · rename_i hnew
      rw [List.contains_iff_mem] at hnew
      have hless := l.unseen_next hnew rest
      refine mem_reach l fuel _ (next :: seen) (by omega) id ?_
      rcases hid with hid | hid
      · exact .inl (List.mem_cons_of_mem _ hid)
      · rcases List.mem_cons.mp hid with rfl | hid
        · exact .inl List.mem_cons_self
        · exact .inr (List.mem_append_right _ hid)

/-- What is asked to be kept is kept. -/
theorem tracker?_retain_of_mem (l : Ledger) {roots : List TrackerId} {id : TrackerId}
    (hid : id ∈ roots) :
    (l.retain roots).tracker? id = l.tracker? id := by
  have hall : l.unseen [] l.trackers.ids = (l.trackers.ids.flatMap l.sourcesOf).length := by
    simp [unseen, List.length_flatMap]
  have hkept := mem_reach l _ roots.eraseDups []
    (Nat.le_succ_of_le (Nat.add_le_add_left (Nat.le_of_eq hall) _)) id
    (.inr (List.mem_eraseDups.mpr hid))
  unfold retain tracker?
  simp only [Table.get?_retain, List.contains_iff_mem, if_pos hkept]

/-- What is kept of a ledger is closed under mentioning. -/
theorem exists_kept (l : Ledger) (roots : List TrackerId) : ∃ kept : List TrackerId,
    (∀ id ∈ kept, ∀ source ∈ l.sourcesOf id, source ∈ kept) ∧
      ∀ id, (l.retain roots).tracker? id = if id ∈ kept then l.tracker? id else none := by
  have hall : l.unseen [] l.trackers.ids = (l.trackers.ids.flatMap l.sourcesOf).length := by
    simp [unseen, List.length_flatMap]
  refine ⟨_, reach_closed l _ roots.eraseDups []
    (Nat.le_succ_of_le (Nat.add_le_add_left (Nat.le_of_eq hall) _)) (by simp), fun id => ?_⟩
  unfold retain tracker?
  simp only [Table.get?_retain, List.contains_iff_mem]

/-! ## 3. Flat ledgers -/

/-- A number stands for itself if its tracker is there and records no parts. -/
def Standing (l : Ledger) (id : TrackerId) : Prop :=
  ∃ t, l.tracker? id = some t ∧ t.role.recordsParts = false

/-- What is there keeps its number when a tracker comes into being. -/
theorem tracker?_add_of_some {l : Ledger} {id : TrackerId} {t : Tracker}
    (h : l.tracker? id = some t) (new : Tracker) : (l.add new).2.tracker? id = some t := by
  rw [tracker?_add, if_neg, h]
  rintro rfl
  simpa [Table.ids, Table.nextId] using mem_ids h

/-- Every source that is mentioned stands for itself. -/
def Flat (l : Ledger) : Prop := ∀ id, ∀ source ∈ l.sourcesOf id, l.Standing source

/-- What a copy writes mentions only what stands for itself. -/
theorem Flat.copied {l : Ledger} (h : l.Flat) {source : Option TrackerId} {sourceIndex length : Nat}
    {s : Stretch} (hs : s ∈ l.copied source sourceIndex length) {x : Place}
    (hx : s.place = some x) :
    l.Standing x.source := by
  have hgap : s ∉ [⟨length, none⟩] := fun hs => by simp [List.mem_singleton.mp hs] at hx
  cases source with
  | none => exact absurd hs hgap
  | some source =>
    unfold Ledger.copied stretches at hs
    simp only at hs
    split at hs
    · exact absurd hs hgap
    · rename_i t ht
      split at hs
      · obtain ⟨p, hp, hsource⟩ := Parts.source_of_mem_window hx hs
        refine hsource ▸ h source p.source ?_
        unfold sourcesOf parts
        simp only [ht]
        exact List.mem_map_of_mem hp
      · rename_i hrole
        rw [List.mem_singleton.mp hs] at hx
        cases hx
        exact ⟨t, ht, by simpa using hrole⟩

/-- **No operation makes a part mention a tracker that records parts.** -/
theorem Flat.step {l l' : Ledger} (h : l.Flat) (hstep : l.Step l') : l'.Flat := by
  intro id source hsource
  obtain ⟨t', ht', hmem⟩ := tracker_of_mem_sourcesOf hsource
  have hold : ∀ {t : Tracker}, l.tracker? id = some t → source ∈ t.parts.map Part.source →
      l.Standing source := fun ht hmem => h id source (by simpa [sourcesOf, parts, ht] using hmem)
  cases hstep with
  | added role content descriptor hl' =>
    subst hl'
    rw [tracker?_add] at ht'
    split at ht'
    · cases ht'
      exact absurd hmem List.not_mem_nil
    · obtain ⟨t, ht, hrole⟩ := hold ht' hmem
      exact ⟨t, tracker?_add_of_some ht _, hrole⟩
  | kept hl' =>
    obtain ⟨t, ht, hsame⟩ := hl'.tracker ht'
    have hparts : t.parts = t'.parts := congrArg (·.2.1) hsame
    obtain ⟨s, hs, hrole⟩ := hold ht (hparts ▸ hmem)
    have hlook := hl' source
    rw [hs, Option.map_some] at hlook
    obtain ⟨s', hs', hsame⟩ := Option.map_eq_some_iff.mp hlook
    exact ⟨s', hs', (congrArg (·.1) hsame : s'.role = s.role) ▸ hrole⟩
  | recorded other index copy copyIndex length ht hrole hl' =>
    subst hl'
    have hstands : l.Standing source := by
      rw [tracker?_modifyTracker] at ht'
      split at ht'
      · obtain ⟨t, ht, rfl⟩ := Option.map_eq_some_iff.mp ht'
        obtain ⟨p, hp, rfl⟩ := List.mem_map.mp hmem
        rcases Parts.source_of_mem_recordAll _ hp with ⟨q, hq, hqp⟩ | ⟨s, hs, x, hx, hxp⟩
        · exact hold ht (hqp ▸ List.mem_map_of_mem hq)
        · exact hxp ▸ h.copied hs hx
      · exact hold ht' hmem
    -- the tracker that was written to records parts, so it is none of the sources
    obtain ⟨s, hs, hstands⟩ := hstands
    refine ⟨s, ?_, hstands⟩
    rw [tracker?_modifyTracker, if_neg, hs]
    rintro rfl
    rw [ht] at hs
    cases hs
    simp [hrole] at hstands
  | retained roots hl' =>
    subst hl'
    obtain ⟨kept, hclosed, hlook⟩ := l.exists_kept roots
    rw [hlook] at ht'
    split at ht'
    · rename_i hid
      obtain ⟨s, hs, hrole⟩ := hold ht' hmem
      have hkept := hclosed id hid source (by simpa [sourcesOf, parts, ht'] using hmem)
      exact ⟨s, by rw [hlook, if_pos hkept, hs], hrole⟩
    · exact absurd ht' (by simp)

/-- **Every ledger is flat**, whatever was done. -/
theorem Reachable.flat {l : Ledger} (h : l.Reachable) : l.Flat :=
  h.of_steps (P := Flat)
    (fun id source hsource => by
      obtain ⟨t, ht, -⟩ := tracker_of_mem_sourcesOf hsource
      simp [tracker?, Ledger.empty] at ht)
    fun _ _ hl hstep => hl.step hstep

/-! ## 4. Looking up in a flat ledger -/

/-- How a lookup ends: at a point, at an index of which nothing is known, or at the limit. -/
inductive Lookup where
  | found (p : Point)
  | unknown
  | tooDeep
  deriving DecidableEq, Repr

/-- The point that was found, if one was. -/
def Lookup.point? : Lookup → Option Point
  | found p => some p
  | _ => none

/-- Where one tracker sends a lookup: it ends there, or goes on at a place. -/
def next (l : Ledger) (id : TrackerId) (index length : Nat) : Lookup ⊕ Place :=
  match l.tracker? id with
  | none => .inl .unknown
  | some t =>
    match t.role with
    | .default | .sink =>
      match Parts.sourceAt t.parts index with
      | none => .inl .unknown
      | some place => .inr place
    | .fixed => .inl (if t.length ≤ index then .unknown else .found ⟨id, index, length⟩)
    | .origin | .tag => .inl (.found ⟨id, index, length⟩)

/-- Looking up an index as `resolve` does, telling the limit from what is not known. -/
def lookUp (l : Ledger) : Nat → TrackerId → Nat → Nat → Lookup
  | 0, _, _, _ => .tooDeep
  | depth + 1, id, index, length =>
    match l.next id index length with
    | .inl ended => ended
    | .inr place => l.lookUp depth place.source place.index length

/-- A lookup gives the point that it ends at. -/
theorem resolve_eq_lookUp (l : Ledger) : ∀ (depth : Nat) (id : TrackerId) (index length : Nat),
    l.resolve depth id index length = (l.lookUp depth id index length).point?
  | 0, _, _, _ => rfl
  | depth + 1, id, index, length => by
    unfold resolve lookUp next
    cases l.tracker? id with
    | none => rfl
    | some t =>
      simp only
      cases t.role with
      | default | sink =>
        cases Parts.sourceAt t.parts index with
        | none => rfl
        | some place => exact l.resolve_eq_lookUp depth place.source place.index length
      | origin | tag => rfl
      | fixed =>
        simp only
        split <;> rfl

/-- A lookup goes on only at sources that parts mention. -/
theorem source_of_next {l : Ledger} {id : TrackerId} {index length : Nat} {place : Place}
    (h : l.next id index length = .inr place) : place.source ∈ l.sourcesOf id := by
  unfold next at h
  unfold sourcesOf parts
  cases ht : l.tracker? id with
  | none => simp [ht] at h
  | some t =>
    simp only [ht] at h ⊢
    split at h
    iterate 2
      split at h
      · cases h
      · rename_i hplace
        cases h
        obtain ⟨p, hp, -, hpx⟩ := Parts.Normal.exists_of_sourceAt hplace
        exact List.mem_map.mpr ⟨p, hp, congrArg Place.source hpx⟩
    all_goals cases h

/-- One tracker never sends a lookup to the limit. -/
theorem next_ne_tooDeep (l : Ledger) (id : TrackerId) (index length : Nat) :
    l.next id index length ≠ .inl .tooDeep := by
  unfold next
  repeat' split
  all_goals simp

/-- A lookup ends at what stands for itself. -/
theorem Standing.next {l : Ledger} {id : TrackerId} (h : l.Standing id) (index length : Nat) :
    ∃ ended, l.next id index length = .inl ended := by
  obtain ⟨t, ht, hrole⟩ := h
  unfold Ledger.next
  simp only [ht]
  cases hrole' : t.role with
  | default | sink => simp [hrole', Role.recordsParts] at hrole
  | origin | fixed | tag => exact ⟨_, rfl⟩

/-- **One step suffices**: in a flat ledger a lookup over two trackers or more never meets its
limit, and all of them end alike. -/
theorem Flat.lookUp {l : Ledger} (h : l.Flat) (depth : Nat) (id : TrackerId) (index length : Nat) :
    l.lookUp (depth + 2) id index length = l.lookUp 2 id index length ∧
      l.lookUp (depth + 2) id index length ≠ .tooDeep := by
  cases hnext : l.next id index length with
  | inl ended =>
    have hended : ended ≠ .tooDeep := fun he => l.next_ne_tooDeep id index length (he ▸ hnext)
    simpa [Ledger.lookUp, hnext] using hended
  | inr place =>
    obtain ⟨ended, hlast⟩ := (h id _ (source_of_next hnext)).next place.index length
    have hended : ended ≠ .tooDeep := fun he => l.next_ne_tooDeep _ _ _ (he ▸ hlast)
    simpa [Ledger.lookUp, hnext, hlast] using hended

/-! ## 5. What other trackers see -/

/-- A tracker that is read alike sends lookups the same way. -/
theorem next_congr {l l' : Ledger} {id : TrackerId}
    (h : (l'.tracker? id).map traced = (l.tracker? id).map traced) (index length : Nat) :
    l'.next id index length = l.next id index length := by
  unfold next
  cases ht : l.tracker? id with
  | none =>
    rw [ht, Option.map_none, Option.map_eq_none_iff] at h
    rw [h]
  | some t =>
    rw [ht, Option.map_some] at h
    obtain ⟨t', ht', hsame⟩ := Option.map_eq_some_iff.mp h
    have hrole : t'.role = t.role := congrArg (·.1) hsame
    have hparts : t'.parts = t.parts := congrArg (·.2.1) hsame
    have hlength : (if t'.role = .fixed then some t'.content.length else none) =
      if t.role = .fixed then some t.content.length else none := congrArg (·.2.2) hsame
    simp only [ht', hrole, hparts] at hlength ⊢
    cases hrole' : t.role with
    | default | sink | origin | tag => rfl
    | fixed =>
      simp only [hrole', if_true, Option.some.injEq] at hlength
      simp [Tracker.length, hrole, hrole', hlength]

/-- A lookup reads a tracker and the sources that it mentions, and nothing else. -/
theorem Flat.resolve_congr {l l' : Ledger} (h : l.Flat) {id : TrackerId}
    (hid : (l'.tracker? id).map traced = (l.tracker? id).map traced)
    (hsources : ∀ source ∈ l.sourcesOf id,
      (l'.tracker? source).map traced = (l.tracker? source).map traced)
    (depth index length : Nat) :
    l'.resolve depth id index length = l.resolve depth id index length := by
  simp only [resolve_eq_lookUp]
  refine congrArg Lookup.point? ?_
  cases depth with
  | zero => rfl
  | succ depth =>
    simp only [Ledger.lookUp, next_congr hid]
    cases hnext : l.next id index length with
    | inl ended => rfl
    | inr place =>
      have hsource := source_of_next hnext
      obtain ⟨ended, hlast⟩ := (h id _ hsource).next place.index length
      cases depth with
      | zero => rfl
      | succ depth => simp only [Ledger.lookUp, next_congr (hsources _ hsource), hlast]

/-- What can be done to one tracker. -/
inductive Operation where
  | append (data : List UInt8)
  | setSource (index length : Nat) (source : Option TrackerId) (sourceIndex : Nat)
  | setSourcePoint (index length : Nat) (point : Option Point)
  /-- Becoming the first or the second of two twins. -/
  | twinOf (other : TrackerId) (first : Bool)
  deriving Repr

/-- Does something to one tracker. -/
def perform (l : Ledger) (id : TrackerId) : Operation → Except StoreError Ledger
  | .append data => l.append id data
  | .setSource index length source sourceIndex => l.setSource id index length source sourceIndex
  | .setSourcePoint index length point => l.setSourcePoint id index length point
  | .twinOf other first => if first then l.initTwin id other else l.initTwin other id

/-- What an operation leaves: a ledger in which all is looked up alike, or one in which a range of
the tracker is overwritten. -/
theorem perform_cases {l l' : Ledger} {id : TrackerId} {op : Operation}
    (h : l.perform id op = .ok l') : l.Alike l' ∨
      (∃ t, l.tracker? id = some t ∧ t.role.recordsParts = true) ∧
        ∀ other, other ≠ id → l'.tracker? other = l.tracker? other := by
  have hset : ∀ {index length sourceIndex : Nat} {source : Option TrackerId},
      l.setSource id index length source sourceIndex = .ok l' → l.Alike l' ∨
        (∃ t, l.tracker? id = some t ∧ t.role.recordsParts = true) ∧
          ∀ other, other ≠ id → l'.tracker? other = l.tracker? other := by
    intro index length sourceIndex source h
    obtain rfl | ⟨t, ht, hrole, rfl⟩ := setSource_cases h
    · exact .inl .refl
    · refine .inr ⟨⟨t, ht, hrole⟩, fun other hother => ?_⟩
      rw [tracker?_modifyTracker, if_neg (Ne.symm hother)]
  cases op with
  | append data => exact .inl (.append h)
  | setSource index length source sourceIndex => exact hset h
  | setSourcePoint index length point =>
    unfold perform Ledger.setSourcePoint at h
    cases point with
    | none => exact hset h
    | some p => exact hset h
  | twinOf other first =>
    cases first with
    | true => exact .inl (.initTwin h)
    | false => exact .inl (.initTwin h)

/-- **Nothing leaks**: what is done to one tracker changes no lookup in another one. -/
theorem Flat.resolve_perform {l l' : Ledger} (h : l.Flat) {id : TrackerId} {op : Operation}
    (hop : l.perform id op = .ok l') {other : TrackerId} (hother : other ≠ id)
    (depth index length : Nat) :
    l'.resolve depth other index length = l.resolve depth other index length := by
  rcases perform_cases hop with halike | ⟨⟨t, ht, hrole⟩, hsame⟩
  · exact h.resolve_congr (halike other) (fun source _ => halike source) depth index length
  · refine h.resolve_congr (by rw [hsame other hother]) (fun source hsource => ?_)
      depth index length
    -- a source records no parts, so it is not the tracker that was written to
    obtain ⟨s, hs, hstands⟩ := h other source hsource
    rw [hsame source]
    rintro rfl
    rw [ht] at hs
    cases hs
    simp [hrole] at hstands

/-- Making a new pair of twins changes no lookup in what is there. -/
theorem Flat.resolve_twins {l : Ledger} (h : l.Flat) {id : TrackerId} {t : Tracker}
    (ht : l.tracker? id = some t) (descriptor : String) (depth index length : Nat) :
    (l.twins descriptor).2.2.resolve depth id index length = l.resolve depth id index length := by
  have hkept : ∀ {id : TrackerId} {t : Tracker}, l.tracker? id = some t →
      ((l.twins descriptor).2.2.tracker? id).map traced = (l.tracker? id).map traced := by
    intro id t ht
    have hadded := tracker?_add_of_some (tracker?_add_of_some ht
      (.new .origin [] (some (descriptor ++ " (in)"))))
      (.new .sink [] (some (descriptor ++ " (out)")))
    rw [ht, ← hadded]
    exact Alike.link _ _ _ id
  refine h.resolve_congr (hkept ht) (fun source hsource => ?_) depth index length
  obtain ⟨s, hs, -⟩ := h id source hsource
  exact hkept hs

/-- **Recorded provenance is flat.**  No part has its data from a default tracker or a sink; so
lookups of every depth from two on end alike and never at the limit, and nothing that is done to one
tracker changes what is found for another one. -/
theorem recorded_flat {l : Ledger} (hl : l.Reachable) :
    (∀ id t, l.tracker? id = some t → ∀ p ∈ t.parts, ∃ s, l.tracker? p.source = some s ∧
      s.role ≠ .default ∧ s.role ≠ .sink) ∧
    (∀ depth id index length, 2 ≤ depth →
      l.lookUp depth id index length ≠ .tooDeep ∧
      l.resolve depth id index length = l.resolve 2 id index length) ∧
    (∀ id op l', l.perform id op = .ok l' → ∀ other, other ≠ id → ∀ depth index length,
      l'.resolve depth other index length = l.resolve depth other index length) ∧
    (∀ descriptor id t, l.tracker? id = some t → ∀ depth index length,
      (l.twins descriptor).2.2.resolve depth id index length =
        l.resolve depth id index length) := by
  refine ⟨fun id t ht p hp => ?_, fun depth id index length hdepth => ?_,
    fun id op l' hop other hother => hl.flat.resolve_perform hop hother,
    fun descriptor id t ht => hl.flat.resolve_twins ht descriptor⟩
  · obtain ⟨s, hs, hrole⟩ := hl.flat id p.source
      (by simpa [sourcesOf, parts, ht] using List.mem_map_of_mem hp)
    refine ⟨s, hs, ?_, ?_⟩ <;> rintro hs <;> simp [hs, Role.recordsParts] at hrole
  · obtain ⟨depth, rfl⟩ := Nat.exists_eq_add_of_le' hdepth
    obtain ⟨hsame, hlimit⟩ := hl.flat.lookUp depth id index length
    exact ⟨hlimit, by rw [resolve_eq_lookUp, resolve_eq_lookUp, hsame]⟩

/-- The tracker that copied from the sink keeps the origin's bytes when the sink forgets them. -/
theorem byteByByte_flat :
    (∃ s, byteByByte.tracker? 1 = some s ∧ s.role ≠ .default ∧ s.role ≠ .sink) ∧
      byteByByte.resolve 16 3 2 1 = byteByByte.resolve 2 3 2 1 ∧
      ∃ l', byteByByte.perform 2 (.setSource 0 2 none 0) = .ok l' ∧
        l'.resolve 2 3 2 1 = some ⟨1, 12, 1⟩ ∧ l'.resolve 2 2 0 1 = none := by
  obtain ⟨hparts, hdepth, hother, -⟩ := recorded_flat (byteByByte_reachable .stops).reachable.1
  refine ⟨hparts 3 _ rfl ⟨0, 4, 1, 10⟩ (by decide), (hdepth 16 3 2 1 (by decide)).2,
    _, rfl, ?_, rfl⟩
  rw [hother 2 (.setSource 0 2 none 0) _ rfl 3 (by decide) 2 2 1]
  rfl

end Ledger

end Provenance
