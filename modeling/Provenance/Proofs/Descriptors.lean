/-
# Descriptors that were read

What is read from a text as a descriptor is written as that text again
(`MethodDesc.descriptor_of_parse`).  So the descriptor of a call, if it was read, says how many
operands the call takes, and a call is what its descriptor makes it out to be: the bulk copy takes
five operands and leaves nothing, reading a character out of a string takes two, cloning an array
one (`MethodRef.Regular`).
-/
import Provenance.Code.Stored
import Provenance.Flow.Carrier
import Provenance.Proofs.Merging

namespace Provenance

/-! ## 1. Reading and writing -/

namespace Ty

theorem descriptorChars_of_primitive {c : Char} {t : Ty} (h : primitive? c = some t) :
    t.descriptorChars = [c] := by
  unfold primitive? at h
  split at h <;> cases h <;> rfl

/-- **The type at the front of a text** is written as what was read of it. -/
theorem eq_of_scan : ∀ {cs rest : List Char} {t : Ty}, scan cs = .ok (t, rest) →
    cs = t.descriptorChars ++ rest
  | [], _, _, h => by cases h
  | c :: cs, rest, t, h => by
    unfold scan at h
    split at h
    · rename_i hc
      split at h
      · cases h
      · rename_i d rest' hdrop
        split at h
        · cases h
        · obtain ⟨rfl, rfl⟩ := Prod.mk.inj (Except.ok.inj h)
          have hd : d = ';' := by
            have hhead := List.head_dropWhile_not (p := (· ≠ ';')) (l := cs)
              (hdrop ▸ List.cons_ne_nil _ _)
            simpa only [hdrop, List.head_cons, decide_eq_false_iff_not, ne_eq,
              Decidable.not_not] using hhead
          have hsplit := List.takeWhile_append_dropWhile (p := (· ≠ ';')) (l := cs)
          rw [hdrop, hd] at hsplit
          simp only [descriptorChars, hc, String.toList_ofList, List.cons_append,
            List.append_assoc]
          exact congrArg ('L' :: ·) hsplit.symm
    · split at h
      · rename_i hc
        split at h
        · cases h
        · rename_i elem rest' hscan
          split at h
          · cases h
          · obtain ⟨rfl, rfl⟩ := Prod.mk.inj (Except.ok.inj h)
            rw [hc, eq_of_scan hscan]
            rfl
      · split at h
        · rename_i t' hprim
          obtain ⟨rfl, rfl⟩ := Prod.mk.inj (Except.ok.inj h)
          rw [descriptorChars_of_primitive hprim]
          rfl
        · cases h

theorem eq_of_ofChars {cs : List Char} {t : Ty} (h : ofChars cs = .ok t) :
    cs = t.descriptorChars := by
  unfold ofChars at h
  split at h
  · cases h
  · rename_i t' rest hscan
    split at h
    · rename_i hrest
      obtain rfl := Except.ok.inj h
      rw [eq_of_scan hscan, List.isEmpty_iff.mp hrest, List.append_nil]
    · cases h

end Ty

namespace MethodDesc

theorem eq_of_scanParams : ∀ {fuel : Nat} {cs rest : List Char} {ts : List Ty},
    scanParams fuel cs = .ok (ts, rest) → cs = ts.flatMap Ty.descriptorChars ++ ')' :: rest
  | 0, _, _, _, h => by cases h
  | fuel + 1, cs, rest, ts, h => by
    unfold scanParams at h
    split at h
    · obtain ⟨rfl, rfl⟩ := Prod.mk.inj (Except.ok.inj h)
      rfl
    · split at h
      · cases h
      · rename_i t rest₁ hscan
        split at h
        · cases h
        · split at h
          · cases h
          · rename_i ts' rest₂ hparams
            obtain ⟨rfl, rfl⟩ := Prod.mk.inj (Except.ok.inj h)
            rw [Ty.eq_of_scan hscan, eq_of_scanParams hparams, List.flatMap_cons, List.append_assoc]

/-- **A descriptor that was read** is written as the text it was read from. -/
theorem descriptor_of_parse {text : String} {d : MethodDesc} (h : parse text = .ok d) :
    d.descriptor = text := by
  have hchars : text.toList = d.descriptorChars := by
    unfold parse ofChars at h
    split at h
    · rename_i cs hcs
      split at h
      · cases h
      · rename_i params rest hparams
        split at h
        · cases h
        · rename_i ret hret
          obtain rfl := Except.ok.inj h
          rw [hcs, eq_of_scanParams hparams, Ty.eq_of_ofChars hret]
          rfl
    · cases h
  rw [descriptor, ← hchars, String.ofList_toList]

/-- Whether there is a text from which a descriptor was read. -/
def WasRead (d : MethodDesc) : Prop := ∃ text, parse text = .ok d

/-- A descriptor that was read is told by its text. -/
theorem WasRead.eq {d e : MethodDesc} {text : String} (h : d.WasRead) (hd : d.descriptor = text)
    (he : parse text = .ok e) : d = e := by
  obtain ⟨text', h⟩ := h
  rw [← hd, descriptor_of_parse h] at he
  exact Except.ok.inj (h.symm.trans he)

end MethodDesc

/-! ## 2. Calls that weaving treats in a way of their own -/

/-- A call that is made as the one is that it is known as by its name, if it is known. -/
structure MethodRef.MadeAsNamed (m : MethodRef) : Prop where
  arrayCopy : Carrier.isArrayCopy m = true → m.kind = .static
  charAt : Carrier.isCharAt m = true → m.kind ≠ .static
  clone : (Carrier.clonedArray? m).isSome → m.kind ≠ .static ∧ m.desc.ret ≠ .void

/-- Such a call with a descriptor that was read. -/
structure MethodRef.Regular (m : MethodRef) : Prop extends m.MadeAsNamed where
  read : m.desc.WasRead

namespace MethodRef

variable {m : MethodRef}

theorem hasReceiver_of_ne (h : m.kind ≠ .static) : m.hasReceiver = true := by
  simpa [hasReceiver] using h

/-- **The bulk copy** takes five operands and leaves nothing. -/
theorem Regular.arrayCopy_effect (h : m.Regular) (hcopy : Carrier.isArrayCopy m = true) :
    m.operandCount = 5 ∧ m.desc.ret = .void := by
  have hkind := h.arrayCopy hcopy
  simp only [Carrier.isArrayCopy, Bool.and_eq_true, decide_eq_true_eq] at hcopy
  have hparse : MethodDesc.parse Carrier.arrayCopyDescriptor =
      .ok ⟨[.object Ty.objectClass, .int, .object Ty.objectClass, .int, .int], .void⟩ := by rfl
  have hdesc := h.read.eq hcopy.2 hparse
  simp [operandCount, hasReceiver, hkind, hdesc]

/-- **Reading a character out of a string** takes the string and an index. -/
theorem Regular.charAt_operandCount (h : m.Regular) (hchar : Carrier.isCharAt m = true) :
    m.operandCount = 2 := by
  have hreceiver := hasReceiver_of_ne (h.charAt hchar)
  simp only [Carrier.isCharAt, Bool.and_eq_true, decide_eq_true_eq] at hchar
  have hparse : MethodDesc.parse "(I)C" = .ok ⟨[.int], .char⟩ := by rfl
  have hdesc := h.read.eq hchar.2 hparse
  simp [operandCount, hreceiver, hdesc]

/-- **Cloning an array** takes the array. -/
theorem Regular.clone_operandCount (h : m.Regular) (hclone : (Carrier.clonedArray? m).isSome) :
    m.operandCount = 1 := by
  have hreceiver := hasReceiver_of_ne (h.clone hclone).1
  have hparams : m.desc.params = [] := by
    unfold Carrier.clonedArray? at hclone
    split at hclone
    · rename_i hcond
      simp only [Bool.and_eq_true, List.isEmpty_iff] at hcond
      exact hcond.1.2
    · exact absurd hclone (by simp)
  simp [operandCount, hreceiver, hparams]

end MethodRef

/-! ## 3. Methods that were decoded -/

theorem MethodRef.wasRead_of_decode {j : Json} {target : MethodRef}
    (h : MethodRef.decode? j = some target) : target.desc.WasRead := by
  unfold MethodRef.decode? at h
  obtain ⟨fields, -, h⟩ := Option.bind_eq_some_iff.mp h
  split at h
  · simp only [Option.bind_eq_bind, Option.bind_eq_some_iff, Option.some.injEq] at h
    obtain ⟨_, -, _, -, _, -, desc, hdesc, rfl⟩ := h
    obtain ⟨text, -, hparse⟩ := Option.bind_eq_some_iff.mp hdesc
    refine ⟨text, ?_⟩
    cases hp : MethodDesc.parse text with
    | error e => simp [hp, Except.toOption] at hparse
    | ok d => rw [hp] at hparse; exact congrArg Except.ok (Option.some.inj hparse)
  · exact absurd h (by simp)

theorem Insn.wasRead_of_decode {j : Json} {target : MethodRef}
    (h : Insn.decode? j = some (.invoke target)) : target.desc.WasRead := by
  unfold Insn.decode? at h
  obtain ⟨⟨tag, payload⟩, -, h⟩ := Option.bind_eq_some_iff.mp h
  simp only at h
  split at h
  · rename_i i hbare
    obtain ⟨_, -, rfl⟩ := Option.map_eq_some_iff.mp h
    exact absurd (mem_of_lookup hbare) (by simp [Insn.bare])
  · obtain ⟨p, -, h⟩ := Option.bind_eq_some_iff.mp h
    unfold Insn.decodeLoaded? at h
    split at h
    case h_12 =>
      obtain ⟨_, hdecode, hsame⟩ := Option.map_eq_some_iff.mp h
      exact Insn.invoke.inj hsame ▸ MethodRef.wasRead_of_decode hdecode
    case h_10 | h_11 =>
      obtain ⟨fields, -, h⟩ := Option.bind_eq_some_iff.mp h
      split at h
      · simp [Option.bind_eq_some_iff] at h
      · exact absurd h (by simp)
    all_goals simp [Option.map_eq_some_iff] at h

/-- What stands in a list that was decoded was decoded. -/
theorem exists_of_mapM {α β : Type} {f : α → Option β} : ∀ {items : List α} {bs : List β} {b : β},
    items.mapM f = some bs → b ∈ bs → ∃ a, f a = some b
  | [], bs, b, h, hb => by
    obtain rfl : [] = bs := by simpa using h
    exact absurd hb List.not_mem_nil
  | a :: items, bs, b, h, hb => by
    rw [List.mapM_cons] at h
    obtain ⟨b', hb', h⟩ := Option.bind_eq_some_iff.mp h
    obtain ⟨bs', hbs', h⟩ := Option.bind_eq_some_iff.mp h
    obtain rfl : b' :: bs' = bs := Option.some.inj h
    rcases List.mem_cons.mp hb with rfl | hb
    · exact ⟨a, hb'⟩
    · exact exists_of_mapM hbs' hb

/-- **The calls of a method that was decoded** have descriptors that were read. -/
theorem Method.calls_of_decode {j : Json} {m : Method} (h : Method.decode? j = some m) :
    ∀ target, .invoke target ∈ m.insns → target.desc.WasRead := by
  intro target htarget
  unfold Method.decode? at h
  obtain ⟨fields, -, h⟩ := Option.bind_eq_some_iff.mp h
  split at h
  · simp only [Option.bind_eq_bind, Option.bind_eq_some_iff, Option.some.injEq] at h
    obtain ⟨_, -, _, -, _, -, _, -, _, -, _, -, insns, hinsns, rfl⟩ := h
    unfold Json.asList? at hinsns
    split at hinsns
    · obtain ⟨j, hj⟩ := exists_of_mapM hinsns htarget
      exact Insn.wasRead_of_decode hj
    · exact absurd hinsns (by simp)
  · exact absurd h (by simp)

end Provenance
