/-
# A text is read back from its bytes

What `Utf8.encode` writes is read back character by character (`Utf8.next_encode`), whatever bytes
follow.  So a text is known from its bytes (`Utf8.encode_injective`), and a character that begins at
some byte of a content is found there whatever else the content says (`Utf8.readAt_encode`).

A character takes one to four bytes, and each width has a first byte of its own; the cases below are
these widths.
-/
import Provenance.Text.Utf8

namespace Provenance.Utf8

/-! ## 1. First bytes and the bytes that follow them -/

theorem toNat_byte {n : Nat} (h : n < 256) : (UInt8.ofNat n).toNat = n := UInt8.toNat_ofNat_of_lt' h

/-- What a first byte says, by its number. -/
theorem lead_eq (b : UInt8) : lead b =
    if 0xC2 ≤ b.toNat ∧ b.toNat ≤ 0xDF then some (1, 0x80, 0xBF)
    else if b.toNat = 0xE0 then some (2, 0xA0, 0xBF)
    else if b.toNat = 0xED then some (2, 0x80, 0x9F)
    else if 0xE1 ≤ b.toNat ∧ b.toNat ≤ 0xEF then some (2, 0x80, 0xBF)
    else if b.toNat = 0xF0 then some (3, 0x90, 0xBF)
    else if 0xF1 ≤ b.toNat ∧ b.toNat ≤ 0xF3 then some (3, 0x80, 0xBF)
    else if b.toNat = 0xF4 then some (3, 0x80, 0x8F)
    else none := by
  simp only [lead, UInt8.le_iff_toNat_le, Bool.and_eq_true, decide_eq_true_eq, ← UInt8.toNat_inj]
  rfl

theorem tails_zero (low high : UInt8) (bs : List UInt8) : tails 0 low high bs = [] := by
  cases bs <;> rfl

/-- One more byte that may follow. -/
theorem tails_succ (n : Nat) {low high b : UInt8} (bs : List UInt8) (hlow : low.toNat ≤ b.toNat)
    (hhigh : b.toNat ≤ high.toNat) :
    tails (n + 1) low high (b :: bs) = b :: tails n 0x80 0xBF bs := by
  simp only [tails, UInt8.le_iff_toNat_le, hlow, hhigh, decide_true, Bool.and_self, if_true]

/-- A first byte and as many others as it asks for, read as one character. -/
theorem next_of_lead {b : UInt8} {rest tail : List UInt8} {count : Nat} {low high : UInt8}
    (hb : 0x80 ≤ b.toNat) (hlead : lead b = some (count, low, high))
    (htail : tails count low high rest = tail) (hlength : tail.length = count) :
    next b rest = (Char.ofNat (scalar b tail), 1 + count) := by
  have hlarge : ¬b < 0x80 := by
    rw [UInt8.lt_iff_toNat_lt]
    exact Nat.not_lt.mpr hb
  simp only [next, if_neg hlarge, hlead, htail, hlength, if_true]

/-! ## 2. Characters by their width -/

/-- A byte that may follow any first byte but four. -/
theorem tail_bounds (n : Nat) : (0x80 : UInt8).toNat ≤ (UInt8.ofNat (n % 64 + 128)).toNat ∧
    (UInt8.ofNat (n % 64 + 128)).toNat ≤ (0xBF : UInt8).toNat := by
  have hbyte : (UInt8.ofNat (n % 64 + 128)).toNat = n % 64 + 128 := toNat_byte (by omega)
  rw [hbyte]
  exact ⟨Nat.le_add_left _ _, (by omega : _ ≤ 191)⟩

theorem next_two {v : Nat} (hmin : 128 ≤ v) (hmax : v ≤ 2047) (rest : List UInt8) :
    next (UInt8.ofNat (v / 64 % 32 + 192)) (UInt8.ofNat (v % 64 + 128) :: rest) =
      (Char.ofNat v, 2) := by
  have hfirst : (UInt8.ofNat (v / 64 % 32 + 192)).toNat = v / 64 % 32 + 192 := toNat_byte (by omega)
  have hsecond : (UInt8.ofNat (v % 64 + 128)).toNat = v % 64 + 128 := toNat_byte (by omega)
  have hlead : lead (UInt8.ofNat (v / 64 % 32 + 192)) = some (1, 0x80, 0xBF) := by
    rw [lead_eq, hfirst, if_pos (by omega)]
  have hscalar : scalar (UInt8.ofNat (v / 64 % 32 + 192)) [UInt8.ofNat (v % 64 + 128)] = v := by
    simp only [scalar, List.length_singleton, List.foldl_cons, List.foldl_nil, hfirst, hsecond]
    omega
  obtain ⟨hlow, hhigh⟩ := tail_bounds v
  rw [next_of_lead (by omega) hlead (tails_succ 0 rest hlow hhigh) (by rw [tails_zero]; rfl),
    tails_zero, hscalar]

theorem next_three {v : Nat} (hmin : 2048 ≤ v) (hmax : v ≤ 65535) (hvalid : v < 0xD800 ∨ 0xDFFF < v)
    (rest : List UInt8) :
    next (UInt8.ofNat (v / 4096 % 16 + 224))
      (UInt8.ofNat (v / 64 % 64 + 128) :: UInt8.ofNat (v % 64 + 128) :: rest) =
        (Char.ofNat v, 3) := by
  have hfirst : (UInt8.ofNat (v / 4096 % 16 + 224)).toNat = v / 4096 % 16 + 224 :=
    toNat_byte (by omega)
  have hsecond : (UInt8.ofNat (v / 64 % 64 + 128)).toNat = v / 64 % 64 + 128 :=
    toNat_byte (by omega)
  have hthird : (UInt8.ofNat (v % 64 + 128)).toNat = v % 64 + 128 := toNat_byte (by omega)
  -- the two first bytes with bounds of their own leave out overlong forms and surrogates
  obtain ⟨low, high, hlead, hlow, hhigh⟩ : ∃ low high : UInt8,
      lead (UInt8.ofNat (v / 4096 % 16 + 224)) = some (2, low, high) ∧
      low.toNat ≤ v / 64 % 64 + 128 ∧ v / 64 % 64 + 128 ≤ high.toNat := by
    rw [lead_eq, hfirst, if_neg (by omega)]
    split
    · exact ⟨_, _, rfl, (by omega : 160 ≤ _), (by omega : _ ≤ 191)⟩
    split
    · exact ⟨_, _, rfl, (by omega : 128 ≤ _), (by omega : _ ≤ 159)⟩
    · rw [if_pos (by omega)]
      exact ⟨_, _, rfl, (by omega : 128 ≤ _), (by omega : _ ≤ 191)⟩
  have hscalar : scalar (UInt8.ofNat (v / 4096 % 16 + 224))
      [UInt8.ofNat (v / 64 % 64 + 128), UInt8.ofNat (v % 64 + 128)] = v := by
    simp only [scalar, List.length_cons, List.length_nil, List.foldl_cons, List.foldl_nil, hfirst,
      hsecond, hthird]
    omega
  obtain ⟨hlow', hhigh'⟩ := tail_bounds v
  rw [next_of_lead (by omega) hlead (tails_succ 1 _ (by rwa [hsecond]) (by rwa [hsecond]))
    (by rw [tails_succ 0 _ hlow' hhigh', tails_zero]; rfl), tails_succ 0 _ hlow' hhigh',
    tails_zero, hscalar]

theorem next_four {v : Nat} (hmin : 65536 ≤ v) (hmax : v < 0x110000) (rest : List UInt8) :
    next (UInt8.ofNat (v / 262144 % 8 + 240))
      (UInt8.ofNat (v / 4096 % 64 + 128) :: UInt8.ofNat (v / 64 % 64 + 128) ::
        UInt8.ofNat (v % 64 + 128) :: rest) = (Char.ofNat v, 4) := by
  have hfirst : (UInt8.ofNat (v / 262144 % 8 + 240)).toNat = v / 262144 % 8 + 240 :=
    toNat_byte (by omega)
  have hsecond : (UInt8.ofNat (v / 4096 % 64 + 128)).toNat = v / 4096 % 64 + 128 :=
    toNat_byte (by omega)
  have hthird : (UInt8.ofNat (v / 64 % 64 + 128)).toNat = v / 64 % 64 + 128 := toNat_byte (by omega)
  have hfourth : (UInt8.ofNat (v % 64 + 128)).toNat = v % 64 + 128 := toNat_byte (by omega)
  -- the bounds leave out overlong forms and what is past the last character
  obtain ⟨low, high, hlead, hlow, hhigh⟩ : ∃ low high : UInt8,
      lead (UInt8.ofNat (v / 262144 % 8 + 240)) = some (3, low, high) ∧
      low.toNat ≤ v / 4096 % 64 + 128 ∧ v / 4096 % 64 + 128 ≤ high.toNat := by
    rw [lead_eq, hfirst, if_neg (by omega), if_neg (by omega), if_neg (by omega), if_neg (by omega)]
    split
    · exact ⟨_, _, rfl, (by omega : 144 ≤ _), (by omega : _ ≤ 191)⟩
    split
    · exact ⟨_, _, rfl, (by omega : 128 ≤ _), (by omega : _ ≤ 191)⟩
    · rw [if_pos (by omega)]
      exact ⟨_, _, rfl, (by omega : 128 ≤ _), (by omega : _ ≤ 143)⟩
  have hscalar : scalar (UInt8.ofNat (v / 262144 % 8 + 240)) [UInt8.ofNat (v / 4096 % 64 + 128),
      UInt8.ofNat (v / 64 % 64 + 128), UInt8.ofNat (v % 64 + 128)] = v := by
    simp only [scalar, List.length_cons, List.length_nil, List.foldl_cons, List.foldl_nil, hfirst,
      hsecond, hthird, hfourth]
    omega
  obtain ⟨hlow', hhigh'⟩ := tail_bounds (v / 64)
  obtain ⟨hlow'', hhigh''⟩ := tail_bounds v
  rw [next_of_lead (by omega) hlead (tails_succ 2 _ (by rwa [hsecond]) (by rwa [hsecond]))
    (by rw [tails_succ 1 _ hlow' hhigh', tails_succ 0 _ hlow'' hhigh'', tails_zero]; rfl),
    tails_succ 1 _ hlow' hhigh', tails_succ 0 _ hlow'' hhigh'', tails_zero, hscalar]

/-- **A character is read back** from its bytes, whatever follows them. -/
theorem next_encode (c : Char) : ∃ b bs, String.utf8EncodeChar c = b :: bs ∧
    ∀ rest, next b (bs ++ rest) = (c, bs.length + 1) := by
  have hvalid : c.toNat < 0xD800 ∨ 0xDFFF < c.toNat ∧ c.toNat < 0x110000 := c.valid
  have hback : Char.ofNat c.toNat = c := Char.ofNat_toNat c
  unfold String.utf8EncodeChar
  simp only [show c.val.toNat = c.toNat from rfl]
  generalize c.toNat = v at hvalid hback ⊢
  split
  · refine ⟨_, [], rfl, fun rest => ?_⟩
    have hb : (UInt8.ofNat v).toNat = v := toNat_byte (by omega)
    have hsmall : UInt8.ofNat v < 0x80 := by
      rw [UInt8.lt_iff_toNat_lt, hb]
      exact (by omega : v < 128)
    simp only [next, if_pos hsmall, hb, hback]
    rfl
  split
  · exact ⟨_, _, rfl, fun rest => (next_two (by omega) (by omega) rest).trans (by rw [hback]; rfl)⟩
  split
  · exact ⟨_, _, rfl,
      fun rest => (next_three (by omega) (by omega) (by omega) rest).trans (by rw [hback]; rfl)⟩
  · exact ⟨_, _, rfl, fun rest => (next_four (by omega) (by omega) rest).trans (by rw [hback]; rfl)⟩

/-! ## 3. Texts -/

/-- **A text is read back** from its bytes. -/
theorem decodeSteps_encode : ∀ (cs : List Char) {fuel : Nat}, (encode cs).length ≤ fuel →
    decodeSteps fuel (encode cs) = cs := by
  intro cs
  induction cs with
  | nil =>
    intro fuel _
    cases fuel <;> rfl
  | cons c cs ih =>
    intro fuel hfuel
    obtain ⟨b, bs, hbytes, hnext⟩ := next_encode c
    rw [encode_cons, hbytes, List.cons_append, List.length_cons, List.length_append] at hfuel
    rw [encode_cons, hbytes, List.cons_append]
    cases fuel with
    | zero => omega
    | succ fuel =>
      simp only [decodeSteps, hnext, Nat.add_sub_cancel, List.drop_left]
      exact congrArg (c :: ·) (ih (by omega))

/-- **Texts with the same bytes are the same.** -/
theorem encode_injective {cs cs' : List Char} (h : encode cs = encode cs') : cs = cs' := by
  have hread := decodeSteps_encode cs (Nat.le_refl _)
  rw [h] at hread
  exact hread.symm.trans (decodeSteps_encode cs' (Nat.le_refl _))

/-! ## 4. Characters inside a content -/

/-- The character that begins at a byte of a content, and how many bytes it takes. -/
def readAt (content : List UInt8) (i : Nat) : Option (Char × Nat) :=
  match content.drop i with
  | [] => none
  | b :: rest => some (next b rest)

/-- What the bytes of a text go on with where a character begins. -/
theorem drop_encode {cs : List Char} {i : Nat} {c : Char} (hc : cs[i]? = some c)
    (behind : List UInt8) :
    (encode cs ++ behind).drop (byteLength (cs.take i)) =
      String.utf8EncodeChar c ++ (encode (cs.drop (i + 1)) ++ behind) := by
  obtain ⟨hi, rfl⟩ := List.getElem?_eq_some_iff.mp hc
  have hencode : encode cs = encode (cs.take i) ++ encode (cs.drop i) := by
    rw [← encode_append, List.take_append_drop]
  rw [hencode, List.append_assoc, byteLength, List.drop_append_length,
    List.drop_eq_getElem_cons hi, encode_cons, List.append_assoc]

/-- **A character of a text inside a content** begins as far on as the characters before it take. -/
theorem readAt_encode (front behind : List UInt8) {cs : List Char} {i : Nat} {c : Char}
    (hc : cs[i]? = some c) :
    readAt (front ++ (encode cs ++ behind)) (front.length + byteLength (cs.take i)) =
      some (c, (String.utf8EncodeChar c).length) := by
  obtain ⟨b, bs, hbytes, hnext⟩ := next_encode c
  rw [readAt, List.drop_length_add_append, drop_encode hc, hbytes]
  exact congrArg some (hnext _)

theorem length_utf8EncodeChar_ascii {c : Char} (hc : c.toNat < 128) :
    (String.utf8EncodeChar c).length = 1 := by
  have hval : c.val.toNat ≤ 127 := Nat.le_of_lt_succ hc
  unfold String.utf8EncodeChar
  simp only [if_pos hval, List.length_singleton]

/-- Characters of one byte each. -/
theorem byteLength_of_isAscii : ∀ {cs : List Char}, isAscii cs → byteLength cs = cs.length := by
  intro cs
  induction cs with
  | nil => exact fun _ => rfl
  | cons c cs ih =>
    intro hascii
    simp only [isAscii, List.all_cons, Bool.and_eq_true, decide_eq_true_eq] at hascii
    obtain ⟨hc, hcs⟩ := hascii
    have hrest := ih hcs
    simp only [byteLength, encode_cons, List.length_append, length_utf8EncodeChar_ascii hc,
      List.length_cons] at hrest ⊢
    omega

theorem isAscii_take {cs : List Char} (h : isAscii cs) (i : Nat) : isAscii (cs.take i) :=
  List.all_eq_true.mpr fun c hc => List.all_eq_true.mp h c (List.mem_of_mem_take hc)

end Provenance.Utf8
