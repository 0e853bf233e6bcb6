import BitTorrent.Bytes.Percent

/-! Percent encoding and decoding. The encodings are the texts of unreserved characters and of
escapes of all other bytes, so nothing in one parts a query, and each is decoded to the bytes
that were encoded, whatever stands behind it. -/

namespace BitTorrent.Percent

/-! ### Decoding -/

/-- The bytes that a text stands for: an escape is one byte, any other character its UTF-8 bytes.
There are none if a `%` is not followed by two digits. -/
def decode? : List Char → Option Bytes
  | [] => some []
  | '%' :: h :: l :: cs => do
    let hi ← Hex.digitValue? h
    let lo ← Hex.digitValue? l
    let bs ← decode? cs
    return UInt8.ofNat (16 * hi + lo) :: bs
  | c :: cs => if c = '%' then none else (decode? cs).map (String.utf8EncodeChar c ++ ·)

theorem decode?_cons_of_ne {c : Char} (h : c ≠ '%') (cs : List Char) :
    decode? (c :: cs) = (decode? cs).map (String.utf8EncodeChar c ++ ·) := by
  rw [decode?]
  · exact if_neg h
  · intro _ _ _ heq
    exact absurd heq h

/-! ### Characters -/

/-- Letters, digits and four signs stand for themselves. -/
def Unreserved (c : Char) : Prop :=
  '0' ≤ c ∧ c ≤ '9' ∨ 'A' ≤ c ∧ c ≤ 'Z' ∨ 'a' ≤ c ∧ c ≤ 'z' ∨ c ∈ ['-', '_', '.', '~']

instance : DecidablePred Unreserved := fun _ => inferInstanceAs (Decidable (_ ∨ _))

/-- The digits of an escape, each at the place of its value. -/
def upperDigits : List Char := "0123456789ABCDEF".toList

theorem Unreserved.toNat_lt {c : Char} (h : Unreserved c) : c.toNat < 256 := by
  rcases h with ⟨-, h⟩ | ⟨-, h⟩ | ⟨-, h⟩ | h
  · exact Nat.lt_of_le_of_lt h (by decide)
  · exact Nat.lt_of_le_of_lt h (by decide)
  · exact Nat.lt_of_le_of_lt h (by decide)
  · simp only [List.mem_cons, List.not_mem_nil, or_false] at h
    rcases h with rfl | rfl | rfl | rfl <;> decide

theorem exists_byte {c : Char} (h : Unreserved c) : ∃ b : UInt8, Char.ofNat b.toNat = c := by
  have hbyte : (UInt8.ofNat c.toNat).toNat = c.toNat := Nat.mod_eq_of_lt h.toNat_lt
  exact ⟨UInt8.ofNat c.toNat, by rw [hbyte, Char.ofNat_toNat]⟩

theorem isUnreserved_iff (b : UInt8) : isUnreserved b ↔ Unreserved (Char.ofNat b.toNat) := by
  have : ∀ n < 256, isUnreserved (UInt8.ofNat n) = decide (Unreserved (Char.ofNat n)) := by
    decide +kernel
  have hb := this b.toNat b.toNat_lt
  rw [UInt8.ofNat_toNat] at hb
  simp [hb]

/-- An unreserved character is a single byte. -/
theorem utf8EncodeChar_of_unreserved {b : UInt8} (h : Unreserved (Char.ofNat b.toNat)) :
    String.utf8EncodeChar (Char.ofNat b.toNat) = [b] := by
  have : ∀ n < 256, Unreserved (Char.ofNat n) →
      String.utf8EncodeChar (Char.ofNat n) = [UInt8.ofNat n] := by decide +kernel
  simpa using this b.toNat b.toNat_lt h

/-- An unreserved character has no meaning in a query. -/
theorem not_unreserved {c : Char} (h : c ∈ ['%', '&', '=', '?', '#']) : ¬Unreserved c := by
  simp only [List.mem_cons, List.not_mem_nil, or_false] at h
  rcases h with rfl | rfl | rfl | rfl | rfl <;> decide

theorem getElem?_upperDigits {n : Nat} (h : n < 16) : upperDigits[n]? = some (upperDigit n) := by
  revert n
  decide

theorem lt_of_getElem?_upperDigits {n : Nat} {c : Char} (h : upperDigits[n]? = some c) : n < 16 :=
  (List.getElem?_eq_some_iff.mp h).1

theorem unreserved_of_getElem? {n : Nat} {c : Char} (h : upperDigits[n]? = some c) :
    Unreserved c := by
  have : ∀ n < 16, Unreserved (upperDigit n) := by decide
  have hn := lt_of_getElem?_upperDigits h
  rw [getElem?_upperDigits hn, Option.some.injEq] at h
  exact h ▸ this n hn

theorem digitValue?_upperDigit {n : Nat} (h : n < 16) :
    Hex.digitValue? (upperDigit n) = some n := by
  revert n
  decide

/-! ### Texts that are encodings -/

/-- Texts of unreserved characters and of escapes. An escape is a `%` and two upper-case digits, and
only for a byte that no unreserved character is. -/
inductive Escaped : List Char → Prop
  | nil : Escaped []
  | char {c : Char} {cs : List Char} (hc : Unreserved c) (hcs : Escaped cs) : Escaped (c :: cs)
  | escape {hi lo : Nat} {h l : Char} {cs : List Char} (hh : upperDigits[hi]? = some h)
      (hl : upperDigits[lo]? = some l) (hreserved : ¬Unreserved (Char.ofNat (16 * hi + lo)))
      (hcs : Escaped cs) : Escaped ('%' :: h :: l :: cs)

theorem ofByte_of_unreserved {b : UInt8} (h : Unreserved (Char.ofNat b.toNat)) :
    ofByte b = [Char.ofNat b.toNat] := if_pos ((isUnreserved_iff b).mpr h)

theorem ofByte_of_reserved {b : UInt8} (h : ¬Unreserved (Char.ofNat b.toNat)) :
    ofByte b = ['%', upperDigit (b.toNat / 16), upperDigit (b.toNat % 16)] :=
  if_neg (mt (isUnreserved_iff b).mp h)

theorem escaped_ofByte_append (b : UInt8) {cs : List Char} (hcs : Escaped cs) :
    Escaped (ofByte b ++ cs) := by
  by_cases h : Unreserved (Char.ofNat b.toNat)
  · rw [ofByte_of_unreserved h]
    exact .char h hcs
  · have hlt := b.toNat_lt
    have hhi := getElem?_upperDigits (n := b.toNat / 16) (by omega)
    have hlo := getElem?_upperDigits (n := b.toNat % 16) (by omega)
    rw [ofByte_of_reserved h]
    exact .escape hhi hlo (by rwa [Nat.div_add_mod]) hcs

theorem encodeChars_cons (b : UInt8) (bs : Bytes) :
    encodeChars (b :: bs) = ofByte b ++ encodeChars bs := rfl

@[simp] theorem toList_encode (bs : Bytes) : (encode bs).toList = encodeChars bs :=
  String.toList_ofList

theorem escaped_encodeChars (bs : Bytes) : Escaped (encodeChars bs) := by
  induction bs with
  | nil => exact .nil
  | cons b bs ih => exact escaped_ofByte_append b ih

/-- Every such text is the encoding of the bytes that it names one by one. -/
theorem Escaped.exists_encodeChars {cs : List Char} (h : Escaped cs) :
    ∃ bs, encodeChars bs = cs := by
  induction h with
  | nil => exact ⟨[], rfl⟩
  | char hc _ ih =>
    obtain ⟨b, rfl⟩ := exists_byte hc
    obtain ⟨bs, rfl⟩ := ih
    refine ⟨b :: bs, ?_⟩
    rw [encodeChars_cons, ofByte_of_unreserved hc]
    rfl
  | @escape hi lo _ _ _ hh hl hreserved _ ih =>
    obtain ⟨bs, rfl⟩ := ih
    have hhi := lt_of_getElem?_upperDigits hh
    have hlo := lt_of_getElem?_upperDigits hl
    have hbyte : (UInt8.ofNat (16 * hi + lo)).toNat = 16 * hi + lo :=
      UInt8.toNat_ofNat_of_lt (show 16 * hi + lo < 256 by omega)
    have hdiv : (16 * hi + lo) / 16 = hi := by omega
    have hmod : (16 * hi + lo) % 16 = lo := by omega
    simp only [getElem?_upperDigits hhi, getElem?_upperDigits hlo, Option.some.injEq] at hh hl
    refine ⟨UInt8.ofNat (16 * hi + lo) :: bs, ?_⟩
    rw [encodeChars_cons, ofByte_of_reserved (by rwa [hbyte]), hbyte, hdiv, hmod, hh, hl]
    rfl

theorem Escaped.mem {cs : List Char} (h : Escaped cs) : ∀ c ∈ cs, c = '%' ∨ Unreserved c := by
  induction h with
  | nil => simp
  | char hc _ ih => simpa [hc] using ih
  | escape hh hl _ _ ih => simpa [unreserved_of_getElem? hh, unreserved_of_getElem? hl] using ih

theorem notMem_encodeChars {c : Char} (h : c ∈ ['&', '=', '?', '#']) (bs : Bytes) :
    c ∉ encodeChars bs := by
  intro hc
  rcases (escaped_encodeChars bs).mem c hc with rfl | hc
  · revert h
    decide
  · exact not_unreserved (List.mem_cons_of_mem _ h) hc

/-! ### Round trip -/

theorem encode_append (as bs : Bytes) : encode (as ++ bs) = encode as ++ encode bs := by
  simp [encode, encodeChars, String.ofList_append]

theorem decode?_ofByte_append (b : UInt8) (cs : List Char) :
    decode? (ofByte b ++ cs) = (decode? cs).map (b :: ·) := by
  by_cases h : Unreserved (Char.ofNat b.toNat)
  · have hne : Char.ofNat b.toNat ≠ '%' := by
      intro heq
      exact not_unreserved List.mem_cons_self (heq ▸ h)
    rw [ofByte_of_unreserved h, List.singleton_append, decode?_cons_of_ne hne,
      utf8EncodeChar_of_unreserved h]
    rfl
  · have hlt := b.toNat_lt
    have hhi := digitValue?_upperDigit (n := b.toNat / 16) (by omega)
    have hlo := digitValue?_upperDigit (n := b.toNat % 16) (by omega)
    simp only [ofByte_of_reserved h, List.cons_append, List.nil_append, decode?, hhi, hlo]
    cases decode? cs with
    | none => rfl
    | some bs =>
      show some (UInt8.ofNat (16 * (b.toNat / 16) + b.toNat % 16) :: bs) = some (b :: bs)
      rw [Nat.div_add_mod, UInt8.ofNat_toNat]

theorem decode?_encodeChars_append (bs : Bytes) (cs : List Char) :
    decode? (encodeChars bs ++ cs) = (decode? cs).map (bs ++ ·) := by
  induction bs with
  | nil => simp [encodeChars]
  | cons b bs ih =>
    rw [encodeChars_cons, List.append_assoc, decode?_ofByte_append, ih, Option.map_map]
    rfl

theorem decode?_encodeChars (bs : Bytes) : decode? (encodeChars bs) = some bs := by
  have h := decode?_encodeChars_append bs []
  simpa [decode?] using h

/-- The encodings are the texts of unreserved characters and of escapes in upper case, no byte
being escaped that needs not be. Whatever bytes are encoded, even a `%` with two digits behind it,
decoding gives them back, so that no two byte strings have one encoding; and the encodings of two
strings make up that of both together. -/
theorem encode_readBack :
    (∀ text : String, (∃ bs, encode bs = text) ↔ Escaped text.toList) ∧
    (∀ bs, Escaped (encode bs).toList ∧ decode? (encode bs).toList = some bs) ∧
    Function.Injective encode ∧ ∀ as bs, encode (as ++ bs) = encode as ++ encode bs := by
  have hread : ∀ bs, Escaped (encode bs).toList ∧ decode? (encode bs).toList = some bs := by
    intro bs
    rw [toList_encode]
    exact ⟨escaped_encodeChars bs, decode?_encodeChars bs⟩
  refine ⟨?_, hread, ?_, encode_append⟩
  · intro text
    constructor
    · rintro ⟨bs, rfl⟩
      exact (hread bs).1
    · intro h
      obtain ⟨bs, hbs⟩ := h.exists_encodeChars
      exact ⟨bs, by rw [encode, hbs, String.ofList_toList]⟩
  · intro as bs h
    have has := (hread as).2
    rw [h, (hread bs).2] at has
    exact (Option.some.inj has).symm

example : encode (Bytes.ofText "%41") = "%2541" := by decide +kernel

end BitTorrent.Percent
