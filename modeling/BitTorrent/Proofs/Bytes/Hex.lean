import BitTorrent.Bytes.BigEndian
import BitTorrent.Bytes.Hex
import Mathlib.Algebra.Group.Nat.Defs

/-! Hexadecimal text. A text is read exactly if it consists of digits, of either case, in pairs, and
what was read is written as the same text in lower case. The bytes are those of the number that
the digits write in base sixteen. -/

namespace BitTorrent.Hex

/-! ### Digits -/

/-- A digit of either case. -/
def IsDigit (c : Char) : Prop := c ∈ "0123456789abcdefABCDEF".toList

instance : DecidablePred IsDigit := fun _ => inferInstanceAs (Decidable (_ ∈ _))

/-- The lower-case digits, each at the place of its value. -/
def lowerDigits : List Char := "0123456789abcdef".toList

theorem toNat_lt_of_digitValue? {c : Char} {n : Nat} (h : digitValue? c = some n) :
    c.toNat < 128 := by
  refine Nat.not_le.mp fun hc => ?_
  have hnot {d : Char} (hd : d.toNat < 128) : ¬c ≤ d :=
    fun hcd => Nat.not_lt.mpr hc (Nat.lt_of_le_of_lt hcd hd)
  have h9 := hnot (d := '9') (by decide)
  have hf := hnot (d := 'f') (by decide)
  have hF := hnot (d := 'F') (by decide)
  simp [digitValue?, h9, hf, hF] at h

theorem toNat_lt_of_toLower {c : Char} {n : Nat} (hn : n < 16) (h : c.toLower = digit n) :
    c.toNat < 128 := by
  have hdigit : ∀ n < 16, (digit n).toNat < 128 := by decide
  by_cases hupper : c.val ≥ 'A'.val ∧ c.val ≤ 'Z'.val
  · exact Nat.lt_of_le_of_lt hupper.2 (by decide)
  · have hsame : c.toLower = c := dif_neg hupper
    rw [← hsame, h]
    exact hdigit n hn

/-- A character is a digit if it is one in lower case. -/
theorem digitValue?_eq_some_iff {c : Char} {n : Nat} :
    digitValue? c = some n ↔ n < 16 ∧ c.toLower = digit n := by
  constructor
  · intro h
    have : ∀ k < 128, ∀ n ∈ digitValue? (Char.ofNat k),
        n < 16 ∧ (Char.ofNat k).toLower = digit n := by
      decide +kernel
    have hc := this c.toNat (toNat_lt_of_digitValue? h)
    rw [Char.ofNat_toNat] at hc
    exact hc n h
  · rintro ⟨hn, h⟩
    have : ∀ k < 128, ∀ n < 16, (Char.ofNat k).toLower = digit n →
        digitValue? (Char.ofNat k) = some n := by
      decide +kernel
    have hc := this c.toNat (toNat_lt_of_toLower hn h) n hn
    rw [Char.ofNat_toNat] at hc
    exact hc h

theorem isDigit_iff {c : Char} : IsDigit c ↔ ∃ n, digitValue? c = some n := by
  rw [← Option.isSome_iff_exists]
  constructor
  · have : "0123456789abcdefABCDEF".toList.all fun c => (digitValue? c).isSome := by decide
    exact List.all_eq_true.mp this c
  · intro h
    obtain ⟨n, hn⟩ := Option.isSome_iff_exists.mp h
    have : ∀ k < 128, (digitValue? (Char.ofNat k)).isSome → IsDigit (Char.ofNat k) := by
      decide +kernel
    have hc := this c.toNat (toNat_lt_of_digitValue? hn)
    rw [Char.ofNat_toNat] at hc
    exact hc h

theorem idxOf_digit {n : Nat} (hn : n < 16) : lowerDigits.idxOf (digit n) = n := by
  revert n
  decide

theorem toLower_digit {n : Nat} (hn : n < 16) : (digit n).toLower = digit n := by
  revert n
  decide

/-! ### Bytes -/

theorem toNat_ofNat_mul_add {hi lo : Nat} (hhi : hi < 16) (hlo : lo < 16) :
    (UInt8.ofNat (16 * hi + lo)).toNat = 16 * hi + lo :=
  UInt8.toNat_ofNat_of_lt (show 16 * hi + lo < 256 by omega)

theorem ofByte_ofNat {hi lo : Nat} (hhi : hi < 16) (hlo : lo < 16) :
    ofByte (UInt8.ofNat (16 * hi + lo)) = [digit hi, digit lo] := by
  have hdiv : (16 * hi + lo) / 16 = hi := by omega
  have hmod : (16 * hi + lo) % 16 = lo := by omega
  rw [ofByte, toNat_ofNat_mul_add hhi hlo, hdiv, hmod]

/-- Every byte is made of two digits. -/
theorem exists_digits (b : UInt8) : ∃ hi < 16, ∃ lo < 16, b = UInt8.ofNat (16 * hi + lo) := by
  have hlt := b.toNat_lt
  refine ⟨b.toNat / 16, by omega, b.toNat % 16, by omega, ?_⟩
  rw [Nat.div_add_mod, UInt8.ofNat_toNat]

theorem length_flatMap_ofByte (bs : Bytes) : (bs.flatMap ofByte).length = 2 * bs.length := by
  induction bs with
  | nil => rfl
  | cons b bs ih =>
    rw [List.flatMap_cons, List.length_append, ih, List.length_cons]
    show 2 + 2 * bs.length = 2 * (bs.length + 1)
    omega

theorem map_toLower_flatMap_ofByte (bs : Bytes) :
    (bs.flatMap ofByte).map Char.toLower = bs.flatMap ofByte := by
  induction bs with
  | nil => rfl
  | cons b bs ih =>
    obtain ⟨hi, hhi, lo, hlo, rfl⟩ := exists_digits b
    rw [List.flatMap_cons, List.map_append, ih, ofByte_ofNat hhi hlo, List.map_cons, List.map_cons,
      toLower_digit hhi, toLower_digit hlo, List.map_nil]

/-! ### Texts -/

theorem decodeChars?_cons_cons {a b : Char} {cs : List Char} {bs : Bytes} :
    decodeChars? (a :: b :: cs) = some bs ↔ ∃ hi lo rest, digitValue? a = some hi ∧
      digitValue? b = some lo ∧ decodeChars? cs = some rest ∧
      UInt8.ofNat (16 * hi + lo) :: rest = bs := by
  simp [decodeChars?, Option.bind_eq_some_iff]

/-- Bytes are read from the digits that are written for them, in either case. -/
theorem decodeChars?_eq_some_iff {cs : List Char} {bs : Bytes} :
    decodeChars? cs = some bs ↔ cs.map Char.toLower = bs.flatMap ofByte := by
  induction cs using decodeChars?.induct generalizing bs with
  | case1 => cases bs <;> simp [decodeChars?, ofByte]
  | case2 c =>
    refine ⟨nofun, fun h => ?_⟩
    have hlen := congrArg List.length h
    rw [List.length_map, List.length_singleton, length_flatMap_ofByte] at hlen
    omega
  | case3 a b cs ih =>
    rw [decodeChars?_cons_cons]
    constructor
    · rintro ⟨hi, lo, rest, ha, hb, hrest, rfl⟩
      obtain ⟨hhi, ha⟩ := digitValue?_eq_some_iff.mp ha
      obtain ⟨hlo, hb⟩ := digitValue?_eq_some_iff.mp hb
      rw [List.flatMap_cons, ofByte_ofNat hhi hlo, ← ih.mp hrest, ← ha, ← hb]
      rfl
    · intro h
      cases bs with
      | nil => cases h
      | cons byte rest =>
        obtain ⟨hi, hhi, lo, hlo, rfl⟩ := exists_digits byte
        rw [List.flatMap_cons, ofByte_ofNat hhi hlo] at h
        obtain ⟨ha, hb, hrest⟩ : a.toLower = digit hi ∧ b.toLower = digit lo ∧
            cs.map Char.toLower = rest.flatMap ofByte := by simpa using h
        exact ⟨hi, lo, rest, digitValue?_eq_some_iff.mpr ⟨hhi, ha⟩,
          digitValue?_eq_some_iff.mpr ⟨hlo, hb⟩, ih.mpr hrest, rfl⟩

/-- Whatever digits stand in pairs can be read. -/
theorem exists_decodeChars?_iff {cs : List Char} :
    (∃ bs, decodeChars? cs = some bs) ↔ 2 ∣ cs.length ∧ ∀ c ∈ cs, IsDigit c := by
  induction cs using decodeChars?.induct with
  | case1 => simp [decodeChars?]
  | case2 c => simp [decodeChars?]
  | case3 a b cs ih =>
    simp only [decodeChars?_cons_cons, List.forall_mem_cons, isDigit_iff, List.length_cons]
    constructor
    · rintro ⟨bs, hi, lo, rest, ha, hb, hrest, -⟩
      obtain ⟨hlen, hcs⟩ := ih.mp ⟨rest, hrest⟩
      exact ⟨by omega, ⟨hi, ha⟩, ⟨lo, hb⟩, fun c hc => isDigit_iff.mp (hcs c hc)⟩
    · rintro ⟨hlen, ⟨hi, ha⟩, ⟨lo, hb⟩, hcs⟩
      obtain ⟨rest, hrest⟩ := ih.mpr ⟨by omega, fun c hc => isDigit_iff.mpr (hcs c hc)⟩
      exact ⟨_, hi, lo, rest, ha, hb, hrest, rfl⟩

/-! ### Numbers -/

/-- The number that digits write in base sixteen. -/
def number (cs : List Char) : Nat :=
  cs.foldl (fun n c => 16 * n + lowerDigits.idxOf c.toLower) 0

theorem foldl_flatMap_ofByte (n : Nat) (bs : Bytes) :
    (bs.flatMap ofByte).foldl (fun n c => 16 * n + lowerDigits.idxOf c) n =
      bs.foldl (fun n b => 256 * n + b.toNat) n := by
  induction bs generalizing n with
  | nil => rfl
  | cons b bs ih =>
    obtain ⟨hi, hhi, lo, hlo, rfl⟩ := exists_digits b
    have hstep : 16 * (16 * n + hi) + lo = 256 * n + (16 * hi + lo) := by omega
    rw [List.flatMap_cons, List.foldl_append, ih, ofByte_ofNat hhi hlo]
    simp only [List.foldl_cons, List.foldl_nil, idxOf_digit hhi, idxOf_digit hlo, hstep,
      toNat_ofNat_mul_add hhi hlo]

theorem number_of_decodeChars? {cs : List Char} {bs : Bytes} (h : decodeChars? cs = some bs) :
    number cs = BigEndian.decode bs := by
  have hlower : number cs =
      (cs.map Char.toLower).foldl (fun n c => 16 * n + lowerDigits.idxOf c) 0 := by
    rw [List.foldl_map, number]
  rw [hlower, decodeChars?_eq_some_iff.mp h]
  exact foldl_flatMap_ofByte 0 bs

end BitTorrent.Hex
