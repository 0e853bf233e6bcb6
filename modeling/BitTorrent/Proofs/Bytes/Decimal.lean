import BitTorrent.Bytes.Decimal
import Mathlib.Algebra.Group.Nat.Defs
import Mathlib.Data.List.Induction

/-! What a run of decimal digits is worth. Bounded reading answers that number exactly when it is
below the bound, and the digits that are written for a number are worth it, without a superfluous
zero in front, and are the text of the number. Any run of digits is some zeros and the digits that
are written for its number. -/

namespace BitTorrent.Decimal

/-- The number that a run of digits writes, most significant first. -/
def number (digits : Bytes) : Nat := digits.foldl (fun n b => 10 * n + digitValue b) 0

theorem number_append_singleton (digits : Bytes) (b : UInt8) :
    number (digits ++ [b]) = 10 * number digits + digitValue b := by
  simp [number, List.foldl_append]

/-! ### Reading below a bound -/

theorem push_some (limit n d : Nat) :
    push limit (some n) d = if 10 * n + d < limit then some (10 * n + d) else none := rfl

theorem foldl_push_none (limit : Nat) (digits : Bytes) :
    digits.foldl (fun v b => push limit v (digitValue b)) none = none := by
  induction digits with
  | nil => rfl
  | cons b digits ih => exact ih

theorem le_foldl_digits (n : Nat) (digits : Bytes) :
    n ≤ digits.foldl (fun n b => 10 * n + digitValue b) n := by
  induction digits generalizing n with
  | nil => exact Nat.le_refl n
  | cons b digits ih => exact Nat.le_trans (by omega) (ih (10 * n + digitValue b))

/-- Once a number is at its bound, more digits do not bring it below. -/
theorem foldl_push_some {limit n : Nat} (hn : n < limit) (digits : Bytes) :
    digits.foldl (fun v b => push limit v (digitValue b)) (some n) =
      if digits.foldl (fun n b => 10 * n + digitValue b) n < limit then
        some (digits.foldl (fun n b => 10 * n + digitValue b) n)
      else none := by
  induction digits generalizing n with
  | nil => simp [hn]
  | cons b digits ih =>
    rw [List.foldl_cons, List.foldl_cons]
    by_cases hb : 10 * n + digitValue b < limit
    · rw [push_some, if_pos hb]
      exact ih hb
    · have := le_foldl_digits (10 * n + digitValue b) digits
      rw [push_some, if_neg hb, foldl_push_none, if_neg (by omega)]

theorem readBelow_eq {limit : Nat} (h : 0 < limit) (digits : Bytes) :
    readBelow limit digits = if number digits < limit then some (number digits) else none :=
  foldl_push_some h digits

theorem readBelow_eq_some_iff {limit n : Nat} (h : 0 < limit) {digits : Bytes} :
    readBelow limit digits = some n ↔ number digits = n ∧ n < limit := by
  rw [readBelow_eq h]
  split <;> simp <;> omega

/-! ### Writing -/

theorem toUInt8_digitChar {d : Nat} (h : d < 10) :
    isDigit (Nat.digitChar d).toUInt8 ∧ digitValue (Nat.digitChar d).toUInt8 = d := by
  have : ∀ d < 10,
      isDigit (Nat.digitChar d).toUInt8 ∧ digitValue (Nat.digitChar d).toUInt8 = d := by
    decide
  exact this d h

theorem ofNat_eq (n : Nat) :
    ofNat n = (if n < 10 then [] else ofNat (n / 10)) ++ [(Nat.digitChar (n % 10)).toUInt8] := by
  unfold ofNat Bytes.ofAscii
  rw [Nat.toDigits_eq_if (by omega)]
  split
  · rw [Nat.mod_eq_of_lt ‹_›]; rfl
  · simp

theorem ofNat_ne_nil (n : Nat) : ofNat n ≠ [] := by
  rw [ofNat_eq]
  simp

theorem isDigit_of_mem_ofNat {n : Nat} {b : UInt8} (h : b ∈ ofNat n) : isDigit b := by
  induction n using Nat.strongRecOn with
  | ind n ih =>
    rw [ofNat_eq, List.mem_append, List.mem_singleton] at h
    rcases h with h | rfl
    · split at h
      · cases h
      · exact ih (n / 10) (by omega) h
    · exact (toUInt8_digitChar (Nat.mod_lt n (by omega))).1

theorem number_ofNat (n : Nat) : number (ofNat n) = n := by
  induction n using Nat.strongRecOn with
  | ind n ih =>
    rw [ofNat_eq, number_append_singleton, (toUInt8_digitChar (Nat.mod_lt n (by omega))).2]
    split
    · simp only [number, List.foldl_nil]; omega
    · rw [ih (n / 10) (by omega)]; omega

theorem ofNat_inj {m n : Nat} (h : ofNat m = ofNat n) : m = n := by
  rw [← number_ofNat m, h, number_ofNat]

theorem ofInt_inj {i j : Int} (h : ofInt i = ofInt j) : i = j := by
  have hsign : ∀ m n, ofNat m ≠ 0x2d :: ofNat n := by
    intro m n heq
    have hminus : isDigit 0x2d := isDigit_of_mem_ofNat (heq ▸ List.mem_cons_self)
    exact absurd hminus (by decide)
  unfold ofInt at h
  split at h <;> split at h
  · have := ofNat_inj (List.tail_eq_of_cons_eq h)
    omega
  · exact absurd h.symm (hsign _ _)
  · exact absurd h (hsign _ _)
  · have := ofNat_inj h
    omega

theorem head?_ofNat {n : Nat} (hn : n ≠ 0) : (ofNat n).head? ≠ some 0x30 := by
  induction n using Nat.strongRecOn with
  | ind n ih =>
    rw [ofNat_eq]
    split
    · have : ∀ d < 10, d ≠ 0 → (Nat.digitChar d).toUInt8 ≠ 0x30 := by decide
      simpa using this (n % 10) (by omega) (by omega)
    · obtain ⟨b, bs, hb⟩ := List.exists_cons_of_ne_nil (ofNat_ne_nil (n / 10))
      have := ih (n / 10) (by omega) (by omega)
      rwa [hb] at this ⊢

/-- Only the number zero is written with a zero in front. -/
theorem ofNat_eq_zero_of_head? {n : Nat} (h : (ofNat n).head? = some 0x30) : ofNat n = [0x30] := by
  by_cases hn : n = 0
  · subst hn; rfl
  · exact absurd h (head?_ofNat hn)

/-! ### Text -/

theorem utf8EncodeChar_of_isDigit {c : Char} (h : c.isDigit) :
    String.utf8EncodeChar c = [c.toUInt8] := by
  have hrange : c.toNat ≤ 0x39 := by
    simp only [Char.isDigit, Bool.and_eq_true, decide_eq_true_eq] at h
    exact h.2
  have hsize : c.utf8Size = 1 := Char.utf8Size_eq_one_iff.mpr (by
    rw [UInt32.le_iff_toNat_le]
    exact Nat.le_trans hrange (by decide))
  exact String.utf8EncodeChar_eq_singleton hsize

theorem ofText_toString (n : Nat) : Bytes.ofText (toString n) = ofNat n := by
  have hdigits : ∀ c ∈ Nat.toDigits 10 n, String.utf8EncodeChar c = [c.toUInt8] := by
    intro c hc
    exact utf8EncodeChar_of_isDigit (Nat.isDigit_of_mem_toDigits (by decide) (by decide) hc)
  rw [Bytes.ofText, Nat.toString_eq_repr, Nat.toList_repr, List.flatMap_def,
    List.map_congr_left hdigits, ← List.flatMap_def, ← List.map_eq_flatMap]
  rfl

theorem ofText_toString_int (i : Int) : Bytes.ofText (toString i) = ofInt i := by
  cases i with
  | ofNat n => exact ofText_toString n
  | negSucc n =>
    have htext : toString (Int.negSucc n) = "-" ++ toString (n + 1) := rfl
    have hminus : Bytes.ofText "-" = [0x2d] := by decide
    rw [htext, Bytes.ofText_append, ofText_toString, hminus, ofInt, if_pos (Int.negSucc_lt_zero n)]
    rfl

theorem nat_of_ofText_eq {m n : Nat} (h : Bytes.ofText (toString m) = Bytes.ofText (toString n)) :
    m = n :=
  ofNat_inj (by rwa [ofText_toString, ofText_toString] at h)

theorem int_of_ofText_eq {i j : Int} (h : Bytes.ofText (toString i) = Bytes.ofText (toString j)) :
    i = j :=
  ofInt_inj (by rwa [ofText_toString_int, ofText_toString_int] at h)

/-! ### Superfluous zeros -/

theorem toUInt8_digitChar_digitValue {b : UInt8} (h : isDigit b) :
    digitValue b < 10 ∧ (Nat.digitChar (digitValue b)).toUInt8 = b := by
  have hdigit : ∀ d < 10, (Nat.digitChar d).toUInt8.toNat = 0x30 + d := by decide
  have hrange : 0x30 ≤ b.toNat ∧ b.toNat ≤ 0x39 := by
    simpa [isDigit, UInt8.le_iff_toNat_le] using h
  have hlt : digitValue b < 10 := by
    unfold digitValue
    omega
  refine ⟨hlt, UInt8.toNat.inj ?_⟩
  rw [hdigit _ hlt, digitValue]
  omega

/-- One more digit behind a number that is not zero. -/
theorem ofNat_mul_add {n d : Nat} (hn : n ≠ 0) (hd : d < 10) :
    ofNat (10 * n + d) = ofNat n ++ [(Nat.digitChar d).toUInt8] := by
  have hdiv : (10 * n + d) / 10 = n := by omega
  have hmod : (10 * n + d) % 10 = d := by omega
  rw [ofNat_eq, if_neg (by omega), hdiv, hmod]

/-- Digits are zeros and then what is written for their number, by induction from the last digit. -/
theorem exists_eq_zeros_append {digits : Bytes} (hne : digits ≠ [])
    (h : ∀ b ∈ digits, isDigit b) :
    ∃ k, digits = List.replicate k 0x30 ++ ofNat (number digits) := by
  induction digits using List.reverseRecOn with
  | nil => exact absurd rfl hne
  | append_singleton digits b ih =>
    obtain ⟨hdigits, hb⟩ := List.forall_mem_append.mp h
    obtain ⟨hlt, hwrite⟩ := toUInt8_digitChar_digitValue (hb b List.mem_cons_self)
    have hlast : ofNat (digitValue b) = [b] := by
      rw [ofNat_eq, if_pos hlt, Nat.mod_eq_of_lt hlt, hwrite, List.nil_append]
    rw [number_append_singleton]
    by_cases hnil : digits = []
    · subst hnil
      exact ⟨0, by simp [number, hlast]⟩
    · obtain ⟨k, hk⟩ := ih hnil hdigits
      by_cases hzero : number digits = 0
      · refine ⟨k + 1, ?_⟩
        rw [hzero] at hk ⊢
        rw [hk, Nat.mul_zero, Nat.zero_add, hlast, List.replicate_succ']
        rfl
      · refine ⟨k, ?_⟩
        rw [ofNat_mul_add hzero hlt, hwrite, ← List.append_assoc, ← hk]

end BitTorrent.Decimal
