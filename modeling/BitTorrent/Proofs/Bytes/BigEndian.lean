import BitTorrent.Bytes.BigEndian
import Mathlib.Algebra.Group.Nat.Defs

/-! Fixed-width numbers are read back as the number modulo their range, and the number that
bytes make is written as these bytes. -/

namespace BitTorrent.BigEndian

theorem foldl_digits (bs : Bytes) (n : Nat) :
    bs.foldl (fun n b => 256 * n + b.toNat) n = 256 ^ bs.length * n + decode bs := by
  unfold decode
  induction bs generalizing n with
  | nil => simp
  | cons b bs ih =>
    rw [List.foldl_cons, List.foldl_cons, ih (256 * n + b.toNat), ih (256 * 0 + b.toNat),
      List.length_cons, Nat.pow_succ, Nat.mul_zero, Nat.zero_add, Nat.mul_add, Nat.mul_assoc,
      Nat.add_assoc]

theorem decode_cons (b : UInt8) (bs : Bytes) :
    decode (b :: bs) = 256 ^ bs.length * b.toNat + decode bs := by
  rw [decode, List.foldl_cons, Nat.mul_zero, Nat.zero_add, foldl_digits]

theorem decode_encode_mod (w n : Nat) : decode (encode w n) = n % 256 ^ w := by
  induction w with
  | zero => rw [Nat.pow_zero, Nat.mod_one]; rfl
  | succ w ih =>
    have hdigit : (UInt8.ofNat (n / Nat.pow 256 w)).toNat = n / 256 ^ w % 256 := UInt8.toNat_ofNat
    rw [encode, decode_cons, length_encode, hdigit, ih, Nat.pow_succ, Nat.mod_mul, Nat.add_comm]

theorem decode_encode {w n : Nat} (h : n < 256 ^ w) : decode (encode w n) = n := by
  rw [decode_encode_mod, Nat.mod_eq_of_lt h]

theorem decode_lt (bs : Bytes) : decode bs < 256 ^ bs.length := by
  induction bs with
  | nil => exact Nat.one_pos
  | cons b bs ih =>
    have hb : 256 ^ bs.length * b.toNat ≤ 256 ^ bs.length * 255 :=
      Nat.mul_le_mul_left _ (Nat.le_of_lt_succ b.toNat_lt)
    rw [decode_cons, List.length_cons, Nat.pow_succ]
    omega

/-- What is above the width of a number is not written. -/
theorem encode_mul_add (w k n : Nat) : encode w (256 ^ w * k + n) = encode w n := by
  induction w generalizing k with
  | zero => rfl
  | succ w ih =>
    have hk : 256 ^ (w + 1) * k + n = 256 ^ w * (256 * k) + n := by
      rw [Nat.pow_succ, Nat.mul_assoc]
    have hdigit : (256 ^ w * (256 * k) + n) / Nat.pow 256 w = 256 * k + n / 256 ^ w :=
      Nat.mul_add_div (Nat.pow_pos (by decide)) (256 * k) n
    have hbyte : UInt8.ofNat (256 * k + n / 256 ^ w) = UInt8.ofNat (n / 256 ^ w) := by
      apply UInt8.toNat.inj
      simp only [UInt8.toNat_ofNat', Nat.mul_add_mod]
    rw [hk, encode, hdigit, hbyte, ih]
    rfl

theorem encode_decode (bs : Bytes) : encode bs.length (decode bs) = bs := by
  induction bs with
  | nil => rfl
  | cons b bs ih =>
    have hdigit : (256 ^ bs.length * b.toNat + decode bs) / Nat.pow 256 bs.length = b.toNat := by
      refine (Nat.mul_add_div (Nat.pow_pos (by decide)) b.toNat (decode bs)).trans ?_
      rw [Nat.div_eq_of_lt (decode_lt bs), Nat.add_zero]
    rw [decode_cons, List.length_cons, encode, hdigit, encode_mul_add, ih, UInt8.ofNat_toNat]

end BitTorrent.BigEndian
