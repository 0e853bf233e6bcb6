import BitTorrent.Wire.PieceSet

/-! Bits packed into bytes. A byte and a string of bytes are known by their bits, shifts and masks
are stated bit by bit, and the last byte is within its mask exactly if no spare bit is set. -/

namespace BitTorrent.Wire

/-! ### Bits of a byte -/

theorem shiftRight_and_one (b : UInt8) {k : Nat} (h : k < 8) :
    (b >>> UInt8.ofNat k &&& 1 == 1) = b.toNat.testBit k := by
  have hk : (UInt8.ofNat k).toNat = k :=
    UInt8.toNat_ofNat_of_lt (Nat.lt_of_lt_of_le h (by decide))
  rw [Nat.testBit_eq_decide_div_mod_eq, Bool.eq_iff_iff, beq_iff_eq, ← UInt8.toNat_inj,
    UInt8.toNat_and, UInt8.toNat_shiftRight, hk, Nat.mod_eq_of_lt h,
    Nat.shiftRight_eq_div_pow]
  simp

theorem testBit_one_shiftLeft {j k : Nat} (hj : j < 8) (hk : k < 8) :
    ((1 : UInt8) <<< UInt8.ofNat k).toNat.testBit j = decide (j = k) := by
  have : ∀ j < 8, ∀ k < 8,
      ((1 : UInt8) <<< UInt8.ofNat k).toNat.testBit j = decide (j = k) := by decide
  exact this j hj k hk

theorem testBit_complement (b : UInt8) {j : Nat} (h : j < 8) :
    (~~~b).toNat.testBit j = !b.toNat.testBit j := by
  have hnot : UInt8.size - 1 - b.toNat = 2 ^ 8 - (b.toNat + 1) := by
    simp only [UInt8.size]
    omega
  rw [UInt8.toNat_not, hnot, Nat.testBit_two_pow_sub_succ b.toNat_lt]
  simp [h]

theorem eq_of_testBit_eq {a b : UInt8} (h : ∀ k < 8, a.toNat.testBit k = b.toNat.testBit k) :
    a = b := by
  apply UInt8.toNat.inj
  apply Nat.eq_of_testBit_eq
  intro k
  by_cases hk : k < 8
  · exact h k hk
  · have hpow : 2 ^ 8 ≤ 2 ^ k := Nat.pow_le_pow_right (by decide) (by omega)
    rw [Nat.testBit_lt_two_pow (Nat.lt_of_lt_of_le a.toNat_lt hpow),
      Nat.testBit_lt_two_pow (Nat.lt_of_lt_of_le b.toNat_lt hpow)]

theorem and_complement_eq_zero_iff {a m : UInt8} :
    a &&& ~~~m = 0 ↔ ∀ k < 8, m.toNat.testBit k = false → a.toNat.testBit k = false := by
  constructor
  · intro h k hk hm
    have hbit : (a &&& ~~~m).toNat.testBit k = false := by
      rw [h]
      exact Nat.zero_testBit k
    rw [UInt8.toNat_and, Nat.testBit_and, testBit_complement m hk, hm] at hbit
    simpa using hbit
  · intro h
    apply eq_of_testBit_eq
    intro k hk
    rw [UInt8.toNat_and, Nat.testBit_and, testBit_complement m hk]
    cases hm : m.toNat.testBit k with
    | false => simp [h k hk hm]
    | true => simp

/-! ### Bits of a string -/

/-- The bit that stands for piece `i` in packed bytes; zero behind their end. -/
def bitAt (bs : Bytes) (i : Nat) : Bool := (bs.getD (i / 8) 0).toNat.testBit (7 - i % 8)

theorem bitAt_of_le {bs : Bytes} {i : Nat} (h : 8 * bs.length ≤ i) : bitAt bs i = false := by
  have hget : bs.getD (i / 8) 0 = 0 := by
    rw [List.getD_eq_getElem?_getD, List.getElem?_eq_none (by omega), Option.getD_none]
  rw [bitAt, hget]
  exact Nat.zero_testBit _

theorem bitAt_nil (i : Nat) : bitAt [] i = false := bitAt_of_le (Nat.zero_le i)

theorem bitAt_replicate (m : Nat) (b : UInt8) (i : Nat) :
    bitAt (List.replicate m b) i = (decide (i / 8 < m) && b.toNat.testBit (7 - i % 8)) := by
  simp only [bitAt, List.getD_eq_getElem?_getD, List.getElem?_replicate]
  by_cases hi : i / 8 < m
  · simp [hi]
  · simp [hi]

theorem bitAt_cons (b : UInt8) (bs : Bytes) (i : Nat) : bitAt (b :: bs) (8 + i) = bitAt bs i := by
  have hdiv : (8 + i) / 8 = i / 8 + 1 := by omega
  have hmod : (8 + i) % 8 = i % 8 := by omega
  rw [bitAt, bitAt, hdiv, hmod, List.getD_cons_succ]

theorem bitAt_modify (bs : Bytes) (f : UInt8 → UInt8) {k : Nat} (h : k < bs.length) (i : Nat) :
    bitAt (bs.modify k f) i =
      if i / 8 = k then (f (bs.getD k 0)).toNat.testBit (7 - i % 8) else bitAt bs i := by
  simp only [bitAt, List.getD_eq_getElem?_getD, List.getElem?_modify]
  split
  · rename_i hi
    subst hi
    simp [h]
  · rename_i hi
    simp [Ne.symm hi]

theorem unpack_eq (bs : Bytes) : unpack bs = (List.range (8 * bs.length)).map (bitAt bs) := by
  induction bs with
  | nil => rfl
  | cons b bs ih =>
    have hlength : 8 * (b :: bs).length = 8 + 8 * bs.length := by
      rw [List.length_cons]
      omega
    have hbits : (List.range 8).map (bitAt (b :: bs)) = bitsOf b := rfl
    have hrest : (List.range (8 * bs.length)).map (bitAt (b :: bs) ∘ (8 + ·)) = unpack bs := by
      rw [ih]
      exact List.map_congr_left fun i _ => bitAt_cons b bs i
    rw [hlength, List.range_add, List.map_append, List.map_map, hbits, hrest]
    rfl

/-- Strings of one length with the same bits are equal. -/
theorem eq_of_bitAt_eq {as bs : Bytes} (hlength : as.length = bs.length)
    (h : ∀ i, bitAt as i = bitAt bs i) : as = bs := by
  apply List.ext_getElem hlength
  intro p ha hb
  apply eq_of_testBit_eq
  intro k hk
  have hbit := h (8 * p + (7 - k))
  have hdiv : (8 * p + (7 - k)) / 8 = p := by omega
  have hmod : 7 - (8 * p + (7 - k)) % 8 = k := by omega
  rw [bitAt, bitAt, hdiv, hmod] at hbit
  simpa [ha, hb] using hbit

/-- In the last byte the mask has the bits of pieces, and no spare bit. -/
theorem testBit_lastMask {n i : Nat} (h : i / 8 + 1 = packedSize n) :
    (lastMask n).toNat.testBit (7 - i % 8) = decide (i < n) := by
  have hmask : ∀ r < 8, ∀ k < 8,
      ((if r = 0 then 0xff else 0xff <<< UInt8.ofNat (8 - r)) : UInt8).toNat.testBit (7 - k) =
        decide (r = 0 ∨ k < r) := by decide
  have hin : (n % 8 = 0 ∨ i % 8 < n % 8) ↔ i < n := by
    unfold packedSize at h
    omega
  rw [lastMask, hmask (n % 8) (Nat.mod_lt n (by decide)) (i % 8) (Nat.mod_lt i (by decide))]
  exact decide_eq_decide.mpr hin

/-- A last byte without a bit beyond the mask means that no spare bit is set. -/
theorem any_getLast?_eq_false_iff {n : Nat} {bs : Bytes} (h : bs.length = packedSize n) :
    bs.getLast?.any (fun last => last &&& ~~~lastMask n != 0) = false ↔
      ∀ i, n ≤ i → bitAt bs i = false := by
  rcases List.eq_nil_or_concat bs with rfl | ⟨front, last, rfl⟩
  · simp [bitAt_nil]
  · rw [List.concat_eq_append] at h ⊢
    rw [List.length_append, List.length_singleton] at h
    have hlast : ∀ i, i / 8 = front.length →
        bitAt (front ++ [last]) i = last.toNat.testBit (7 - i % 8) := by
      intro i hi
      simp [bitAt, hi]
    rw [List.getLast?_concat, Option.any_some, bne_eq_false_iff_eq, and_complement_eq_zero_iff]
    constructor
    · intro hmask i hn
      by_cases hi : i / 8 = front.length
      · rw [hlast i hi]
        apply hmask _ (by omega)
        rw [testBit_lastMask (by omega)]
        exact decide_eq_false (by omega)
      · apply bitAt_of_le
        rw [List.length_append, List.length_singleton]
        unfold packedSize at h
        omega
    · intro hbits k hk hmask
      have hdiv : (8 * front.length + (7 - k)) / 8 = front.length := by omega
      have hmod : 7 - (8 * front.length + (7 - k)) % 8 = k := by omega
      rw [← hmod, testBit_lastMask (by omega), decide_eq_false_iff_not, Nat.not_lt] at hmask
      have hbit := hbits _ hmask
      rwa [hlast _ hdiv, hmod] at hbit

end BitTorrent.Wire
