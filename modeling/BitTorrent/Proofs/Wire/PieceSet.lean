import BitTorrent.Proofs.Wire.Packing

/-! Sets of pieces. A bit of the bytes that are kept is set exactly if its piece is in the set, as
every operation keeps the number of bytes and leaves the spare bits zero. So a count over the
bytes counts pieces, and two sets for one torrent are equal if they have the same pieces. -/

namespace BitTorrent.Wire.PieceSet

variable {n : Nat} {s t : PieceSet}

/-- What every operation keeps of a set for a torrent of `n` pieces. -/
structure Valid (n : Nat) (s : PieceSet) : Prop where
  pieceCount_eq : s.pieceCount = n
  length_bytes : s.bytes.length = packedSize n
  spare_zero : ∀ i, n ≤ i → bitAt s.bytes i = false

/-- A set for `n` pieces as it can come about: empty, full or read from a payload, and then changed
piece by piece. -/
inductive Reachable (n : Nat) : PieceSet → Prop
  | empty : Reachable n (empty n)
  | full : Reachable n (full n)
  | ofBytes {payload : Bytes} {s : PieceSet} (h : ofBytes payload n = .ok s) : Reachable n s
  | insert {s : PieceSet} (h : Reachable n s) (i : Nat) : Reachable n (s.insert i)
  | erase {s : PieceSet} (h : Reachable n s) (i : Nat) : Reachable n (s.erase i)

/-! ### Pieces and bits -/

theorem contains_eq (s : PieceSet) (i : Nat) :
    s.contains i = (decide (i < s.pieceCount) && bitAt s.bytes i) := by
  rw [contains, bitShift, shiftRight_and_one _ (by omega), bitAt]

theorem Valid.contains_eq_bitAt (h : s.Valid n) (i : Nat) : s.contains i = bitAt s.bytes i := by
  rw [contains_eq, h.pieceCount_eq]
  by_cases hi : i < n
  · simp [hi]
  · simp [hi, h.spare_zero i (Nat.not_lt.mp hi)]

theorem Valid.contains_of_le (h : s.Valid n) {i : Nat} (hi : n ≤ i) : s.contains i = false := by
  rw [h.contains_eq_bitAt, h.spare_zero i hi]

theorem Valid.lt_of_contains (h : s.Valid n) {i : Nat} (hi : s.contains i = true) : i < n := by
  apply Nat.lt_of_not_le
  intro hn
  rw [h.contains_of_le hn] at hi
  cases hi

/-- The byte of a piece is there. -/
theorem Valid.div_lt (h : s.Valid n) {i : Nat} (hi : i < n) : i / 8 < s.bytes.length := by
  rw [h.length_bytes, packedSize]
  omega

/-! ### New sets -/

theorem bitAt_empty (n i : Nat) : bitAt (empty n).bytes i = false := by
  rw [empty, bitAt_replicate]
  simp

theorem valid_empty (n : Nat) : (empty n).Valid n where
  pieceCount_eq := rfl
  length_bytes := List.length_replicate
  spare_zero i _ := bitAt_empty n i

theorem contains_empty (n i : Nat) : (empty n).contains i = false := by
  rw [(valid_empty n).contains_eq_bitAt, bitAt_empty]

/-- The last byte of the full set has the bits within its mask, and every byte before it all bits.
-/
theorem bitAt_full (n i : Nat) : bitAt (full n).bytes i = decide (i < n) := by
  have hones : ∀ k < 8, (0xff : UInt8).toNat.testBit k = true := by decide
  have hbit := hones (7 - i % 8) (by omega)
  by_cases hn : n = 0
  · subst hn
    exact bitAt_nil i
  · have hsize : packedSize n - 1 < packedSize n := by
      unfold packedSize
      omega
    rw [full, bitAt_modify _ _ (by rwa [List.length_replicate])]
    split
    · rename_i hi
      have hget :
          (List.replicate (packedSize n) (0xff : UInt8)).getD (packedSize n - 1) 0 = 0xff := by
        simp [hsize]
      rw [hget, UInt8.toNat_and, Nat.testBit_and, hbit, testBit_lastMask (by omega), Bool.true_and]
    · rename_i hi
      rw [bitAt_replicate, hbit, Bool.and_true]
      unfold packedSize at hi ⊢
      exact decide_eq_decide.mpr (by omega)

theorem valid_full (n : Nat) : (full n).Valid n where
  pieceCount_eq := rfl
  length_bytes := by rw [full, List.length_modify, List.length_replicate]
  spare_zero i hi := by rw [bitAt_full, decide_eq_false (Nat.not_lt.mpr hi)]

/-- A payload is read exactly if it has the right size and no spare bit, and then it is kept. -/
theorem ofBytes_eq_ok_iff {payload : Bytes} :
    ofBytes payload n = .ok s ↔ s = ⟨n, payload⟩ ∧ (⟨n, payload⟩ : PieceSet).Valid n := by
  unfold ofBytes
  split
  · rename_i hsize
    constructor
    · intro h
      cases h
    · exact fun h => absurd h.2.length_bytes hsize
  · rename_i hsize
    have hsize : payload.length = packedSize n := Decidable.not_not.mp hsize
    have hspare := any_getLast?_eq_false_iff hsize
    split
    · rename_i hany
      constructor
      · intro h
        cases h
      · intro h
        rw [hspare.mpr h.2.spare_zero] at hany
        cases hany
    · rename_i hany
      constructor
      · intro h
        cases h
        exact ⟨rfl, rfl, hsize, hspare.mp (Bool.eq_false_iff.mpr hany)⟩
      · rintro ⟨rfl, -⟩
        rfl

/-- A payload is kept as it is, or it is malformed. -/
theorem ofBytes_cases (payload : Bytes) (n : Nat) :
    ofBytes payload n = .ok ⟨n, payload⟩ ∨
      ∃ f, ofBytes payload n = .error (.malformedMessage f) := by
  unfold ofBytes
  split
  · exact .inr ⟨_, rfl⟩
  · split
    · exact .inr ⟨_, rfl⟩
    · exact .inl rfl

/-! ### One piece at a time -/

theorem Valid.bitAt_insert (h : s.Valid n) (i j : Nat) :
    bitAt (s.insert i).bytes j = (bitAt s.bytes j || decide (j = i ∧ i < n)) := by
  unfold insert
  rw [h.pieceCount_eq]
  split
  · rename_i hi
    rw [bitAt_modify _ _ (h.div_lt hi)]
    split
    · rename_i hdiv
      rw [UInt8.toNat_or, Nat.testBit_or, bitShift, testBit_one_shiftLeft (by omega) (by omega),
        bitAt, hdiv]
      congr 1
      exact decide_eq_decide.mpr (by omega)
    · rename_i hdiv
      have hj : ¬(j = i ∧ i < n) := by
        rintro ⟨rfl, -⟩
        exact hdiv rfl
      rw [decide_eq_false hj, Bool.or_false]
  · rename_i hi
    simp [hi]

theorem Valid.bitAt_erase (h : s.Valid n) (i j : Nat) :
    bitAt (s.erase i).bytes j = (bitAt s.bytes j && decide (j ≠ i)) := by
  unfold erase
  rw [h.pieceCount_eq]
  split
  · rename_i hi
    rw [bitAt_modify _ _ (h.div_lt hi)]
    split
    · rename_i hdiv
      rw [UInt8.toNat_and, Nat.testBit_and, bitShift, testBit_complement _ (by omega),
        testBit_one_shiftLeft (by omega) (by omega), bitAt, hdiv, ← decide_not]
      congr 1
      exact decide_eq_decide.mpr (by omega)
    · rename_i hdiv
      have hj : j ≠ i := by
        rintro rfl
        exact hdiv rfl
      rw [decide_eq_true hj, Bool.and_true]
  · rename_i hi
    by_cases hj : j = i
    · rw [hj, h.spare_zero i (Nat.not_lt.mp hi)]
      rfl
    · simp [hj]

theorem pieceCount_insert (s : PieceSet) (i : Nat) : (s.insert i).pieceCount = s.pieceCount := by
  unfold insert
  split <;> rfl

theorem pieceCount_erase (s : PieceSet) (i : Nat) : (s.erase i).pieceCount = s.pieceCount := by
  unfold erase
  split <;> rfl

theorem length_bytes_insert (s : PieceSet) (i : Nat) :
    (s.insert i).bytes.length = s.bytes.length := by
  unfold insert
  split
  · exact List.length_modify _ _ _
  · rfl

theorem length_bytes_erase (s : PieceSet) (i : Nat) :
    (s.erase i).bytes.length = s.bytes.length := by
  unfold erase
  split
  · exact List.length_modify _ _ _
  · rfl

theorem Valid.insert (h : s.Valid n) (i : Nat) : (s.insert i).Valid n where
  pieceCount_eq := (pieceCount_insert s i).trans h.pieceCount_eq
  length_bytes := (length_bytes_insert s i).trans h.length_bytes
  spare_zero := by
    intro j hj
    rw [h.bitAt_insert, h.spare_zero j hj, Bool.false_or]
    exact decide_eq_false (by omega)

theorem Valid.erase (h : s.Valid n) (i : Nat) : (s.erase i).Valid n where
  pieceCount_eq := (pieceCount_erase s i).trans h.pieceCount_eq
  length_bytes := (length_bytes_erase s i).trans h.length_bytes
  spare_zero := by
    intro j hj
    rw [h.bitAt_erase, h.spare_zero j hj, Bool.false_and]

theorem Valid.contains_insert (h : s.Valid n) (i j : Nat) :
    (s.insert i).contains j = (s.contains j || decide (j = i ∧ i < n)) := by
  rw [(h.insert i).contains_eq_bitAt, h.bitAt_insert, h.contains_eq_bitAt]

theorem Valid.contains_erase (h : s.Valid n) (i j : Nat) :
    (s.erase i).contains j = (s.contains j && decide (j ≠ i)) := by
  rw [(h.erase i).contains_eq_bitAt, h.bitAt_erase, h.contains_eq_bitAt]

theorem Valid.insert_of_le (h : s.Valid n) {i : Nat} (hi : n ≤ i) : s.insert i = s := by
  rw [PieceSet.insert, h.pieceCount_eq, if_neg (Nat.not_lt.mpr hi)]

theorem Valid.erase_of_le (h : s.Valid n) {i : Nat} (hi : n ≤ i) : s.erase i = s := by
  rw [PieceSet.erase, h.pieceCount_eq, if_neg (Nat.not_lt.mpr hi)]

/-- By induction on how the set came about. -/
theorem Reachable.valid (h : Reachable n s) : s.Valid n := by
  induction h with
  | empty => exact valid_empty n
  | full => exact valid_full n
  | ofBytes h =>
    obtain ⟨rfl, hvalid⟩ := ofBytes_eq_ok_iff.mp h
    exact hvalid
  | insert _ i ih => exact ih.insert i
  | erase _ i ih => exact ih.erase i

/-! ### Listing and counting -/

/-- The indices at which a list of flags is set. -/
theorem zipIdx_filter_map (p : Nat → Bool) (n : Nat) :
    ((((List.range n).map p).zipIdx.filter (·.1)).map (·.2)) = (List.range n).filter p := by
  induction n with
  | zero => rfl
  | succ n ih =>
    rw [List.range_succ, List.map_append, List.zipIdx_append, List.filter_append, List.map_append,
      ih, List.filter_append]
    congr 1
    cases hp : p n <;> simp [hp]

theorem Valid.take_unpack (h : s.Valid n) :
    (unpack s.bytes).take n = (List.range n).map s.contains := by
  have hn : n ≤ 8 * s.bytes.length := by
    rw [h.length_bytes, packedSize]
    omega
  rw [unpack_eq, ← List.map_take, List.take_range, Nat.min_eq_left hn]
  exact List.map_congr_left fun i _ => (h.contains_eq_bitAt i).symm

theorem Valid.toList_eq (h : s.Valid n) : s.toList = (List.range n).filter s.contains := by
  rw [toList, h.pieceCount_eq, h.take_unpack, zipIdx_filter_map]

theorem Valid.mem_toList (h : s.Valid n) {i : Nat} : i ∈ s.toList ↔ s.contains i = true := by
  rw [h.toList_eq, List.mem_filter, List.mem_range]
  exact ⟨And.right, fun hi => ⟨h.lt_of_contains hi, hi⟩⟩

theorem Valid.pairwise_toList (h : s.Valid n) : s.toList.Pairwise (· < ·) := by
  rw [h.toList_eq]
  exact List.pairwise_lt_range.filter _

/-- The count goes over all bits; those behind the last piece add nothing. -/
theorem Valid.count_eq (h : s.Valid n) : s.count = s.toList.length := by
  have hsize : 8 * s.bytes.length = n + (8 * s.bytes.length - n) := by
    rw [h.length_bytes, packedSize]
    omega
  have hspare : ∀ i ∈ List.range (8 * s.bytes.length - n),
      ¬(bitAt s.bytes ∘ (n + ·)) i = true := by
    intro i _
    simp [h.spare_zero (n + i) (Nat.le_add_right n i)]
  calc s.count
      = (unpack s.bytes).count true := by
        rw [count, unpack, List.count_flatMap]
        rfl
    _ = (List.range (8 * s.bytes.length)).countP (bitAt s.bytes) := by
        rw [unpack_eq, List.count_eq_countP, List.countP_map]
        congr 1
        funext i
        simp
    _ = (List.range n).countP (bitAt s.bytes) := by
        rw [hsize, List.range_add, List.countP_append, List.countP_map,
          List.countP_eq_zero.mpr hspare, Nat.add_zero]
    _ = s.toList.length := by
        rw [h.toList_eq, ← List.countP_eq_length_filter]
        congr 1
        funext i
        exact (h.contains_eq_bitAt i).symm

theorem Valid.isFull_iff (h : s.Valid n) : s.isFull = true ↔ ∀ i < n, s.contains i = true := by
  have hrange : (List.range n).countP s.contains = n ↔ ∀ i ∈ List.range n, s.contains i = true := by
    have := List.countP_eq_length (l := List.range n) (p := s.contains)
    rwa [List.length_range] at this
  rw [isFull, beq_iff_eq, h.count_eq, h.pieceCount_eq, h.toList_eq, ← List.countP_eq_length_filter,
    hrange]
  simp only [List.mem_range]

/-- Two sets for one torrent are equal if they have the same pieces. -/
theorem Valid.ext (hs : s.Valid n) (ht : t.Valid n) (h : ∀ i, s.contains i = t.contains i) :
    s = t := by
  obtain ⟨k, bs⟩ := s
  obtain ⟨l, cs⟩ := t
  obtain rfl : k = n := hs.pieceCount_eq
  obtain rfl : l = k := ht.pieceCount_eq
  congr 1
  apply eq_of_bitAt_eq (hs.length_bytes.trans ht.length_bytes.symm)
  intro i
  rw [← hs.contains_eq_bitAt i, ← ht.contains_eq_bitAt i, h i]

theorem Valid.isEmpty_iff (h : s.Valid n) : s.isEmpty = true ↔ ∀ i < n, s.contains i = false := by
  constructor
  · intro hempty i _
    have hzero : ∀ b ∈ s.bytes, b = 0 := by simpa [isEmpty] using hempty
    have hbytes : s.bytes = List.replicate (packedSize n) 0 :=
      List.eq_replicate_iff.mpr ⟨h.length_bytes, hzero⟩
    rw [h.contains_eq_bitAt, hbytes, bitAt_replicate]
    simp
  · intro hnone
    have heq : s = empty n := by
      apply h.ext (valid_empty n)
      intro i
      rw [contains_empty]
      by_cases hi : i < n
      · exact hnone i hi
      · exact h.contains_of_le (Nat.not_lt.mp hi)
    rw [heq]
    simp [isEmpty, empty]

/-! ### Sets of numbers -/

/-- However a set for `n` pieces has come about, it stands for some of the numbers below `n`: its
bytes are as many as these need and have the bits of its pieces and no other, a piece that is added
or taken out changes nothing but itself, the list has the pieces in order, the count and the two
tests agree with it, and a set with the same pieces is equal. -/
theorem Reachable.represents (hs : Reachable n s) (ht : Reachable n t) :
    (∀ i, (PieceSet.empty n).contains i = false ∧
      (PieceSet.full n).contains i = decide (i < n)) ∧
    s.bytes.length = (n + 7) / 8 ∧
    (∀ i, (s.bytes.getD (i / 8) 0).toNat.testBit (7 - i % 8) = s.contains i ∧
      (n ≤ i → s.contains i = false)) ∧
    (∀ i j, (s.insert i).contains j = (if j = i ∧ i < n then true else s.contains j) ∧
      (s.erase i).contains j = (if j = i then false else s.contains j)) ∧
    (∀ i, n ≤ i → s.insert i = s ∧ s.erase i = s) ∧
    s.toList.Pairwise (· < ·) ∧ (∀ i, i ∈ s.toList ↔ s.contains i = true) ∧
    s.count = s.toList.length ∧
    (s.isFull = true ↔ ∀ i < n, s.contains i = true) ∧
    (s.isEmpty = true ↔ ∀ i < n, s.contains i = false) ∧
    (s = t ↔ ∀ i, s.contains i = t.contains i) := by
  have hs := hs.valid
  have ht := ht.valid
  refine ⟨?_, hs.length_bytes, ?_, ?_, ?_, hs.pairwise_toList, fun i => hs.mem_toList, hs.count_eq,
    hs.isFull_iff, hs.isEmpty_iff, ?_⟩
  · intro i
    exact ⟨contains_empty n i, by rw [(valid_full n).contains_eq_bitAt, bitAt_full]⟩
  · intro i
    exact ⟨(hs.contains_eq_bitAt i).symm, hs.contains_of_le⟩
  · intro i j
    rw [hs.contains_insert, hs.contains_erase]
    constructor
    · split <;> simp [*]
    · split <;> simp [*]
  · intro i hi
    exact ⟨hs.insert_of_le hi, hs.erase_of_le hi⟩
  · constructor
    · rintro rfl i
      rfl
    · exact hs.ext ht

/-- Eleven pieces without the fourth: once all of them but one, with a piece added that there is
not, and once as they come in a message. -/
theorem Reachable.represents_of_eleven :
    let s := ((PieceSet.full 11).erase 3).insert 20
    let t : PieceSet := ⟨11, [0xef, 0xe0]⟩
    Reachable 11 s ∧ Reachable 11 t ∧ s.toList = [0, 1, 2, 4, 5, 6, 7, 8, 9, 10] ∧ s.count = 10 ∧
      ∀ i, s.contains i = t.contains i := by
  intro s t
  have hs : Reachable 11 s := (Reachable.full.erase 3).insert 20
  have hread : PieceSet.ofBytes [0xef, 0xe0] 11 = .ok t := rfl
  have ht : Reachable 11 t := .ofBytes hread
  have hlist : s.toList = [0, 1, 2, 4, 5, 6, 7, 8, 9, 10] := by decide
  obtain ⟨-, -, -, -, -, -, -, hcount, -, -, heq⟩ := hs.represents ht
  rw [hlist] at hcount
  exact ⟨hs, ht, hlist, hcount, heq.mp (by decide)⟩

end BitTorrent.Wire.PieceSet
