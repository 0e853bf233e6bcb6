import BitTorrent.Proofs.Torrent.Acceptance
import BitTorrent.Proofs.Torrent.Saving
import Mathlib.Algebra.Order.Floor.Div

/-! The sizes of the pieces of a torrent. All pieces have the piece length but the last one, which
has what the others leave of the total length. Nothing ties the number of pieces to the total
length, so the others may take more than there is; the product is cut off at the largest word then,
and the last piece is empty, as it would be without a bound. The sizes sum up to the total length
as long as the others take no more than that, and every piece has some bytes and no more than the
piece length exactly where the number of pieces is the one that the total length needs. -/

namespace BitTorrent.Torrent

open Bencode

/-! ### Bounded arithmetic -/

namespace Info

theorem toNat_boundedMul (a b : UInt64) :
    (boundedMul a b).toNat = min (a.toNat * b.toNat) (2 ^ 64 - 1) := by
  have hlt : min (a.toNat * b.toNat) (2 ^ 64 - 1) < 2 ^ 64 := by omega
  exact UInt64.toNat_ofNat_of_lt' hlt

theorem toNat_boundedSub (a b : UInt64) : (boundedSub a b).toNat = a.toNat - b.toNat :=
  UInt64.toNat_ofNat_of_lt' (Nat.lt_of_le_of_lt (Nat.sub_le _ _) a.toNat_lt)

/-- What a product leaves of a word does not depend on the product being cut off, since where it is
there is nothing left. -/
theorem toNat_boundedSub_boundedMul (total a b : UInt64) :
    (boundedSub total (boundedMul a b)).toNat = total.toNat - a.toNat * b.toNat := by
  have hlt := total.toNat_lt
  rw [toNat_boundedSub, toNat_boundedMul]
  omega

/-! ### One piece -/

variable {info : Info} {i n : Nat}

theorem pieceSize_eq_none (h : info.pieceCount ≤ i) : info.pieceSize i = none := if_pos h

theorem pieceSize_eq_pieceLength (h : i + 1 < info.pieceCount) :
    info.pieceSize i = some info.pieceLength := by
  simp only [pieceSize, if_neg (by omega : ¬info.pieceCount ≤ i), if_pos h]

/-- The size of the last piece. -/
def lastSize (info : Info) : UInt64 :=
  boundedSub info.totalLength (boundedMul (UInt64.ofNat (info.pieceCount - 1)) info.pieceLength)

theorem pieceSize_eq_lastSize (h : info.pieceCount = n + 1) :
    info.pieceSize n = some info.lastSize := by
  simp only [pieceSize, if_neg (by omega : ¬info.pieceCount ≤ n),
    if_neg (by omega : ¬n + 1 < info.pieceCount), lastSize]

theorem toNat_lastSize (h : info.pieceCount = n + 1) (hword : info.pieceCount < 2 ^ 64) :
    info.lastSize.toNat = info.totalLength.toNat - n * info.pieceLength.toNat := by
  have hcount : (UInt64.ofNat (info.pieceCount - 1)).toNat = n := by
    rw [h, Nat.add_sub_cancel]
    rw [h] at hword
    exact UInt64.toNat_ofNat_of_lt' (Nat.lt_of_succ_lt hword)
  rw [lastSize, toNat_boundedSub_boundedMul, hcount]

theorem isSome_pieceSize_iff : (info.pieceSize i).isSome ↔ i < info.pieceCount := by
  rcases Nat.lt_trichotomy (i + 1) info.pieceCount with h | h | h
  · simp only [pieceSize_eq_pieceLength h, Option.isSome_some, true_iff]
    omega
  · simp only [pieceSize_eq_lastSize h.symm, Option.isSome_some, true_iff]
    omega
  · simp only [pieceSize_eq_none (by omega : info.pieceCount ≤ i), Option.isSome_none,
      Bool.false_eq_true, false_iff]
    omega

/-! ### All pieces -/

/-- The sizes of all pieces in order. -/
def pieceSizes (info : Info) : List UInt64 := (List.range info.pieceCount).filterMap info.pieceSize

theorem mem_pieceSizes {s : UInt64} : s ∈ info.pieceSizes ↔ ∃ i, info.pieceSize i = some s := by
  rw [pieceSizes, List.mem_filterMap]
  constructor
  · rintro ⟨i, -, hs⟩
    exact ⟨i, hs⟩
  · rintro ⟨i, hs⟩
    exact ⟨i, List.mem_range.mpr (isSome_pieceSize_iff.mp (Option.isSome_of_eq_some hs)), hs⟩

theorem pieceSizes_eq (h : info.pieceCount = n + 1) :
    info.pieceSizes = List.replicate n info.pieceLength ++ [info.lastSize] := by
  have hfront : (List.range n).filterMap info.pieceSize = List.replicate n info.pieceLength := by
    have hsize : ∀ i ∈ List.range n, info.pieceSize i = some info.pieceLength := by
      intro i hi
      have := List.mem_range.mp hi
      exact pieceSize_eq_pieceLength (by omega)
    rw [List.filterMap_congr hsize, List.filterMap_eq_map', List.map_const', List.length_range]
  rw [pieceSizes, h, List.range_succ, List.filterMap_append, hfront,
    List.filterMap_cons_some (pieceSize_eq_lastSize h), List.filterMap_nil]

/-- The pieces in front of the last one take their bytes, and the last one has what is left. -/
theorem sum_pieceSizes (h : info.pieceCount = n + 1) (hword : info.pieceCount < 2 ^ 64) :
    (info.pieceSizes.map UInt64.toNat).sum = n * info.pieceLength.toNat +
      (info.totalLength.toNat - n * info.pieceLength.toNat) := by
  rw [pieceSizes_eq h, List.map_append, List.map_replicate, List.sum_append, List.sum_replicate,
    List.map_singleton, List.sum_singleton, toNat_lastSize h hword, smul_eq_mul]

theorem forall_pieceSize_iff {P : UInt64 → Prop} (h : info.pieceCount = n + 1)
    (hlength : P info.pieceLength) :
    (∀ i s, info.pieceSize i = some s → P s) ↔ P info.lastSize := by
  constructor
  · intro hall
    exact hall n _ (pieceSize_eq_lastSize h)
  · intro hlast i s hs
    have hmem := mem_pieceSizes.mpr ⟨i, hs⟩
    rw [pieceSizes_eq h, List.mem_append, List.mem_singleton] at hmem
    rcases hmem with hmem | rfl
    · rwa [List.eq_of_mem_replicate hmem]
    · exact hlast

end Info

/-- The number of parts of a size that it takes, one of them not full at most. -/
theorem eq_ceilDiv_iff {n size total : Nat} (hsize : 0 < size) :
    n + 1 = total ⌈/⌉ size ↔ n * size < total ∧ total ≤ n * size + size := by
  have hle (k : Nat) : total ⌈/⌉ size ≤ k ↔ total ≤ k * size := by
    rw [ceilDiv_le_iff_le_mul hsize, Nat.mul_comm]
  have hmany := hle n
  have hfew := hle (n + 1)
  rw [Nat.succ_mul] at hfew
  omega

/-! ### Torrents -/

theorem Made.pieceLength_pos {m : Torrent} (h : Made m) : 0 < m.info.pieceLength.toNat := by
  obtain ⟨v, hinfo⟩ := h.exists_infoOf
  obtain ⟨d, -, -, -, hlength, -, -, -⟩ := of_infoOf hinfo
  exact (pieceLength_eq_some_iff.mp hlength).1

/-- The hashes of a file are one byte string, whose length is a word. -/
theorem pieceCount_lt_of_ofBytes {data : Bytes} {m : Torrent} (h : ofBytes data = .ok m) :
    m.info.pieceCount < 2 ^ 64 := by
  obtain ⟨-, v, hv, -, hinfo⟩ := rawInfo_of_ofBytes h
  obtain ⟨d, hd, hpieces⟩ := exists_of_infoOf hinfo
  obtain rfl := Option.some.inj hd
  have hlength : (m.info.pieces.flatMap Octets.toList).length = m.info.pieceCount * 20 := by
    have hsize : ∀ o ∈ m.info.pieces, o.toList.length = 20 := fun o _ => o.length_toList
    rw [List.length_flatMap, List.map_congr_left hsize, List.map_const', List.sum_replicate,
      smul_eq_mul, Info.pieceCount]
  have hlt := length_lt_of_get? hv hpieces
  omega

/-- A torrent has a size for each of its pieces and for no other index. Let `count` be the number of
its pieces, at least one and a word, which it is where the torrent was read from bytes. The sizes
sum up to the total length exactly if the pieces in front of the last one take no more than that,
and every piece has some bytes and no more than the piece length exactly if `count` is the number
of pieces that the total length needs. -/
theorem pieceSizes_trusted (m : Torrent) (h : Made m) (hcount : 1 ≤ m.info.pieceCount)
    (hword : m.info.pieceCount < 2 ^ 64 ∨ ∃ data, ofBytes data = .ok m) :
    let count := m.info.pieceCount
    let size := m.info.pieceLength.toNat
    let total := m.info.totalLength.toNat
    (∀ i, (m.info.pieceSize i).isSome ↔ i < count) ∧
    ((m.info.pieceSizes.map UInt64.toNat).sum = total ↔ (count - 1) * size ≤ total) ∧
    ((∀ i s, m.info.pieceSize i = some s → 1 ≤ s.toNat ∧ s.toNat ≤ size) ↔
      count = total ⌈/⌉ size) := by
  intro count size total
  have hlt : m.info.pieceCount < 2 ^ 64 := by
    rcases hword with hlt | ⟨data, hdata⟩
    · exact hlt
    · exact pieceCount_lt_of_ofBytes hdata
  have hsize : 0 < size := h.pieceLength_pos
  obtain ⟨n, hn⟩ : ∃ n, count = n + 1 := ⟨_, (Nat.sub_add_cancel hcount).symm⟩
  have hsum : (m.info.pieceSizes.map UInt64.toNat).sum = n * size + (total - n * size) :=
    Info.sum_pieceSizes hn hlt
  have hlast : m.info.lastSize.toNat = total - n * size := Info.toNat_lastSize hn hlt
  refine ⟨fun i => Info.isSome_pieceSize_iff, ?_, ?_⟩
  · rw [hsum, hn, Nat.add_sub_cancel]
    omega
  · rw [Info.forall_pieceSize_iff hn ⟨hsize, Nat.le_refl size⟩, hlast, hn, eq_ceilDiv_iff hsize]
    omega

/-- Four pieces of the largest length that there is, for five bytes: the pieces in front of the last
one take more than a word can say. -/
theorem pieceSizes_trusted_of_overlong :
    let hashes : Bytes := List.replicate 80 0
    let info :=
      Bytes.ofText "d6:lengthi5e4:name1:n12:piece lengthi9223372036854775807e6:pieces80:" ++
        hashes ++ Bytes.ofText "e"
    let data := Bytes.ofText "d8:announce1:a4:info" ++ info ++ Bytes.ofText "e"
    ∃ m, ofBytes data = .ok m ∧ m.info.pieceCount = 4 ∧ 2 ^ 64 ≤ 3 * m.info.pieceLength.toNat ∧
      (m.info.pieceSize 3).isSome ∧ ¬(m.info.pieceSize 4).isSome ∧
      (m.info.pieceSizes.map UInt64.toNat).sum ≠ 5 ∧
      ∃ i s, m.info.pieceSize i = some s ∧ ¬(1 ≤ s.toNat ∧ s.toNat ≤ m.info.pieceLength.toNat) := by
  intro hashes info data
  have hread : (fun m => (m.info.pieceCount, m.info.pieceLength, m.info.totalLength)) <$>
      ofBytes data = .ok (4, 9223372036854775807, 5) := by decide +kernel
  obtain ⟨m, hm, hfound⟩ := map_eq_ok_iff.mp hread
  obtain ⟨hcount, hlength, htotal⟩ : m.info.pieceCount = 4 ∧
      m.info.pieceLength = 9223372036854775807 ∧ m.info.totalLength = 5 := by simpa using hfound
  obtain ⟨hsome, hsum, hsizes⟩ :=
    pieceSizes_trusted m (.ofBytes hm) (by omega) (.inr ⟨data, hm⟩)
  rw [hcount] at hsome hsum hsizes
  rw [hlength, htotal] at hsum hsizes
  refine ⟨m, hm, hcount, by rw [hlength]; decide, (hsome 3).mpr (by decide),
    fun h => absurd ((hsome 4).mp h) (by decide), fun h => absurd (hsum.mp h) (by decide), ?_⟩
  have hfew : 4 ≠ (5 : UInt64).toNat ⌈/⌉ (9223372036854775807 : UInt64).toNat := by decide
  by_contra hall
  refine hfew (hsizes.mp fun i s hs => ?_)
  by_contra hbad
  exact hall ⟨i, s, hs, hlength ▸ hbad⟩

end BitTorrent.Torrent
