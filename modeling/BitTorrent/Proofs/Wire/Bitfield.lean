import BitTorrent.Proofs.Wire.Codec
import BitTorrent.Proofs.Wire.History
import Mathlib.Algebra.Order.Floor.Div
import Mathlib.GroupTheory.GroupAction.Ring

/-! Sets of pieces on the wire. A payload is taken for pieces exactly if it has one byte for every
eight of them and no bit behind the last one. So whatever set is sent, a peer of the same torrent
takes it, and has these pieces and no others afterwards, as long as the length of the frame fits in
four bytes. -/

namespace BitTorrent.Wire

variable {n : Nat} {s : PieceSet}

/-! ### Payloads -/

theorem getElem?_unpack (bs : Bytes) (i : Nat) :
    (unpack bs)[i]? = if i < 8 * bs.length then some (bitAt bs i) else none := by
  rw [unpack_eq]
  split <;> simp [*]

/-- The bits behind the first `n` are those that are left of the payload. -/
theorem forall_drop_unpack_iff {bs : Bytes} :
    (∀ b ∈ (unpack bs).drop n, b = false) ↔ ∀ i, n ≤ i → bitAt bs i = false := by
  constructor
  · intro h i hi
    by_cases hin : i < 8 * bs.length
    · apply h
      rw [List.mem_iff_getElem?]
      refine ⟨i - n, ?_⟩
      rw [List.getElem?_drop, Nat.add_sub_cancel' hi, getElem?_unpack, if_pos hin]
    · exact bitAt_of_le (Nat.not_lt.mp hin)
  · intro h b hb
    obtain ⟨j, hj⟩ := List.mem_iff_getElem?.mp hb
    rw [List.getElem?_drop, getElem?_unpack] at hj
    split at hj
    · rw [← Option.some.inj hj]
      exact h (n + j) (Nat.le_add_right n j)
    · cases hj

theorem valid_mk_iff {payload : Bytes} :
    (⟨n, payload⟩ : PieceSet).Valid n ↔
      payload.length = n ⌈/⌉ 8 ∧ ∀ b ∈ (unpack payload).drop n, b = false := by
  rw [forall_drop_unpack_iff]
  exact ⟨fun h => ⟨h.length_bytes, h.spare_zero⟩, fun h => ⟨rfl, h.1, h.2⟩⟩

/-! ### Frames -/

theorem frameLength_ofPieces (s : PieceSet) :
    (Message.ofPieces s).frameLength = 1 + s.bytes.length := rfl

theorem PieceSet.Valid.fits (h : s.Valid n) : (Message.ofPieces s).Fits n :=
  ⟨h.length_bytes, h.spare_zero⟩

/-- No message has so long a frame. -/
theorem Message.exists_malformation_of_long {m : Message} (h : 2 ^ 32 ≤ m.frameLength) :
    ∃ f, decode m.encode = .error (.malformedMessage f) := by
  cases hread : decode m.encode with
  | error e =>
    obtain ⟨f, rfl⟩ := exists_malformation_of_decode hread
    exact ⟨f, rfl⟩
  | ok m' =>
    obtain ⟨hlt, hencode⟩ := decode_eq_ok_iff.mp hread
    have hlength := congrArg List.length hencode
    rw [length_encode, length_encode] at hlength
    omega

namespace PeerState

variable {p : PeerState}

theorem apply_ofPieces (h : s.Valid n) (hp : p.pieces.pieceCount = n) :
    p.apply (.ofPieces s) = (.ok (), { p with pieces := s }) := by
  obtain rfl := h.pieceCount_eq
  rw [apply_of_fits hp h.fits]
  simp [heard, Message.ofPieces, Message.piecesAfter, Message.choking?, Message.interested?, hp]

theorem reachable_receive (hp : PieceSet.Reachable n p.pieces) (m : Message) :
    PieceSet.Reachable n (p.receive m).2.pieces := by
  have hcount := hp.valid.pieceCount_eq
  by_cases h : m.Fits n
  · rw [receive_of_fits hcount h]
    cases m with
    | «have» index => exact hp.insert index.toNat
    | bitfield bits =>
      have hread : PieceSet.ofBytes bits n = .ok ⟨p.pieces.pieceCount, bits⟩ := by
        rw [hcount]
        exact PieceSet.ofBytes_eq_ok_iff.mpr ⟨rfl, rfl, h.1, h.2⟩
      exact .ofBytes hread
    | _ => exact hp
  · rwa [receive_of_not_fits hcount h]

/-- What a peer is known to have comes about as any other set does. -/
theorem reachable_run (hp : PieceSet.Reachable n p.pieces) (history : List Update) :
    PieceSet.Reachable n (p.run history).pieces := by
  induction history generalizing p with
  | nil => exact hp
  | cons u history ih =>
    apply ih
    cases u with
    | message m => exact reachable_receive hp m
    | _ => exact hp

end PeerState

/-- A payload is taken for `n` pieces exactly if it has a byte for every eight of them and no bit
behind the last one, and it is kept as it is. Any set of pieces that comes about, what a peer is
known to have among them, is sent whole: what is written for it is read and taken by whatever is
known about a peer of the torrent, of which the pieces are then this set and the rest is what it
was. A set whose frame is too long for four bytes of length is malformed instead. -/
theorem pieces_sent_whole (n : Nat) :
    (∀ payload s, PieceSet.ofBytes payload n = .ok s ↔
      payload.length = n ⌈/⌉ 8 ∧ (∀ b ∈ (unpack payload).drop n, b = false) ∧ s = ⟨n, payload⟩) ∧
    (∀ s, PieceSet.Reachable n s → s.bytes.length < 2 ^ 32 - 1 →
      Message.decode (Message.ofPieces s).encode = .ok (.ofPieces s) ∧
      ∀ p : PeerState, p.pieces.pieceCount = n →
        p.apply (.ofPieces s) = (.ok (), { p with pieces := s })) ∧
    (∀ s, PieceSet.Reachable n s → 2 ^ 32 - 1 ≤ s.bytes.length →
      ∃ f, Message.decode (Message.ofPieces s).encode = .error (.malformedMessage f)) ∧
    ∀ torrent endpoint history,
      PieceSet.Reachable n ((PeerState.new torrent endpoint n).run history).pieces := by
  refine ⟨?_, ?_, ?_, fun _ _ => PeerState.reachable_run .empty⟩
  · intro payload s
    rw [PieceSet.ofBytes_eq_ok_iff, valid_mk_iff, and_comm, and_assoc]
  · intro s hs hlength
    have hshort : (Message.ofPieces s).frameLength < 2 ^ 32 := by
      rw [frameLength_ofPieces]
      omega
    exact ⟨Message.decode_encode hshort, fun p => PeerState.apply_ofPieces hs.valid⟩
  · intro s _ hlength
    apply Message.exists_malformation_of_long
    rw [frameLength_ofPieces]
    omega

/-- Eleven pieces but one, and one beyond the last, sent to a peer that was known to have others;
and more pieces than a frame can have. -/
theorem pieces_sent_whole_of_eleven :
    let s := ((PieceSet.full 11).erase 3).insert 20
    let p := (PeerState.new 7 ⟨.v4 (.zero 4), 6881⟩ 11).run [.message .unchoke, .message (.have 3)]
    PieceSet.ofBytes [0xef, 0xe0] 11 = .ok s ∧ (∀ s, PieceSet.ofBytes [0xef, 0xf0] 11 ≠ .ok s) ∧
      Message.decode (Message.ofPieces s).encode = .ok (.ofPieces s) ∧
      p.apply (.ofPieces s) = (.ok (), { p with pieces := s }) ∧
      p.pieces.toList = [3] ∧ s.toList = [0, 1, 2, 4, 5, 6, 7, 8, 9, 10] ∧
      ∃ f, Message.decode (Message.ofPieces (PieceSet.empty (2 ^ 35))).encode =
        .error (.malformedMessage f) := by
  intro s p
  obtain ⟨hread, hsent, -, -⟩ := pieces_sent_whole 11
  obtain ⟨-, -, hlong, -⟩ := pieces_sent_whole (2 ^ 35)
  have hs : PieceSet.Reachable 11 s := (PieceSet.Reachable.full.erase 3).insert 20
  obtain ⟨hdecode, happly⟩ := hsent s hs (by decide)
  refine ⟨(hread _ _).mpr (by decide), ?_, hdecode, happly p (by decide), by decide, by decide,
    hlong _ .empty ?_⟩
  · intro s' hs'
    exact absurd ((hread _ _).mp hs').2.1 (by decide)
  · rw [(PieceSet.valid_empty _).length_bytes]
    decide

end BitTorrent.Wire
