import BitTorrent.Proofs.Wire.Message
import BitTorrent.Wire.Connection

/-! Taking handshakes and frames off the head of a buffer. What is taken does not depend on
what has arrived behind it, so an item that is whole is taken as it was sent, and nothing
is taken while it is not. -/

namespace BitTorrent.Wire

/-! ### Readers of one item -/

section Items

variable {α : Type} {take : Bytes → Option (Except Error α) × Bytes}

/-- What is found at the head of a buffer stays found, whatever arrives behind it, and where
nothing is found the buffer stays as it is. -/
structure Incremental (take : Bytes → Option (Except Error α) × Bytes) : Prop where
  append : ∀ {buffer rest : Bytes} {r : Except Error α}, take buffer = (some r, rest) →
    ∀ more, take (buffer ++ more) = (some r, rest ++ more)
  untouched : ∀ {buffer rest : Bytes}, take buffer = (none, rest) → rest = buffer

/-- The bytes `x` are those of the item `a`. -/
def IsItem (take : Bytes → Option (Except Error α) × Bytes) (x : Bytes) (a : α) : Prop :=
  ∀ rest, take (x ++ rest) = (some (.ok a), rest)

variable (htake : Incremental take) {x held behind rest : Bytes} {a : α} {r : Except Error α}

include htake

/-- An item is not found before the last of its bytes is there. -/
theorem IsItem.take_eq_none (hx : IsItem take x a) (h : x = held ++ behind) (hne : behind ≠ []) :
    take held = (none, held) := by
  rcases hheld : take held with ⟨_ | r, rest⟩
  · rw [htake.untouched hheld]
  · have hall := htake.append hheld behind
    rw [← h, ← List.append_nil x, hx []] at hall
    obtain ⟨-, hrest⟩ := Prod.mk.inj hall
    exact absurd (List.append_eq_nil_iff.mp hrest.symm).2 hne

/-- If the bytes that are held and those behind them begin with an item, then that is what is
taken off the ones that are held. -/
theorem IsItem.of_take (hx : IsItem take x a) {y : Bytes} (h : held ++ behind = x ++ y)
    (hheld : take held = (some r, rest)) :
    r = .ok a ∧ held = x ++ rest ∧ rest ++ behind = y := by
  have hall := htake.append hheld behind
  rw [h, hx y] at hall
  obtain ⟨hr, hy⟩ := Prod.mk.inj hall
  refine ⟨(Option.some.inj hr).symm, ?_, hy.symm⟩
  rw [hy, ← List.append_assoc] at h
  exact List.append_cancel_right h

end Items

/-! ### Messages -/

theorem incremental_takeMessage : Incremental takeMessage where
  append := by
    intro buffer rest r h more
    unfold takeMessage at h ⊢
    split at h
    · cases h
    · rename_i size after hsize
      rw [Bytes.splitAt?_append hsize more]
      dsimp only
      split at h
      · rename_i hlarge
        cases h
        rw [if_pos hlarge]
      · rename_i hlarge
        rw [if_neg hlarge]
        split at h
        · cases h
        · rename_i frame rest' hframe
          cases h
          rw [Bytes.splitAt?_append hframe more]
  untouched := by
    intro buffer rest h
    unfold takeMessage at h
    split at h
    · exact (Prod.mk.inj h).2.symm
    · split at h
      · cases h
      · split at h
        · exact (Prod.mk.inj h).2.symm
        · cases h

theorem nextMessage_eq_some_iff {buffer rest : Bytes} {r : Except Error Message} :
    nextMessage buffer = some (r, rest) ↔ takeMessage buffer = (some r, rest) := by
  unfold nextMessage
  rcases takeMessage buffer with ⟨_ | r', rest'⟩ <;> simp

/-- The length of a message that is not too long fits in its four bytes. -/
theorem Message.frameLength_lt {m : Message} (h : m.frameLength ≤ Parameters.maxMessageSize) :
    m.frameLength < 2 ^ 32 :=
  Nat.lt_of_le_of_lt h (by decide)

/-- The frame of a message that is not too long is taken as that message. -/
theorem isItem_message {m : Message} (h : m.frameLength ≤ Parameters.maxMessageSize) :
    IsItem takeMessage m.encode m := by
  intro rest
  have hlength : BigEndian.decode (BigEndian.encode 4 m.frameLength) = m.frameLength :=
    BigEndian.decode_encode (Message.frameLength_lt h)
  have hsize : Bytes.splitAt? 4 (m.encode ++ rest) =
      some (BigEndian.encode 4 m.frameLength, m.body ++ rest) := by
    rw [m.encode_eq, List.append_assoc]
    exact Bytes.splitAt?_append_of_length (BigEndian.length_encode 4 m.frameLength) (m.body ++ rest)
  have hframe : Bytes.splitAt? (4 + m.frameLength) (m.encode ++ rest) = some (m.encode, rest) :=
    Bytes.splitAt?_append_of_length m.length_encode rest
  simp only [takeMessage, hsize, hlength, hframe]
  rw [if_neg (by omega), Message.decode_encode (Message.frameLength_lt h)]

/-! ### Handshakes -/

namespace Handshake

theorem length_header : header.length = 20 := by decide

theorem length_encode (h : Handshake) : h.encode.length = 68 := by
  have hreserved := h.reserved.length_toList
  have hhash := h.infoHash.octets.length_toList
  have hid := h.peerId.octets.length_toList
  simp only [encode, InfoHash.bytes, PeerId.bytes, List.length_append, length_header]
  omega

/-- A handshake is read as it was written, reserved bytes included. -/
theorem decode_encode (h : Handshake) : decode h.encode = .ok h := by
  have hlen := h.length_encode
  have hheader : h.encode.take 20 = header := by
    rw [encode, List.append_assoc, List.append_assoc, List.take_left' length_header]
  have hreserved : Octets.slice 8 20 h.encode (by omega) = h.reserved := by
    refine Octets.slice_eq header (h.infoHash.bytes ++ h.peerId.bytes) ?_ length_header _
    simp only [encode, List.append_assoc]
  have hhash : Octets.slice 20 28 h.encode (by omega) = h.infoHash.octets := by
    refine Octets.slice_eq (header ++ h.reserved.toList) h.peerId.bytes ?_ ?_ _
    · simp only [encode, InfoHash.bytes, List.append_assoc]
    · rw [List.length_append, length_header, h.reserved.length_toList]
  have hid : Octets.slice 20 48 h.encode (by omega) = h.peerId.octets := by
    refine Octets.slice_eq (header ++ h.reserved.toList ++ h.infoHash.bytes) [] ?_ ?_ _
    · rw [List.append_nil]
      rfl
    · simp only [InfoHash.bytes, List.length_append, length_header, h.reserved.length_toList,
        h.infoHash.octets.length_toList]
  rw [decode, dif_pos hlen, if_pos hheader, hreserved, hhash, hid]

theorem eq_invalidHandshake_of_decode {data : Bytes} {e : Error} (h : decode data = .error e) :
    e = .invalidHandshake := by
  unfold decode at h
  split at h
  · split at h
    all_goals cases h
    rfl
  · cases h
    rfl

end Handshake

theorem incremental_takeHandshake : Incremental Connection.takeHandshake where
  append := by
    intro buffer rest r h more
    unfold Connection.takeHandshake at h ⊢
    split at h
    · cases h
    · rename_i data after hsplit
      cases h
      rw [Bytes.splitAt?_append hsplit more]
  untouched := by
    intro buffer rest h
    unfold Connection.takeHandshake at h
    split at h
    · exact (Prod.mk.inj h).2.symm
    · cases h

theorem isItem_handshake (h : Handshake) : IsItem Connection.takeHandshake h.encode h := by
  intro rest
  have hsplit : Bytes.splitAt? Parameters.handshakeLength (h.encode ++ rest) =
      some (h.encode, rest) := Bytes.splitAt?_append_of_length h.length_encode rest
  simp only [Connection.takeHandshake, hsplit, h.decode_encode]

end BitTorrent.Wire
