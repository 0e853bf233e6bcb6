import BitTorrent.Proofs.Wire.Frame

/-! Every message and every handshake has one spelling. Whatever is read as a message is the
frame that is written for it, so reading and writing are inverse to each other on all
messages whose length fits in four bytes, and on all handshakes. -/

namespace BitTorrent.Wire

/-! ### Ids and words -/

theorem MessageId.toByte_of_ofByte {b : UInt8} {id : MessageId} (h : ofByte b = .ok id) :
    id.toByte = b := by
  unfold ofByte at h
  split at h
  case h_11 => cases h
  all_goals
    cases h
    exact UInt8.toNat.inj (Eq.symm ‹_›)

namespace Message

theorem length_takeWord (bs : Bytes) : (takeWord bs).2.length = bs.length - 4 := List.length_drop

/-- The first word and the rest make up the bytes. -/
theorem word32_takeWord (bs : Bytes) (h : 4 ≤ bs.length) :
    word32 (takeWord bs).1 ++ (takeWord bs).2 = bs := by
  have hlen : (bs.take 4).length = 4 := List.length_take_of_le h
  have hlt : BigEndian.decode (bs.take 4) < 2 ^ 32 := by
    have := BigEndian.decode_lt (bs.take 4)
    rwa [hlen] at this
  have hnat : (takeWord bs).1.toNat = BigEndian.decode (bs.take 4) := UInt32.toNat_ofNat_of_lt' hlt
  have hword : word32 (takeWord bs).1 = bs.take 4 := by
    have := BigEndian.encode_decode (bs.take 4)
    rwa [hlen, ← hnat] at this
  rw [hword]
  exact List.take_append_drop 4 bs

theorem word32_takeWord_of_length (bs : Bytes) (h : bs.length = 4) :
    word32 (takeWord bs).1 = bs := by
  have hword := word32_takeWord bs (by omega)
  have hrest : (takeWord bs).2 = [] :=
    List.eq_nil_of_length_eq_zero (by rw [length_takeWord]; omega)
  rwa [hrest, List.append_nil] at hword

theorem encode_blockOf {payload : Bytes} (h : payload.length = 12) :
    (blockOf payload).encode = payload := by
  have hrest := length_takeWord payload
  have hrest' := length_takeWord (takeWord payload).2
  have hindex := word32_takeWord payload (by omega)
  have hstart := word32_takeWord (takeWord payload).2 (by omega)
  have hlength := word32_takeWord_of_length (takeWord (takeWord payload).2).2 (by omega)
  simp only [blockOf, Block.encode, hlength, List.append_assoc, hstart, hindex]

/-! ### Messages -/

theorem sized_eq_ok_iff {name : String} {expected : Nat} {payload : Bytes} {m m' : Message} :
    sized name expected payload m = .ok m' ↔ payload.length = expected ∧ m = m' := by
  unfold sized
  split <;> simp_all

/-- A message that is made of an id and a payload has them. -/
theorem of_ofPayload {id : MessageId} {payload : Bytes} {m : Message}
    (h : ofPayload id payload = .ok m) : m.id? = some id ∧ m.payload = payload := by
  cases id with
  | bitfield =>
    cases h
    exact ⟨rfl, rfl⟩
  | «have» =>
    obtain ⟨hlen, rfl⟩ := sized_eq_ok_iff.mp h
    exact ⟨rfl, word32_takeWord_of_length payload hlen⟩
  | request =>
    obtain ⟨hlen, rfl⟩ := sized_eq_ok_iff.mp h
    exact ⟨rfl, encode_blockOf hlen⟩
  | cancel =>
    obtain ⟨hlen, rfl⟩ := sized_eq_ok_iff.mp h
    exact ⟨rfl, encode_blockOf hlen⟩
  | piece =>
    simp only [ofPayload] at h
    split at h
    · rename_i hlen
      rw [Bytes.hasAtLeast_eq_true_iff] at hlen
      cases h
      have hrest := length_takeWord payload
      have hindex := word32_takeWord payload (by omega)
      have hstart := word32_takeWord (takeWord payload).2 (by omega)
      refine ⟨rfl, ?_⟩
      simp only [Message.payload, List.append_assoc, hstart, hindex]
    · cases h
  | port =>
    obtain ⟨hlen, rfl⟩ := sized_eq_ok_iff.mp h
    have hlt : BigEndian.decode payload < 2 ^ 16 := by
      have := BigEndian.decode_lt payload
      rwa [hlen] at this
    have hport := BigEndian.encode_decode payload
    refine ⟨rfl, ?_⟩
    simp only [Message.payload, UInt16.toNat_ofNat_of_lt' hlt]
    rwa [hlen] at hport
  | _ =>
    obtain ⟨hlen, rfl⟩ := sized_eq_ok_iff.mp h
    exact ⟨rfl, (List.eq_nil_of_length_eq_zero hlen).symm⟩

/-- A frame that is read is a length and the body of the message. -/
theorem of_decode {b : Bytes} {m : Message} (h : decode b = .ok m) :
    4 ≤ b.length ∧ m.frameLength = BigEndian.decode (b.take 4) ∧ m.body = b.drop 4 := by
  simp only [decode] at h
  split at h
  · cases h
  · rename_i size body hsplit
    obtain ⟨hlen, rfl, rfl⟩ := Bytes.splitAt?_eq_some hsplit
    split at h
    · cases h
    · rename_i hdeclared
      have hbody : m.body = b.drop 4 := by
        split at h
        · rename_i hnil
          cases h
          exact hnil.symm
        · rename_i id payload hcons
          obtain ⟨id', hid, h⟩ := bind_eq_ok_iff.mp h
          obtain ⟨hid', hpayload⟩ := of_ofPayload h
          rw [body, hid', hpayload, hcons, ← MessageId.toByte_of_ofByte hid]
          rfl
      refine ⟨hlen, ?_, hbody⟩
      rw [← length_body, hbody]
      exact Decidable.not_not.mp hdeclared

/-- A frame is read as a message exactly if it is the one that is written for it. -/
theorem decode_eq_ok_iff {b : Bytes} {m : Message} :
    decode b = .ok m ↔ m.frameLength < 2 ^ 32 ∧ m.encode = b := by
  constructor
  · intro h
    obtain ⟨hlen, hdeclared, hbody⟩ := of_decode h
    have htake : (b.take 4).length = 4 := List.length_take_of_le hlen
    have hlt := BigEndian.decode_lt (b.take 4)
    have hprefix := BigEndian.encode_decode (b.take 4)
    rw [htake, ← hdeclared] at hlt hprefix
    refine ⟨hlt, ?_⟩
    rw [encode_eq, hprefix, hbody, List.take_append_drop]
  · rintro ⟨hlt, rfl⟩
    exact decode_encode hlt

end Message

/-! ### Handshakes -/

namespace Handshake

/-- The reserved bytes stand behind the header. -/
theorem reserved_of_encode (h : Handshake) : (h.encode.drop 20).take 8 = h.reserved.toList := by
  rw [encode, List.append_assoc, List.append_assoc, List.drop_left' length_header,
    List.take_left' h.reserved.length_toList]

theorem decode_eq_ok_iff {b : Bytes} {h : Handshake} : decode b = .ok h ↔ h.encode = b := by
  constructor
  · intro hdecode
    unfold decode at hdecode
    split at hdecode
    · rename_i hlen
      split at hdecode
      · rename_i hheader
        cases hdecode
        have hreserved : b.take (20 + 8) = b.take 20 ++ (b.drop 20).take 8 := List.take_add
        have hhash : b.take (28 + 20) = b.take 28 ++ (b.drop 28).take 20 := List.take_add
        have hid : b.take (48 + 20) = b.take 48 ++ (b.drop 48).take 20 := List.take_add
        have hall : b.take 68 = b := List.take_of_length_le (by omega)
        rw [hhash, hreserved, hheader, hall] at hid
        exact hid.symm
      · cases hdecode
    · cases hdecode
  · rintro rfl
    exact h.decode_encode

end Handshake

/-! ### Both -/

/-- A message whose length fits in four bytes is read off its frame and off no other bytes, and
the frame is four bytes longer than it says; a handshake is read off its 68 bytes and off no
others, and its reserved bytes are among them. -/
theorem decode_eq_ok_iff_encode :
    (∀ (m : Message) (b : Bytes),
      Message.decode b = .ok m ↔ m.frameLength < 2 ^ 32 ∧ m.encode = b) ∧
    (∀ m : Message, m.encode.length = 4 + m.frameLength) ∧
    (∀ (h : Handshake) (b : Bytes), Handshake.decode b = .ok h ↔ h.encode = b) ∧
    ∀ h : Handshake, h.encode.length = 68 ∧ (h.encode.drop 20).take 8 = h.reserved.toList := by
  refine ⟨fun m b => Message.decode_eq_ok_iff, Message.length_encode, ?_, ?_⟩
  · intro h b
    exact Handshake.decode_eq_ok_iff
  · intro h
    exact ⟨h.length_encode, h.reserved_of_encode⟩

end BitTorrent.Wire
