import BitTorrent.Proofs.Bytes.BigEndian
import BitTorrent.Proofs.Except
import BitTorrent.Wire.Message

/-! A frame is read back as the message that it was written for. The length in front is the
number of bytes of id and payload, so it is right for every message whose length fits in
four bytes. Any other bytes are malformed. -/

namespace BitTorrent.Wire

/-! ### Ids and words -/

@[simp] theorem MessageId.ofByte_toByte (id : MessageId) : ofByte id.toByte = .ok id := by
  cases id <;> rfl

@[simp] theorem length_word32 (w : UInt32) : (word32 w).length = 4 :=
  BigEndian.length_encode 4 w.toNat

namespace Message

@[simp] theorem takeWord_word32 (w : UInt32) (rest : Bytes) :
    takeWord (word32 w ++ rest) = (w, rest) := by
  have hw : BigEndian.decode (word32 w) = w.toNat := BigEndian.decode_encode w.toNat_lt
  have htake : (word32 w ++ rest).take 4 = word32 w := List.take_left' (length_word32 w)
  have hdrop : (word32 w ++ rest).drop 4 = rest := List.drop_left' (length_word32 w)
  rw [takeWord, htake, hdrop, hw, UInt32.ofNat_toNat]

theorem takeWord_word32_nil (w : UInt32) : takeWord (word32 w) = (w, []) := by
  have h := takeWord_word32 w []
  rwa [List.append_nil] at h

@[simp] theorem blockOf_encode (b : Block) : blockOf b.encode = b := by
  unfold blockOf Block.encode
  rw [List.append_assoc, takeWord_word32]
  dsimp only
  rw [takeWord_word32]
  dsimp only
  rw [takeWord_word32_nil]

@[simp] theorem length_encode_block (b : Block) : b.encode.length = 12 := by
  simp [Block.encode]

/-! ### Frames -/

/-- The bytes of id and payload. -/
def body (m : Message) : Bytes := (m.id?.map MessageId.toByte).toList ++ m.payload

theorem encode_eq (m : Message) : m.encode = BigEndian.encode 4 m.frameLength ++ m.body := by
  rw [encode, body, List.append_assoc]

/-- What is announced as the length of a frame is what is written after it. -/
theorem length_body (m : Message) : m.body.length = m.frameLength := by
  cases m <;> simp [body, id?, payload, frameLength] <;> omega

theorem length_encode (m : Message) : m.encode.length = 4 + m.frameLength := by
  rw [encode_eq, List.length_append, BigEndian.length_encode, length_body]

/-- The id and the payload of a message make up the message. -/
theorem ofPayload_payload {m : Message} {id : MessageId} (h : m.id? = some id) :
    ofPayload id m.payload = .ok m := by
  cases m with
  | keepAlive => cases h
  | piece index start data =>
    cases h
    have hlen : Bytes.hasAtLeast 8 (word32 index ++ (word32 start ++ data)) := by
      rw [Bytes.hasAtLeast_eq_true_iff, List.length_append, List.length_append, length_word32,
        length_word32]
      omega
    simp only [ofPayload, payload, List.append_assoc, takeWord_word32]
    rw [if_pos hlen]
  | «have» i =>
    cases h
    simp only [ofPayload, payload, sized, length_word32, takeWord_word32_nil]
    rfl
  | bitfield bits => cases h; rfl
  | request b =>
    cases h
    simp only [ofPayload, payload, sized, length_encode_block, blockOf_encode]
    rfl
  | cancel b =>
    cases h
    simp only [ofPayload, payload, sized, length_encode_block, blockOf_encode]
    rfl
  | port p =>
    cases h
    have hp : BigEndian.decode (BigEndian.encode 2 p.toNat) = p.toNat :=
      BigEndian.decode_encode p.toNat_lt
    simp only [ofPayload, payload, sized, BigEndian.length_encode, hp, UInt16.ofNat_toNat]
    rfl
  | _ => cases h; rfl

/-- A frame is read as the message that it was written for. -/
theorem decode_encode {m : Message} (h : m.frameLength < 2 ^ 32) : decode m.encode = .ok m := by
  have hlength : BigEndian.decode (BigEndian.encode 4 m.frameLength) = m.frameLength :=
    BigEndian.decode_encode h
  have hsplit : Bytes.splitAt? 4 m.encode = some (BigEndian.encode 4 m.frameLength, m.body) := by
    rw [encode_eq]
    simp [Bytes.splitAt?]
  simp only [decode, hsplit, hlength, length_body]
  rw [if_neg (not_not_intro rfl)]
  cases hid : m.id? with
  | none =>
    cases m with
    | keepAlive => rfl
    | _ => cases hid
  | some id =>
    have hbody : m.body = id.toByte :: m.payload := by rw [body, hid]; rfl
    simp only [hbody, MessageId.ofByte_toByte, ok_bind]
    exact ofPayload_payload hid

/-! ### Frames that are refused -/

theorem exists_malformation_of_ofByte {b : UInt8} {e : Error} (h : MessageId.ofByte b = .error e) :
    ∃ m, e = .malformedMessage m := by
  unfold MessageId.ofByte at h
  split at h
  all_goals cases h
  exact ⟨_, rfl⟩

theorem exists_malformation_of_sized {name : String} {expected : Nat} {payload : Bytes}
    {m : Message} {e : Error} (h : sized name expected payload m = .error e) :
    ∃ m, e = .malformedMessage m := by
  unfold sized at h
  split at h
  all_goals cases h
  exact ⟨_, rfl⟩

theorem exists_malformation_of_ofPayload {id : MessageId} {payload : Bytes} {e : Error}
    (h : ofPayload id payload = .error e) : ∃ m, e = .malformedMessage m := by
  cases id with
  | bitfield => cases h
  | piece =>
    simp only [ofPayload] at h
    split at h
    all_goals cases h
    exact ⟨_, rfl⟩
  | _ => exact exists_malformation_of_sized h

/-- Whatever is wrong with a frame is a malformation. -/
theorem exists_malformation_of_decode {frame : Bytes} {e : Error} (h : decode frame = .error e) :
    ∃ m, e = .malformedMessage m := by
  unfold decode at h
  split at h
  · cases h
    exact ⟨_, rfl⟩
  · dsimp only at h
    split at h
    · cases h
      exact ⟨_, rfl⟩
    · split at h
      · cases h
      · rcases bind_eq_error_iff.mp h with hid | ⟨id, -, hpayload⟩
        · exact exists_malformation_of_ofByte hid
        · exact exists_malformation_of_ofPayload hpayload

end Message

end BitTorrent.Wire
