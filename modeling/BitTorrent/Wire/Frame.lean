import BitTorrent.Parameters
import BitTorrent.Wire.Message

/-! Splitting a receive buffer into frames. A frame that has not arrived as a whole
stays in the buffer, and so does one that is longer than any frame may be. -/

namespace BitTorrent.Wire

/-- Takes the next frame off a buffer: the message or what is wrong with it, or nothing while
the frame is incomplete; and the buffer that is left. -/
def takeMessage (buffer : Bytes) : Option (Except Error Message) × Bytes :=
  match Bytes.splitAt? 4 buffer with
  | none => (none, buffer)
  | some (size, _) =>
    if Parameters.maxMessageSize < BigEndian.decode size then
      (some (.error (.malformedMessage (.tooLarge (BigEndian.decode size)))), buffer)
    else
      match Bytes.splitAt? (4 + BigEndian.decode size) buffer with
      | none => (none, buffer)
      | some (frame, rest) => (some (Message.decode frame), rest)

/-- What is taken off a buffer, if anything is, with the buffer that is left. -/
def nextMessage (buffer : Bytes) : Option (Except Error Message × Bytes) :=
  let (found, rest) := takeMessage buffer
  found.map (·, rest)

/-- A message takes its frame off the buffer. -/
theorem length_lt_of_takeMessage {buffer rest : Bytes} {m : Message}
    (h : takeMessage buffer = (some (.ok m), rest)) : rest.length < buffer.length := by
  unfold takeMessage at h
  split at h
  · cases h
  · split at h
    · cases h
    · split at h
      · cases h
      · rename_i hs
        obtain ⟨hn, -, hr⟩ := Bytes.splitAt?_eq_some hs
        obtain ⟨-, rfl⟩ := Prod.mk.inj h
        rw [hr, List.length_drop]
        omega

end BitTorrent.Wire
