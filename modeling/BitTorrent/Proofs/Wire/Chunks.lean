import BitTorrent.Proofs.Wire.Codec
import BitTorrent.Proofs.Wire.Framing

/-! A receive buffer that is filled chunk by chunk. After every chunk messages are taken off it
until none is whole or the next one is too large. What has been taken in the end, and what is left,
is a function of all the bytes: neither the number of chunks nor the places of the cuts make a
difference, except that a frame that is too large is reported once more for every further chunk. -/

namespace BitTorrent.Wire

/-! ### The caller -/

def isTooLarge : Except Error Message → Bool
  | .error (.malformedMessage (.tooLarge _)) => true
  | _ => false

theorem isTooLarge_sized (name : String) (n : Nat) (payload : Bytes) (m : Message) :
    isTooLarge (Message.sized name n payload m) = false := by
  unfold Message.sized
  split <;> rfl

theorem isTooLarge_ofPayload (id : MessageId) (payload : Bytes) :
    isTooLarge (Message.ofPayload id payload) = false := by
  cases id with
  | bitfield => rfl
  | piece =>
    simp only [Message.ofPayload]
    split <;> rfl
  | _ => exact isTooLarge_sized _ _ _ _

/-- What is wrong in a frame is never that it is too large. -/
theorem isTooLarge_decode (f : Bytes) : isTooLarge (Message.decode f) = false := by
  unfold Message.decode
  split
  · rfl
  · dsimp only
    split
    · rfl
    · split
      · rfl
      · rename_i b payload _ _
        cases hid : MessageId.ofByte b with
        | ok id => exact isTooLarge_ofPayload id payload
        | error e =>
          unfold MessageId.ofByte at hid
          split at hid <;> cases hid
          rfl

/-- A call finds nothing in a buffer without a whole frame, or reports its length and leaves it as
it is, or takes one whole frame off it. -/
theorem takeMessage_cases (buffer : Bytes) :
    (takeMessage buffer = (none, buffer) ∧ (∀ f, f <+: buffer → ¬IsFrame f) ∧ ¬Oversized buffer) ∨
      (takeMessage buffer = (some (.error (tooLarge buffer)), buffer) ∧ Oversized buffer) ∨
      ∃ f rest, IsFrame f ∧ buffer = f ++ rest ∧
        takeMessage buffer = (some (Message.decode f), rest) := by
  by_cases hframe : ∃ f, f <+: buffer ∧ IsFrame f
  · obtain ⟨f, ⟨rest, rfl⟩, hf⟩ := hframe
    exact .inr (.inr ⟨f, rest, hf, rfl, takeMessage_of_isFrame hf rest⟩)
  · have hnone : ∀ f, f <+: buffer → ¬IsFrame f := fun f hf h => hframe ⟨f, hf, h⟩
    by_cases hover : Oversized buffer
    · exact .inr (.inl ⟨takeMessage_of_oversized hover, hover⟩)
    · exact .inl ⟨takeMessage_of_incomplete hnone hover, hnone, hover⟩

/-- A call that answers leaves the buffer as it is if the next frame is too large, and otherwise
takes the four bytes of a length and as many bytes as they declare. -/
theorem taken_of_takeMessage {buffer rest : Bytes} {r : Except Error Message}
    (h : takeMessage buffer = (some r, rest)) :
    if isTooLarge r then rest = buffer
    else ∃ f, f.length = 4 + declaredLength buffer ∧ buffer = f ++ rest ∧ r = Message.decode f := by
  rcases takeMessage_cases buffer with ⟨hnone, -⟩ | ⟨hsome, -⟩ | ⟨f, rest', hf, rfl, hsome⟩
  · simp [hnone] at h
  · obtain ⟨rfl, rfl⟩ : .error (tooLarge buffer) = r ∧ buffer = rest := by simpa [hsome] using h
    rfl
  · obtain ⟨rfl, rfl⟩ : Message.decode f = r ∧ rest' = rest := by simpa [hsome] using h
    rw [isTooLarge_decode, declaredLength_append hf.four_le]
    exact ⟨f, hf.length_eq, rfl, rfl⟩

theorem length_lt_of_not_isTooLarge {buffer rest : Bytes} {r : Except Error Message}
    (h : takeMessage buffer = (some r, rest)) (hr : isTooLarge r = false) :
    rest.length < buffer.length := by
  have htaken := taken_of_takeMessage h
  simp only [hr, Bool.false_eq_true, if_false] at htaken
  obtain ⟨f, hlen, hbuffer, -⟩ := htaken
  have := congrArg List.length hbuffer
  rw [List.length_append] at this
  omega

/-- Takes messages off a buffer until none is whole or the next one is too large. Answers what came
of each and the buffer that is left. -/
def drain (buffer : Bytes) : List (Except Error Message) × Bytes :=
  match _h : takeMessage buffer with
  | (none, rest) => ([], rest)
  | (some r, rest) =>
    if _hr : isTooLarge r then ([r], rest)
    else (r :: (drain rest).1, (drain rest).2)
termination_by buffer.length
decreasing_by all_goals exact length_lt_of_not_isTooLarge _h (by simpa using _hr)

/-- Appends the chunks to a buffer one after the other, and drains it after each. -/
def drainChunks (buffer : Bytes) : List Bytes → List (Except Error Message) × Bytes
  | [] => ([], buffer)
  | chunk :: chunks =>
    let now := drain (buffer ++ chunk)
    let later := drainChunks now.2 chunks
    (now.1 ++ later.1, later.2)

/-! ### One buffer -/

theorem drain_of_none {buffer rest : Bytes} (h : takeMessage buffer = (none, rest)) :
    drain buffer = ([], rest) := by
  rw [drain]
  split <;> simp_all

theorem drain_of_oversized {buffer : Bytes} (h : Oversized buffer) :
    drain buffer = ([.error (tooLarge buffer)], buffer) := by
  have hsome := takeMessage_of_oversized h
  rw [drain]
  split <;> simp_all [tooLarge, isTooLarge]

theorem drain_append_of_isFrame {f : Bytes} (h : IsFrame f) (rest : Bytes) :
    drain (f ++ rest) = (Message.decode f :: (drain rest).1, (drain rest).2) := by
  have hsome := takeMessage_of_isFrame h rest
  have hdecode := isTooLarge_decode f
  rw [drain]
  split <;> simp_all

/-- Draining takes the frames off a buffer, by induction on them, and reports a length that is too
large behind them. -/
theorem drain_of_framed {buffer rest : Bytes} {frames : List Bytes}
    (h : Framed buffer frames rest) :
    drain buffer =
      (frames.map Message.decode ++ if Oversized rest then [.error (tooLarge rest)] else [],
        rest) := by
  induction frames generalizing buffer with
  | nil =>
    obtain rfl : buffer = rest := h.eq_append
    by_cases hover : Oversized buffer
    · simp [drain_of_oversized hover, hover]
    · simp [drain_of_none (takeMessage_of_incomplete h.noFrame hover), hover]
  | cons f frames ih =>
    have hf : IsFrame f := h.isFrame f List.mem_cons_self
    have htail : Framed (frames.flatten ++ rest) frames rest := h.tail
    rw [h.eq_append, List.flatten_cons, List.append_assoc, drain_append_of_isFrame hf, ih htail,
      List.map_cons, List.cons_append]

/-! ### All chunks -/

/-- Draining after each chunk takes the frames of all chunks together, by induction on the chunks.
The buffer never begins with a frame when a chunk comes, but it may begin with a length that is too
large, and does so from then on. -/
theorem exists_drainChunks {chunks : List Bytes} {buffer rest : Bytes} {frames : List Bytes}
    (hbuffer : ∀ f, f <+: buffer → ¬IsFrame f)
    (h : Framed (buffer ++ chunks.flatten) frames rest) :
    ∃ k, drainChunks buffer chunks =
        (frames.map Message.decode ++ List.replicate k (.error (tooLarge rest)), rest) ∧
      (¬Oversized rest → k = 0) ∧ (Oversized rest → chunks ≠ [] → k ≠ 0) := by
  induction chunks generalizing buffer frames with
  | nil =>
    rw [List.flatten_nil, List.append_nil] at h
    obtain ⟨rfl, rfl⟩ := h.unique (framed_nil hbuffer)
    exact ⟨0, rfl, fun _ => rfl, fun _ hne => absurd rfl hne⟩
  | cons chunk chunks ih =>
    obtain ⟨now, left, hnow⟩ := exists_framed (buffer ++ chunk)
    obtain ⟨later, rest', hlater⟩ := exists_framed (left ++ chunks.flatten)
    rw [List.flatten_cons, ← List.append_assoc] at h
    obtain ⟨rfl, rfl⟩ := h.unique (hnow.append hlater)
    obtain ⟨k, hdrained, hzero, hpos⟩ := ih hnow.noFrame hlater
    rw [drainChunks, drain_of_framed hnow, hdrained]
    by_cases hover : Oversized left
    · obtain ⟨rfl, rfl⟩ :=
        hlater.unique (framed_nil (hover.append chunks.flatten).noFrame)
      have hsame : tooLarge (left ++ chunks.flatten) = tooLarge left := by
        rw [tooLarge, declaredLength_append hover.1, tooLarge]
      refine ⟨k + 1, ?_, fun hnot => absurd (hover.append _) hnot, fun _ _ => Nat.succ_ne_zero k⟩
      simp [hover, hsame, List.replicate_succ]
    · refine ⟨k, by simp [hover], hzero, fun hrest _ => hpos hrest ?_⟩
      rintro rfl
      rw [List.flatten_nil, List.append_nil] at hlater
      obtain ⟨-, rfl⟩ := hlater.unique (framed_nil hnow.noFrame)
      exact hover hrest

theorem noFrame_nil (f : Bytes) (h : f <+: []) : ¬IsFrame f := by
  intro hf
  have := hf.four_le
  simp_all

/-- Into an empty buffer, only the whole stream counts. -/
theorem drainChunks_of_framed {chunks : List Bytes} {frames : List Bytes} {rest : Bytes}
    (h : Framed chunks.flatten frames rest) :
    ∃ k, drainChunks [] chunks =
        (frames.map Message.decode ++ List.replicate k (.error (tooLarge rest)), rest) ∧
      (k = 0 ↔ ¬Oversized rest) := by
  obtain ⟨k, hdrained, hzero, hpos⟩ := exists_drainChunks noFrame_nil h
  refine ⟨k, hdrained, fun hk hover => hpos hover ?_ hk, hzero⟩
  rintro rfl
  obtain ⟨-, rfl⟩ := h.unique (framed_nil noFrame_nil)
  exact absurd hover.1 (by decide)

/-! ### Frames of messages -/

theorem isFrame_encode {m : Message} (h : m.frameLength ≤ Parameters.maxMessageSize) :
    IsFrame m.encode := by
  obtain ⟨-, hdeclared, -⟩ := Message.of_decode (Message.decode_encode (Message.frameLength_lt h))
  have hlength : declaredLength m.encode = m.frameLength := hdeclared.symm
  exact ⟨by rw [hlength, m.length_encode], by rwa [hlength]⟩

/-- Frames of messages and a part of one more are cut between the messages. -/
theorem framed_encode {ms : List Message} {m : Message} {part : Bytes}
    (hms : ∀ m ∈ ms, m.frameLength ≤ Parameters.maxMessageSize)
    (hm : m.frameLength ≤ Parameters.maxMessageSize) (hpart : part <+: m.encode)
    (hne : part ≠ m.encode) :
    Framed (ms.flatMap Message.encode ++ part) (ms.map Message.encode) part where
  eq_append := rfl
  isFrame := by
    intro f hf
    obtain ⟨m, hm, rfl⟩ := List.mem_map.mp hf
    exact isFrame_encode (hms m hm)
  noFrame := (isFrame_encode hm).noFrame_of_isPrefix hpart hne

theorem map_decode_encode {ms : List Message}
    (hms : ∀ m ∈ ms, m.frameLength ≤ Parameters.maxMessageSize) :
    (ms.map Message.encode).map Message.decode = ms.map Except.ok := by
  rw [List.map_map]
  apply List.map_congr_left
  intro m hm
  exact Message.decode_encode (Message.frameLength_lt (hms m hm))

/-- However a stream is cut into chunks, the same frames are taken off it in order, each read for
itself, and the same rest is left; only that the rest is too large may be reported more than once.
A call that finds nothing or reports that leaves the buffer as it is, and any other takes the
four bytes of a length and as many bytes as they declare. Messages and a part of one more
come out as they were sent, and the part is left. -/
theorem drainChunks_of_cuts :
    (∀ stream : Bytes, ∃ frames rest, Framed stream frames rest ∧
      ∀ chunks : List Bytes, chunks.flatten = stream → ∃ k,
        drainChunks [] chunks =
          (frames.map Message.decode ++ List.replicate k (.error (tooLarge rest)), rest) ∧
        (k = 0 ↔ ¬Oversized rest)) ∧
    (∀ buffer rest : Bytes,
      (takeMessage buffer = (none, rest) → rest = buffer ∧ drain buffer = ([], buffer)) ∧
      ∀ r, takeMessage buffer = (some r, rest) →
        if isTooLarge r then rest = buffer
        else ∃ f, f.length = 4 + declaredLength buffer ∧ buffer = f ++ rest ∧
          r = Message.decode f) ∧
    ∀ (ms : List Message) (m : Message) (part : Bytes),
      (∀ m ∈ ms, m.frameLength ≤ Parameters.maxMessageSize) →
      m.frameLength ≤ Parameters.maxMessageSize → part <+: m.encode → part ≠ m.encode →
      ∀ chunks : List Bytes, chunks.flatten = ms.flatMap Message.encode ++ part →
        drainChunks [] chunks = (ms.map .ok, part) := by
  refine ⟨?_, ?_, ?_⟩
  · intro stream
    obtain ⟨frames, rest, hframed⟩ := exists_framed stream
    refine ⟨frames, rest, hframed, ?_⟩
    rintro chunks rfl
    exact drainChunks_of_framed hframed
  · intro buffer rest
    refine ⟨fun h => ?_, fun r h => taken_of_takeMessage h⟩
    obtain rfl := incremental_takeMessage.untouched h
    exact ⟨rfl, drain_of_none h⟩
  · intro ms m part hms hm hpart hne chunks hchunks
    have hframed := framed_encode hms hm hpart hne
    have hover : ¬Oversized part := (isFrame_encode hm).not_oversized_of_isPrefix hpart
    rw [← hchunks] at hframed
    obtain ⟨k, hdrained, hzero⟩ := drainChunks_of_framed hframed
    rw [hdrained, map_decode_encode hms, hzero.mpr hover, List.replicate_zero, List.append_nil]

/-- Cuts within lengths and right behind a message that keeps the connection alive; and a length
that is one too large, cut into two chunks and followed by a third. -/
theorem drainChunks_of_cuts_within_lengths :
    let sent : List Bytes := [[0, 0], [0, 1, 1, 0, 0], [0, 0, 0, 0], [0, 5, 4]]
    let large : List Bytes := [[0, 0, 0, 1, 1, 1, 0], [0, 1], [9]]
    drainChunks [] sent = ([.ok .unchoke, .ok .keepAlive], [0, 0, 0, 5, 4]) ∧
      (∃ frames rest k, Framed large.flatten frames rest ∧
        drainChunks [] large =
          (frames.map Message.decode ++ List.replicate k (.error (tooLarge rest)), rest) ∧
        (k = 0 ↔ ¬Oversized rest)) ∧
      drainChunks [] large = (.ok .unchoke ::
        List.replicate 2 (.error (.malformedMessage (.tooLarge 16777217))), [1, 0, 0, 1, 9]) := by
  intro sent large
  obtain ⟨hcuts, -, hmessages⟩ := drainChunks_of_cuts
  obtain ⟨frames, rest, hframed, hall⟩ := hcuts large.flatten
  obtain ⟨k, hdrained, hk⟩ := hall large rfl
  refine ⟨?_, ⟨frames, rest, k, hframed, hdrained, hk⟩, ?_⟩
  · exact hmessages [.unchoke, .keepAlive] (.have 7) [0, 0, 0, 5, 4] (by decide) (by decide)
      (by decide) (by decide) sent (by decide)
  · decide +kernel

end BitTorrent.Wire
