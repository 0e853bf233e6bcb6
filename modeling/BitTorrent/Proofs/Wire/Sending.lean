import BitTorrent.Proofs.Wire.Framing
import BitTorrent.Proofs.Wire.Side

/-! Sending messages one after the other. The sender refuses by the length that it announces, the
receiver by the length that it reads; of a length of `2 ^ 32` or more the sender would write the low
32 bits only. Both come to the same: a message is sent exactly if its frame is taken off a buffer as
that message, with nothing left behind. What is on the stream after any number of sends are the
frames of the messages that were accepted, in order, in whatever parts they were written. -/

namespace BitTorrent.Wire

/-! ### The limit of the receiver -/

/-- What is taken is one frame of the largest size at most. -/
theorem length_le_of_takeMessage {buffer rest : Bytes} {m : Message}
    (h : takeMessage buffer = (some (.ok m), rest)) :
    buffer.length ≤ 4 + Parameters.maxMessageSize + rest.length := by
  rw [takeMessage_eq] at h
  split at h
  · cases h
  · split at h
    · cases h
    · split at h
      · cases h
      · obtain ⟨-, rfl⟩ := Prod.mk.inj h
        rw [List.length_drop]
        omega

theorem nextMessage_encode_iff {m : Message} :
    nextMessage m.encode = some (.ok m, []) ↔ m.frameLength ≤ Parameters.maxMessageSize := by
  rw [nextMessage_eq_some_iff]
  constructor
  · intro h
    have hlen := length_le_of_takeMessage h
    rw [m.length_encode, List.length_nil] at hlen
    omega
  · intro h
    have htaken := isItem_message h []
    rwa [List.append_nil] at htaken

/-! ### One message -/

namespace Connection

/-- A write that succeeds has written everything, and one that fails does not fail for the message.
-/
theorem of_writeAll {stalled : Bool} {data sent : Bytes} {acceptances rest : List Acceptance}
    {r : Except Error Unit} (h : writeAll stalled data acceptances = (r, sent, rest)) :
    (r = .ok () → sent = data) ∧ ∀ w, r ≠ .error (.malformedMessage w) := by
  fun_induction writeAll stalled data acceptances generalizing r sent rest with
  | case1 => cases h; exact ⟨fun _ => rfl, nofun⟩
  | case2 => cases h; exact ⟨fun _ => rfl, nofun⟩
  | case3 => cases h; exact ⟨nofun, nofun⟩
  | case4 => cases h; exact ⟨nofun, nofun⟩
  | case5 _ _ _ _ _ ih => exact ih h
  | case6 => cases h; exact ⟨nofun, nofun⟩
  | case7 _ data acceptances _ n _ result accepted left hwrite ih =>
    cases h
    obtain ⟨hall, hfault⟩ := ih hwrite
    refine ⟨fun hr => ?_, hfault⟩
    rw [hall hr, List.take_append_drop]

theorem of_write (c : Connection) (data : Bytes) :
    ((c.write data).result = .ok () → (c.write data).sent = data) ∧
      ∀ w, (c.write data).result ≠ .error (.malformedMessage w) := of_writeAll rfl

/-- A send that does not fail for its write is one that is refused, or has put the whole frame on
the stream. -/
theorem send_eq {c : Connection} {m : Message}
    (h : (c.send m).result = .ok () ∨ ∃ w, (c.send m).result = .error (.malformedMessage w)) :
    (c.send m).result = sendVerdict m ∧ (c.send m).sent = frames (admitted m) := by
  by_cases hm : Parameters.maxMessageSize < m.frameLength
  · rw [send_of_lt hm, sendVerdict, if_pos hm, admitted_of_lt hm]
    exact ⟨rfl, rfl⟩
  · have hle : m.frameLength ≤ Parameters.maxMessageSize := Nat.not_lt.mp hm
    have hsend : c.send m = c.write m.encode := if_neg hm
    obtain ⟨hall, hfault⟩ := c.of_write m.encode
    rw [hsend] at h ⊢
    have hok : (c.write m.encode).result = .ok () := h.resolve_right (not_exists.mpr hfault)
    rw [sendVerdict, if_neg hm, admitted_of_le hle, frames_singleton]
    exact ⟨hok, hall hok⟩

/-! ### Any number of messages -/

/-- What sending messages one after the other returns, and all that it puts on the stream. -/
def sendAll (c : Connection) : List Message → List (Except Error Unit) × Bytes
  | [] => ([], [])
  | m :: ms =>
    let o := c.send m
    let (results, sent) := o.connection.sendAll ms
    (o.result :: results, o.sent ++ sent)

/-- No send has failed for its write. -/
def Unfailing (results : List (Except Error Unit)) : Prop :=
  ∀ r ∈ results, r = .ok () ∨ ∃ w, r = .error (.malformedMessage w)

/-- On a stream that takes some bytes with every write no send fails for its write. -/
theorem unfailing_sendAll {c : Connection} (h : ∀ a ∈ c.acceptances, ∃ n, a = .limit (n + 1))
    (ms : List Message) : Unfailing (c.sendAll ms).1 := by
  induction ms generalizing c with
  | nil => exact nofun
  | cons m ms ih =>
    by_cases hm : Parameters.maxMessageSize < m.frameLength
    · have hsend := send_of_lt (c := c) hm
      refine List.forall_mem_cons.mpr ⟨.inr ⟨.tooLarge m.frameLength, by rw [hsend]⟩, ih ?_⟩
      rwa [hsend]
    · obtain ⟨rest, hwrite, hrest⟩ := exists_writeAll h false m.encode
      have hsend : c.send m = ⟨.ok (), m.encode, [], { c with acceptances := rest }⟩ := by
        rw [send, if_neg hm]
        simp only [write, hwrite]
      refine List.forall_mem_cons.mpr ⟨.inl (by rw [hsend]), ih ?_⟩
      rw [hsend]
      exact fun a ha => h a (hrest a ha)

/-- The run of sends, by induction on the messages: what is on the stream are the frames of those
that are admitted. -/
theorem sendAll_eq {c : Connection} {ms : List Message} (h : Unfailing (c.sendAll ms).1) :
    c.sendAll ms = (ms.map sendVerdict, frames (ms.flatMap admitted)) := by
  induction ms generalizing c with
  | nil => rfl
  | cons m ms ih =>
    obtain ⟨hm, hms⟩ := List.forall_mem_cons.mp h
    obtain ⟨hresult, hsent⟩ := send_eq hm
    have hrest := ih hms
    simp only [sendAll, hrest, hresult, hsent, List.map_cons, List.flatMap_cons, frames_append]

/-- The messages for which a send returned without an error. -/
def accepted (ms : List Message) (results : List (Except Error Unit)) : List Message :=
  ((ms.zip results).filter fun p => p.2 = .ok ()).map Prod.fst

theorem accepted_map_sendVerdict (ms : List Message) :
    accepted ms (ms.map sendVerdict) = ms.flatMap admitted := by
  induction ms with
  | nil => rfl
  | cons m ms ih =>
    simp only [accepted, List.map_cons, List.zip_cons_cons, List.flatMap_cons] at ih ⊢
    rw [← ih]
    by_cases hm : Parameters.maxMessageSize < m.frameLength
    · rw [List.filter_cons_of_neg (by simp [sendVerdict, hm]), admitted_of_lt hm, List.nil_append]
    · rw [List.filter_cons_of_pos (by simp [sendVerdict, hm]), admitted_of_le (Nat.not_lt.mp hm)]
      rfl

/-- A message is short enough to be sent exactly if its frame is taken off a buffer as that message
and nothing is left of it. A stream that takes some bytes with every write fails no send, and where
no send fails for its write, whatever the stream does, the messages that are refused are those that
are too long, and the bytes on the stream are the frames of the others, one after the other. -/
theorem sendAll_writes_accepted :
    (∀ m : Message, m.frameLength ≤ Parameters.maxMessageSize ↔
      nextMessage m.encode = some (.ok m, [])) ∧
    ∀ (c : Connection) (ms : List Message),
      let run := c.sendAll ms
      ((∀ a ∈ c.acceptances, ∃ n, a = .limit (n + 1)) → Unfailing run.1) ∧
      (Unfailing run.1 →
        run.1 = ms.map (fun m => if Parameters.maxMessageSize < m.frameLength then
          .error (.malformedMessage (.tooLarge m.frameLength)) else .ok ()) ∧
        run.2 = (accepted ms run.1).flatMap Message.encode) := by
  refine ⟨fun m => nextMessage_encode_iff.symm, fun c ms => ⟨fun h => unfailing_sendAll h ms, ?_⟩⟩
  intro h
  rw [sendAll_eq h, accepted_map_sendVerdict]
  exact ⟨rfl, rfl⟩

/-- A message that is one byte too long, between two that are written in parts. -/
theorem sendAll_writes_accepted_of_parts :
    let c : Connection := .new [] [.limit 3, .limit 1]
    ∃ large : Message, large.frameLength = 1 + Parameters.maxMessageSize ∧
      nextMessage large.encode ≠ some (.ok large, []) ∧
      c.sendAll [.have 7, large, .choke] =
        ([.ok (), .error (.malformedMessage (.tooLarge large.frameLength)), .ok ()],
          [0, 0, 0, 5, 4, 0, 0, 0, 7, 0, 0, 0, 1, 0]) := by
  intro c
  have hexists (n : Nat) : ∃ m : Message, m.frameLength = 1 + n :=
    ⟨.bitfield (List.replicate n 0), by rw [Message.frameLength, List.length_replicate]⟩
  obtain ⟨large, hlarge⟩ := hexists Parameters.maxMessageSize
  have hover : Parameters.maxMessageSize < large.frameLength := by omega
  have hhave : ¬Parameters.maxMessageSize < (Message.have 7).frameLength := by decide
  have hchoke : ¬Parameters.maxMessageSize < Message.choke.frameLength := by decide
  have hlimits : ∀ a ∈ c.acceptances, ∃ n, a = .limit (n + 1) := by
    simp [c, new]
  obtain ⟨htaken, hruns⟩ := sendAll_writes_accepted
  obtain ⟨hfails, hwrites⟩ := hruns c [.have 7, large, .choke]
  obtain ⟨hresults, hsent⟩ := hwrites (hfails hlimits)
  simp only [List.map_cons, List.map_nil, if_pos hover, if_neg hhave, if_neg hchoke] at hresults
  rw [hresults] at hsent
  exact ⟨large, hlarge, fun h => absurd ((htaken large).mpr h) (Nat.not_le.mpr hover),
    Prod.ext hresults hsent⟩

end Connection

end BitTorrent.Wire
