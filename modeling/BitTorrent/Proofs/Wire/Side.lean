import BitTorrent.Proofs.Wire.Link

/-! The bytes of a side. It has put its handshake into its channel, the frames of the messages
that it has sent, and a part of what the call in progress writes; it has read a handshake,
the frames of the messages that it has received, and the bytes that it holds. Where these
are the bytes of two sides of one channel, what a side takes off what it holds is what the
other side sent next. -/

namespace BitTorrent.Wire

open Connection

def frames (ms : List Message) : Bytes := ms.flatMap Message.encode

theorem frames_append (ms more : List Message) : frames (ms ++ more) = frames ms ++ frames more :=
  List.flatMap_append

theorem frames_cons (m : Message) (ms : List Message) : frames (m :: ms) = m.encode ++ frames ms :=
  List.flatMap_cons

/-- What a send returns on a stream that does not fail. -/
def sendVerdict (m : Message) : Except Error Unit :=
  if Parameters.maxMessageSize < m.frameLength then
    .error (.malformedMessage (.tooLarge m.frameLength))
  else .ok ()

/-- The message that a send puts on the stream, if it is not too long. -/
def admitted (m : Message) : List Message :=
  if Parameters.maxMessageSize < m.frameLength then [] else [m]

theorem admitted_of_le {m : Message} (hm : m.frameLength ≤ Parameters.maxMessageSize) :
    admitted m = [m] := if_neg (Nat.not_lt.mpr hm)

theorem admitted_of_lt {m : Message} (hm : Parameters.maxMessageSize < m.frameLength) :
    admitted m = [] := if_pos hm

theorem frames_singleton (m : Message) : frames [m] = m.encode := List.append_nil m.encode

/-- Every send on a stream that does not fail, that of a message that is too long included. -/
theorem exists_send_admitted {c : Connection} (h : c.Live) (m : Message) :
    ∃ c', c.send m = ⟨sendVerdict m, frames (admitted m), [], c'⟩ ∧ c'.Live ∧ c'.held = c.held := by
  by_cases hm : Parameters.maxMessageSize < m.frameLength
  · refine ⟨c, ?_, h, rfl⟩
    rw [send_of_lt hm, sendVerdict, if_pos hm, admitted_of_lt hm]
    rfl
  · have hle : m.frameLength ≤ Parameters.maxMessageSize := Nat.not_lt.mp hm
    obtain ⟨c', hsend, hlive, hheld⟩ := exists_send h hle
    refine ⟨c', ?_, hlive, hheld⟩
    rw [hsend, sendVerdict, if_neg hm, admitted_of_le hle, frames_singleton]

namespace Side

variable {ours theirs : Handshake} {s o : Side}

/-! ### The bytes of a side -/

/-- All the bytes that a side has put into its channel. -/
def put (ours : Handshake) (s : Side) : Bytes :=
  (if s.handshake.isSome then ours.encode ++ frames s.accepted else []) ++
    (s.output ours).take s.written

/-- All the bytes that a side has read, if it has received `ms`. -/
def heard (theirs : Handshake) (ms : List Message) (s : Side) : Bytes :=
  (if s.handshake.isSome then theirs.encode ++ frames ms else []) ++ s.connection.held

/-- What holds of a side at any moment, the moment before a call returns included. -/
structure Valid (ours theirs : Handshake) (s : Side) : Prop where
  live : s.connection.Live
  written_le : s.written ≤ (s.output ours).length
  phase : ∀ call, s.call = some call → (call = .handshake ↔ s.handshake = none)
  fresh : s.handshake = none → s.sends = [] ∧ s.receives = []
  handshake_eq : ∀ r, s.handshake = some r → r = verdict ours theirs
  sends_eq : ∀ p ∈ s.sends, p.2 = sendVerdict p.1

/-- A call in progress still has bytes to write or waits for some. -/
def Settled (ours : Handshake) (s : Side) : Prop :=
  s.call.isSome → s.written < (s.output ours).length ∨ s.waits ours

/-- What `s` has put into its channel has been read by `o` or is in flight, and what `o` has
received are the first of the messages that `s` has sent. -/
def Delivers (ours : Handshake) (s o : Side) (inFlight : Bytes) : Prop :=
  ∃ ms, o.receives = ms.map .ok ∧ ms <+: s.accepted ∧ s.put ours = o.heard ours ms ++ inFlight

theorem output_of_send {m : Message} (h : s.connection.Live) (hcall : s.call = some (.send m)) :
    s.output ours = frames (admitted m) := by
  obtain ⟨c', hsend, -, -⟩ := exists_send_admitted h m
  simp only [output, hcall, hsend]

theorem output_of_handshake (h : s.connection.Live) (hcall : s.call = some .handshake) :
    s.output ours = ours.encode := by
  simp only [output, hcall]
  exact sent_handshake h ours

/-- The bytes that a call writes do not depend on what the channels have done so far. -/
theorem output_congr (h : s.connection.Live) (h' : o.connection.Live) (hcall : o.call = s.call) :
    o.output ours = s.output ours := by
  cases hc : s.call with
  | none => simp only [output, hcall, hc]
  | some call =>
    rw [hc] at hcall
    cases call with
    | handshake => rw [output_of_handshake h hc, output_of_handshake h' hcall]
    | send m => rw [output_of_send h hc, output_of_send h' hcall]
    | receive =>
      simp only [output, hcall, hc]
      rfl

theorem put_of_call_eq_none (h : s.call = none) :
    s.put ours = if s.handshake.isSome then ours.encode ++ frames s.accepted else [] := by
  simp [put, output, h]

theorem handshake_isSome (hvalid : s.Valid ours theirs) {call : Call} (hcall : s.call = some call)
    (h : call ≠ .handshake) : s.handshake.isSome := by
  cases hh : s.handshake with
  | none => exact absurd ((hvalid.phase call hcall).mpr hh) h
  | some r => rfl

theorem accepted_of_sends_nil (h : s.sends = []) : s.accepted = [] := by
  rw [accepted, h]
  rfl

theorem frameLength_le_of_mem_accepted (hvalid : s.Valid ours theirs) {m : Message}
    (hm : m ∈ s.accepted) : m.frameLength ≤ Parameters.maxMessageSize := by
  obtain ⟨⟨m', result⟩, hmem, hsome⟩ := List.mem_filterMap.mp hm
  have hresult : result = sendVerdict m' := hvalid.sends_eq _ hmem
  apply Nat.not_lt.mp
  intro hlt
  cases result with
  | error e => cases hsome
  | ok u =>
    obtain rfl : m' = m := Option.some.inj hsome
    rw [sendVerdict, if_pos hlt] at hresult
    cases hresult

/-! ### What comes next in a channel -/

/-- Before its handshake returns a side has put nothing but that into its channel. -/
theorem put_of_handshake_eq_none (hvalid : s.Valid ours theirs) (h : s.handshake = none) :
    ∃ z, ours.encode = s.put ours ++ z := by
  have hput : s.put ours = (s.output ours).take s.written := by
    simp [put, h]
  rw [hput]
  cases hcall : s.call with
  | none => exact ⟨ours.encode, by simp [output, hcall]⟩
  | some call =>
    obtain rfl := (hvalid.phase call hcall).mpr h
    rw [output_of_handshake hvalid.live hcall]
    exact ⟨ours.encode.drop s.written, (List.take_append_drop s.written ours.encode).symm⟩

/-- After it, there is at most an unfinished frame behind those of the messages it has sent. -/
theorem put_of_handshake_isSome (hvalid : s.Valid ours theirs) (hsettled : s.Settled ours)
    (h : s.handshake.isSome) :
    ∃ tail, s.put ours = ours.encode ++ frames s.accepted ++ tail ∧
      ∃ (m : Message) (z : Bytes),
        m.frameLength ≤ Parameters.maxMessageSize ∧ z ≠ [] ∧ m.encode = tail ++ z := by
  refine ⟨(s.output ours).take s.written, by simp [put, h], ?_⟩
  have hnothing (hout : s.output ours = []) : ∃ (m : Message) (z : Bytes),
      m.frameLength ≤ Parameters.maxMessageSize ∧ z ≠ [] ∧
        m.encode = (s.output ours).take s.written ++ z := by
    refine ⟨.keepAlive, Message.keepAlive.encode, by decide, by decide, ?_⟩
    rw [hout, List.take_nil, List.nil_append]
  cases hcall : s.call with
  | none => exact hnothing (by simp [output, hcall])
  | some call =>
    cases call with
    | handshake => simp [(hvalid.phase _ hcall).mp rfl] at h
    | receive => exact hnothing (by simp only [output, hcall]; rfl)
    | send m =>
      have hout : s.output ours = frames (admitted m) := output_of_send hvalid.live hcall
      by_cases hm : Parameters.maxMessageSize < m.frameLength
      · exact hnothing (by rw [hout, admitted_of_lt hm]; rfl)
      · have hle : m.frameLength ≤ Parameters.maxMessageSize := Nat.not_lt.mp hm
        obtain ⟨c', hsend, -, -⟩ := exists_send hvalid.live hle
        have hwaits : s.waits ours = false := by
          simp only [waits, hcall, hsend]
          rfl
        have hlt : s.written < (s.output ours).length := by
          simpa [hwaits] using hsettled (by simp [hcall])
        rw [hout, admitted_of_le hle, frames_singleton] at hlt ⊢
        refine ⟨m, m.encode.drop s.written, hle, ?_, (List.take_append_drop _ _).symm⟩
        simpa using hlt

/-- The first item that a side takes off what it holds is the handshake of the other. -/
theorem of_takeHandshake {fl rest : Bytes} {r : Except Error Handshake}
    (hvalid : s.Valid ours theirs) (hput : s.put ours = o.connection.held ++ fl)
    (h : takeHandshake o.connection.held = (some r, rest)) :
    r = .ok ours ∧ o.connection.held = ours.encode ++ rest := by
  have hitem := isItem_handshake ours
  have hwhole (y : Bytes) (hy : s.put ours = ours.encode ++ y) :
      r = .ok ours ∧ o.connection.held = ours.encode ++ rest := by
    obtain ⟨hr, hheld, -⟩ := hitem.of_take incremental_takeHandshake (hput ▸ hy) h
    exact ⟨hr, hheld⟩
  by_cases hh : s.handshake.isSome
  · exact hwhole (frames s.accepted ++ (s.output ours).take s.written) (by simp [put, hh])
  · obtain ⟨z, hz⟩ := put_of_handshake_eq_none hvalid (by simpa using hh)
    by_cases hne : z = []
    · exact hwhole [] (by rw [hz, hne, List.append_nil, List.append_nil])
    · rw [hput, List.append_assoc] at hz
      have hnone := hitem.take_eq_none incremental_takeHandshake hz (by simp [hne])
      rw [hnone] at h
      cases h

/-- Every later item is the message that the other side sent next. -/
theorem of_takeMessage {fl rest : Bytes} {r : Except Error Message} {ms : List Message}
    (hvalid : s.Valid ours theirs) (hsettled : s.Settled ours) (hms : ms <+: s.accepted)
    (hput : s.put ours = ours.encode ++ frames ms ++ o.connection.held ++ fl)
    (h : takeMessage o.connection.held = (some r, rest)) :
    ∃ m, r = .ok m ∧ o.connection.held = m.encode ++ rest ∧ ms ++ [m] <+: s.accepted := by
  have hempty : o.connection.held ≠ [] := by
    intro hnil
    rw [hnil] at h
    cases h
  by_cases hh : s.handshake.isSome
  · obtain ⟨tail, htail, m', z, hm', hz, hpart⟩ := put_of_handshake_isSome hvalid hsettled hh
    obtain ⟨more, hmore⟩ := hms
    have hrest : o.connection.held ++ fl = frames more ++ tail := by
      rw [hput, ← hmore, frames_append] at htail
      simp only [List.append_assoc] at htail
      exact List.append_cancel_left (List.append_cancel_left htail)
    cases more with
    | nil =>
      -- The part of a frame that has been written is not taken for a message.
      have hsplit : m'.encode = o.connection.held ++ (fl ++ z) := by
        rw [← List.append_assoc, hrest, hpart]
        rfl
      have hnone := (isItem_message hm').take_eq_none incremental_takeMessage hsplit (by simp [hz])
      rw [hnone] at h
      cases h
    | cons m more =>
      have hm : m.frameLength ≤ Parameters.maxMessageSize :=
        frameLength_le_of_mem_accepted hvalid (by simp [← hmore])
      rw [frames_cons, List.append_assoc] at hrest
      obtain ⟨hr, hheld, -⟩ := (isItem_message hm).of_take incremental_takeMessage hrest h
      refine ⟨m, hr, hheld, more, ?_⟩
      rw [← hmore, List.append_assoc, List.singleton_append]
  · obtain ⟨z, hz⟩ := put_of_handshake_eq_none hvalid (by simpa using hh)
    have hlen := congrArg List.length hz
    have hpos := List.length_pos_iff.mpr hempty
    rw [hput] at hlen
    simp only [List.length_append] at hlen
    omega

end Side

end BitTorrent.Wire
