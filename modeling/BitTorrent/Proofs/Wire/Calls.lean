import BitTorrent.Proofs.Wire.Side

/-! What a step does to a side. A call that begins, the bytes that a channel takes and those
that it brings change what a side has written and read by just these bytes; a call that
returns changes neither, and returns what the other side has sent next. -/

namespace BitTorrent.Wire

open Connection

namespace Side

variable {ours theirs : Handshake} {s o : Side}

/-! ### Returning from a call -/

/-- A side goes on from `s` to `s'` with the same bytes read and written. -/
structure Continues (ours theirs : Handshake) (o : Side) (back : Bytes) (s s' : Side) : Prop where
  valid : s'.Valid ours theirs
  put_eq : s'.put ours = s.put ours
  accepted : s.accepted <+: s'.accepted
  delivers : o.Delivers theirs s' back

section Returning

variable {back : Bytes}

theorem valid_close (hvalid : s.Valid ours theirs) {c : Connection} (hlive : c.Live) :
    (s.close c).Valid ours theirs := by
  refine ⟨hlive, Nat.zero_le _, ?_, hvalid.fresh, hvalid.handshake_eq, hvalid.sends_eq⟩
  intro call hcall
  cases hcall

theorem valid_recordHandshake (hvalid : s.Valid ours theirs) (hcall : s.call = none) :
    (s.recordHandshake (verdict ours theirs)).Valid ours theirs := by
  refine ⟨hvalid.live, hvalid.written_le, ?_, ?_, ?_, hvalid.sends_eq⟩
  · intro call hsome
    have hsome : s.call = some call := hsome
    rw [hcall] at hsome
    cases hsome
  · intro hnone
    cases hnone
  · intro r hr
    exact (Option.some.inj hr).symm

theorem valid_recordSend (hvalid : s.Valid ours theirs) (hhandshake : s.handshake.isSome)
    (m : Message) : (s.recordSend m (sendVerdict m)).Valid ours theirs := by
  refine ⟨hvalid.live, hvalid.written_le, hvalid.phase, ?_, hvalid.handshake_eq, ?_⟩
  · intro hnone
    have hnone : s.handshake = none := hnone
    simp [hnone] at hhandshake
  · intro p hp
    rcases List.mem_append.mp hp with hp | hp
    · exact hvalid.sends_eq p hp
    · rw [List.mem_singleton.mp hp]

theorem valid_recordReceive (hvalid : s.Valid ours theirs) (hhandshake : s.handshake.isSome)
    (r : Except Error Message) : (s.recordReceive r).Valid ours theirs := by
  refine ⟨hvalid.live, hvalid.written_le, hvalid.phase, ?_, hvalid.handshake_eq, hvalid.sends_eq⟩
  intro hnone
  have hnone : s.handshake = none := hnone
  simp [hnone] at hhandshake

theorem accepted_recordSend (s : Side) (m : Message) :
    (s.recordSend m (sendVerdict m)).accepted = s.accepted ++ admitted m := by
  rw [accepted, recordSend, List.filterMap_append, accepted]
  congr 1
  by_cases hm : Parameters.maxMessageSize < m.frameLength
  · rw [sendVerdict, if_pos hm, admitted_of_lt hm]
    rfl
  · rw [sendVerdict, if_neg hm, admitted_of_le (Nat.not_lt.mp hm)]
    rfl

theorem returned_send {m : Message} (hvalid : s.Valid ours theirs)
    (hdelivers : o.Delivers theirs s back) (hcall : s.call = some (.send m))
    (hwritten : (s.output ours).length ≤ s.written) :
    Continues ours theirs o back s (s.returned ours) := by
  obtain ⟨c', hsend, hlive, hheld⟩ := exists_send_admitted hvalid.live m
  have hreturned : s.returned ours = (s.close c').recordSend m (sendVerdict m) := by
    simp only [returned, hcall, hsend]
  have hhandshake := handshake_isSome hvalid hcall (by simp)
  have haccepted : ((s.close c').recordSend m (sendVerdict m)).accepted =
      s.accepted ++ admitted m := accepted_recordSend (s.close c') m
  rw [hreturned]
  refine ⟨valid_recordSend (valid_close hvalid hlive) hhandshake m, ?_, ?_, ?_⟩
  · have hhandshake' : ((s.close c').recordSend m (sendVerdict m)).handshake.isSome := hhandshake
    rw [put_of_call_eq_none rfl, if_pos hhandshake', put, if_pos hhandshake,
      List.take_of_length_le hwritten, output_of_send hvalid.live hcall, haccepted, frames_append,
      List.append_assoc]
  · exact ⟨_, haccepted.symm⟩
  · obtain ⟨ms, hreceives, hms, hput⟩ := hdelivers
    refine ⟨ms, hreceives, hms, ?_⟩
    rw [hput, heard, heard, ← hheld]
    rfl

theorem returned_receive (hvalid : s.Valid ours theirs) (ho : o.Valid theirs ours)
    (hsettled : o.Settled theirs) (hdelivers : o.Delivers theirs s back)
    (hcall : s.call = some .receive) (hwaits : s.waits ours = false) :
    Continues ours theirs o back s (s.returned ours) := by
  have hhandshake := handshake_isSome hvalid hcall (by simp)
  obtain ⟨ms, hreceives, hms, hput⟩ := hdelivers
  rw [heard, if_pos hhandshake] at hput
  rcases hnext : takeMessage s.connection.held with ⟨_ | r, rest⟩
  · have hresult := read_of_none incremental_takeMessage hvalid.live hnext
    simp [waits, hcall, receive_eq_read, Outcome.waits, hresult] at hwaits
  · obtain ⟨m, rfl, hheld, hms'⟩ := of_takeMessage ho hsettled hms hput hnext
    obtain ⟨hresult, hlive, hrest⟩ := read_of_some incremental_takeMessage hvalid.live hnext
    have hreturned : s.returned ours =
        (s.close (s.connection.read takeMessage).connection).recordReceive (.ok m) := by
      simp only [returned, hcall, receive_eq_read, hresult]
    rw [hreturned]
    generalize (s.connection.read takeMessage).connection = c' at hlive hrest
    refine ⟨valid_recordReceive (valid_close hvalid hlive) hhandshake (.ok m), ?_,
      List.prefix_refl _, ms ++ [m], ?_, hms', ?_⟩
    · have hout : s.output ours = [] := by
        simp only [output, hcall]
        rfl
      rw [put_of_call_eq_none rfl, put, hout, List.take_nil, List.append_nil]
      rfl
    · rw [List.map_append, ← hreceives]
      rfl
    · have hheard : ((s.close c').recordReceive (.ok m)).heard theirs (ms ++ [m]) =
          theirs.encode ++ frames (ms ++ [m]) ++ rest := by
        rw [← hrest]
        exact congrArg (· ++ c'.held) (if_pos hhandshake)
      rw [hput, hheard, hheld, frames_append, frames_singleton]
      simp only [List.append_assoc]

theorem returned_handshake (hvalid : s.Valid ours theirs) (ho : o.Valid theirs ours)
    (hdelivers : o.Delivers theirs s back) (hcall : s.call = some .handshake)
    (hwritten : (s.output ours).length ≤ s.written) (hwaits : s.waits ours = false) :
    Continues ours theirs o back s (s.returned ours) := by
  have hhandshake : s.handshake = none := (hvalid.phase _ hcall).mp rfl
  obtain ⟨hsends, hreceives⟩ := hvalid.fresh hhandshake
  obtain ⟨ms, hms, -, hput⟩ := hdelivers
  obtain rfl : ms = [] := List.map_eq_nil_iff.mp (hms.symm.trans hreceives)
  have hheld : o.put theirs = s.connection.held ++ back := by simpa [heard, hhandshake] using hput
  rcases hnext : takeHandshake s.connection.held with ⟨_ | r, rest⟩
  · have hresult := handshake_of_none hvalid.live ours hnext
    simp [waits, hcall, Outcome.waits, hresult] at hwaits
  · obtain ⟨rfl, hsplit⟩ := of_takeHandshake ho hheld hnext
    obtain ⟨hresult, hlive, hrest⟩ := handshake_of_some hvalid.live ours hnext
    have hreturned : s.returned ours =
        (s.close (s.connection.handshake ours).connection).recordHandshake
          (verdict ours theirs) := by
      simp only [returned, hcall, hresult]
    rw [hreturned]
    generalize (s.connection.handshake ours).connection = c' at hlive hrest
    refine ⟨valid_recordHandshake (valid_close hvalid hlive) rfl, ?_, List.prefix_refl _, [],
      hreceives, List.nil_prefix, ?_⟩
    · have hput' : ((s.close c').recordHandshake (verdict ours theirs)).put ours =
          ours.encode ++ frames s.accepted ++ [] := rfl
      have hall : s.put ours = ours.encode := by
        rw [put, hhandshake, List.take_of_length_le hwritten, output_of_handshake hvalid.live hcall]
        rfl
      rw [hput', hall, accepted_of_sends_nil hsends]
      simp [frames]
    · have hheard : ((s.close c').recordHandshake (verdict ours theirs)).heard theirs [] =
          theirs.encode ++ [] ++ c'.held := rfl
      rw [hheld, hheard, hsplit, hrest, List.append_nil]

/-- Settling a side goes on with the same bytes, and leaves it with work to do or idle. -/
theorem continues_settle (hvalid : s.Valid ours theirs) (ho : o.Valid theirs ours)
    (hsettled : o.Settled theirs) (hdelivers : o.Delivers theirs s back) :
    Continues ours theirs o back s (s.settle ours) ∧ (s.settle ours).Settled ours := by
  unfold settle
  by_cases hopen : s.written < (s.output ours).length ∨ s.waits ours
  · rw [if_pos hopen]
    exact ⟨⟨hvalid, rfl, List.prefix_refl _, hdelivers⟩, fun _ => hopen⟩
  · rw [if_neg hopen]
    obtain ⟨hwritten, hwaits⟩ := not_or.mp hopen
    have hwritten : (s.output ours).length ≤ s.written := Nat.not_lt.mp hwritten
    have hwaits : s.waits ours = false := by simpa using hwaits
    have hcall : (s.returned ours).call = none := by
      unfold returned
      split
      · assumption
      all_goals rfl
    refine ⟨?_, fun h => by simp [hcall] at h⟩
    cases hc : s.call with
    | none =>
      have hsame : s.returned ours = s := by simp only [returned, hc]
      rw [hsame]
      exact ⟨hvalid, rfl, List.prefix_refl _, hdelivers⟩
    | some call =>
      cases call with
      | handshake => exact returned_handshake hvalid ho hdelivers hc hwritten hwaits
      | send m => exact returned_send hvalid hdelivers hc hwritten
      | receive => exact returned_receive hvalid ho hsettled hdelivers hc hwaits

end Returning

/-! ### What the channels do -/

theorem Delivers.of_continues {s' : Side} {fl back : Bytes} (h : s.Delivers ours o fl)
    (hcont : Continues ours theirs o back s s') : s'.Delivers ours o fl := by
  obtain ⟨ms, hreceives, hms, hput⟩ := h
  refine ⟨ms, hreceives, hms.trans hcont.accepted, ?_⟩
  rw [hcont.put_eq, hput]

theorem valid_new (ours theirs : Handshake) : new.Valid ours theirs :=
  ⟨⟨nofun, nofun⟩, Nat.le_refl 0, nofun, fun _ => ⟨rfl, rfl⟩, nofun, nofun⟩

theorem settled_new (ours : Handshake) : new.Settled ours := nofun

theorem delivers_new (ours : Handshake) : new.Delivers ours new [] :=
  ⟨[], rfl, List.prefix_refl [], rfl⟩

theorem written_eq_zero (hvalid : s.Valid ours theirs) (h : s.call = none) : s.written = 0 := by
  have hle := hvalid.written_le
  simp only [output, h, List.length_nil] at hle
  omega

theorem of_mayStart {call : Call} (h : s.mayStart call = true) :
    s.call = none ∧ (call = .handshake ↔ s.handshake = none) := by
  unfold mayStart at h
  rw [Bool.and_eq_true, Option.isNone_iff_eq_none] at h
  refine ⟨h.1, ?_⟩
  cases call with
  | handshake => simpa using h.2
  | send m => simpa [Option.isSome_iff_ne_none] using h.2
  | receive => simpa [Option.isSome_iff_ne_none] using h.2

/-- Calls begin with nothing written. -/
theorem continues_start {call : Call} (hvalid : s.Valid ours theirs)
    (hstart : s.mayStart call = true) {back : Bytes} (hdelivers : o.Delivers theirs s back) :
    Continues ours theirs o back s (s.start call) := by
  obtain ⟨hidle, hphase⟩ := of_mayStart hstart
  have hwritten := written_eq_zero hvalid hidle
  refine ⟨⟨hvalid.live, ?_, ?_, hvalid.fresh, hvalid.handshake_eq, hvalid.sends_eq⟩, ?_,
    List.prefix_refl _, hdelivers⟩
  · show s.written ≤ _
    omega
  · intro call' hcall'
    obtain rfl := Option.some.inj hcall'
    exact hphase
  · show _ ++ ((s.start call).output ours).take s.written = _ ++ (s.output ours).take s.written
    rw [hwritten, List.take_zero, List.take_zero]
    rfl

/-- The call of a send that is refused is over before anything else happens. -/
theorem settle_start_of_lt (ours : Handshake) (hidle : s.call = none) (hwritten : s.written = 0)
    {m : Message} (hm : Parameters.maxMessageSize < m.frameLength) :
    (s.start (.send m)).settle ours =
      s.recordSend m (.error (.malformedMessage (.tooLarge m.frameLength))) := by
  have hsend : s.connection.send m =
      ⟨.error (.malformedMessage (.tooLarge m.frameLength)), [], [], s.connection⟩ := send_of_lt hm
  have hout : (s.start (.send m)).output ours = [] := by
    simp only [output, start, hsend]
  have hwaits : (s.start (.send m)).waits ours = false := by
    simp only [waits, start, hsend]
    rfl
  rw [settle, hout, hwaits, if_neg (by simp)]
  simp only [returned, start, hsend]
  obtain ⟨connection, call, written, handshake, sends, receives⟩ := s
  obtain rfl : call = none := hidle
  obtain rfl : written = 0 := hwritten
  rfl

theorem live_accept (h : s.connection.Live) {n : Nat} (hn : 0 < n) :
    (s.accept n).connection.Live := by
  refine ⟨h.arrivals, ?_⟩
  intro a ha
  rcases List.mem_append.mp ha with ha | ha
  · exact h.acceptances a ha
  · exact ⟨n - 1, by rw [List.mem_singleton.mp ha, Nat.sub_add_cancel hn]⟩

theorem live_arrive (h : s.connection.Live) {data : Bytes} (hdata : data ≠ []) :
    (s.arrive data).connection.Live := by
  refine ⟨?_, h.acceptances⟩
  intro a ha
  rcases List.mem_append.mp ha with ha | ha
  · exact h.arrivals a ha
  · exact ⟨data, hdata, List.mem_singleton.mp ha⟩

theorem output_accept (h : s.connection.Live) {n : Nat} (hn : 0 < n) :
    (s.accept n).output ours = s.output ours := output_congr h (live_accept h hn) rfl

theorem output_arrive (h : s.connection.Live) {data : Bytes} (hdata : data ≠ []) :
    (s.arrive data).output ours = s.output ours := output_congr h (live_arrive h hdata) rfl

/-- What is written next goes to the end of the channel. -/
theorem put_accept (hvalid : s.Valid ours theirs) {n : Nat} (hn : 0 < n) :
    (s.accept n).put ours = s.put ours ++ ((s.output ours).drop s.written).take n := by
  have htake : (s.output ours).take (s.written + n) =
      (s.output ours).take s.written ++ ((s.output ours).drop s.written).take n := List.take_add
  rw [put, output_accept hvalid.live hn, put, List.append_assoc, ← htake]
  rfl

theorem valid_accept (hvalid : s.Valid ours theirs) {n : Nat} (hn : 0 < n)
    (hle : n ≤ ((s.output ours).drop s.written).length) : (s.accept n).Valid ours theirs := by
  have hwritten := hvalid.written_le
  refine ⟨live_accept hvalid.live hn, ?_, hvalid.phase, hvalid.fresh, hvalid.handshake_eq,
    hvalid.sends_eq⟩
  rw [output_accept hvalid.live hn]
  show s.written + n ≤ _
  rw [List.length_drop] at hle
  omega

theorem put_arrive (hvalid : s.Valid ours theirs) {data : Bytes} (hdata : data ≠ []) :
    (s.arrive data).put ours = s.put ours := by
  rw [put, output_arrive hvalid.live hdata]
  rfl

theorem valid_arrive (hvalid : s.Valid ours theirs) {data : Bytes} (hdata : data ≠ []) :
    (s.arrive data).Valid ours theirs := by
  refine ⟨live_arrive hvalid.live hdata, ?_, hvalid.phase, hvalid.fresh, hvalid.handshake_eq,
    hvalid.sends_eq⟩
  rw [output_arrive hvalid.live hdata]
  exact hvalid.written_le

/-- What is read next is added to what is held. -/
theorem heard_arrive (theirs : Handshake) (ms : List Message) (s : Side) (data : Bytes) :
    (s.arrive data).heard theirs ms = s.heard theirs ms ++ data := by
  have hheld : (s.arrive data).connection.held = s.connection.held ++ data := by
    simp [arrive, held, Arrival.bytes]
  rw [heard, hheld, heard, List.append_assoc]
  rfl

end Side

end BitTorrent.Wire
