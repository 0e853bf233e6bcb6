import BitTorrent.Proofs.Wire.Calls

/-! What a link delivers. Along every run the bytes that one side has put into its channel
are those that the other has read, followed by those in flight. So the handshakes agree,
and what is received is what was sent, in order, each message once and unchanged. -/

namespace BitTorrent.Wire

open Connection

namespace Link

open Side

/-! ### Runs -/

/-- What holds at every moment between two steps, from both ends. -/
structure Inv (ours : End → Handshake) (l : Link) : Prop where
  valid : ∀ e, (l.side e).Valid (ours e) (ours e.other)
  settled : ∀ e, (l.side e).Settled (ours e)
  delivers : ∀ e, (l.side e).Delivers (ours e) (l.side e.other) (l.inFlight e)

variable {ours : End → Handshake} {l : Link}

theorem Inv.valid_other (hinv : l.Inv ours) (e : End) :
    (l.side e.other).Valid (ours e.other) (ours e) := by
  have h := hinv.valid e.other
  rwa [End.other_other] at h

theorem Inv.delivers_other (hinv : l.Inv ours) (e : End) :
    (l.side e.other).Delivers (ours e.other) (l.side e) (l.inFlight e.other) := by
  have h := hinv.delivers e.other
  rwa [End.other_other] at h

theorem inv_new (ours : End → Handshake) : new.Inv ours :=
  ⟨fun e => valid_new (ours e) (ours e.other), fun e => settled_new (ours e),
    fun e => delivers_new (ours e)⟩

/-- A step leaves one side with new bytes in its channels, and then settles it. -/
theorem Inv.replace (hinv : l.Inv ours) (e : End) {s : Side} {out back : Bytes}
    (hvalid : s.Valid (ours e) (ours e.other))
    (hout : s.Delivers (ours e) (l.side e.other) out)
    (hback : (l.side e.other).Delivers (ours e.other) s back) :
    (l.replace e (s.settle (ours e)) out back).Inv ours := by
  obtain ⟨hcont, hsettled⟩ :=
    continues_settle hvalid (hinv.valid_other e) (hinv.settled e.other) hback
  have hout' := hout.of_continues hcont
  refine ⟨?_, ?_, ?_⟩
  · intro i
    cases e <;> cases i
    · exact hcont.valid
    · exact hinv.valid .far
    · exact hinv.valid .near
    · exact hcont.valid
  · intro i
    cases e <;> cases i
    · exact hsettled
    · exact hinv.settled .far
    · exact hinv.settled .near
    · exact hsettled
  · intro i
    cases e <;> cases i
    · exact hout'
    · exact hcont.delivers
    · exact hcont.delivers
    · exact hout'

theorem Inv.step (hinv : l.Inv ours) (turn : Turn) : (l.step ours turn).Inv ours := by
  obtain ⟨e, action⟩ := turn
  have hvalid := hinv.valid e
  have hout := hinv.delivers e
  have hback := hinv.delivers_other e
  cases action with
  | start call =>
    simp only [Link.step]
    split
    · rename_i hstart
      have hcont := continues_start hvalid hstart hback
      exact hinv.replace e hcont.valid (hout.of_continues hcont) hcont.delivers
    · exact hinv
  | write n =>
    simp only [Link.step]
    split
    · rename_i hn
      obtain ⟨ms, hreceives, hms, hput⟩ := hout
      refine hinv.replace e (valid_accept hvalid hn.1 hn.2) ⟨ms, hreceives, hms, ?_⟩ hback
      rw [put_accept hvalid hn.1, hput, List.append_assoc]
    · exact hinv
  | read n =>
    simp only [Link.step]
    split
    · rename_i hn
      have hdata : (l.inFlight e.other).take n ≠ [] := by
        intro hnil
        have hlen := congrArg List.length hnil
        rw [List.length_take, List.length_nil] at hlen
        omega
      obtain ⟨ms, hreceives, hms, hput⟩ := hback
      have hout' : ((l.side e).arrive ((l.inFlight e.other).take n)).Delivers (ours e)
          (l.side e.other) (l.inFlight e) := by
        obtain ⟨ms, hreceives, hms, hput⟩ := hout
        refine ⟨ms, hreceives, hms, ?_⟩
        rw [put_arrive hvalid hdata, hput]
      refine hinv.replace e (valid_arrive hvalid hdata) hout' ⟨ms, hreceives, hms, ?_⟩
      rw [heard_arrive, hput, List.append_assoc, List.take_append_drop]
    · exact hinv

/-- The invariant holds after every run, by induction on its steps. -/
theorem inv_run (ours : End → Handshake) (turns : List Turn) : (run ours turns).Inv ours := by
  have hfold : ∀ l : Link, l.Inv ours → (turns.foldl (Link.step ours) l).Inv ours := by
    induction turns with
    | nil => exact fun l hinv => hinv
    | cons turn turns ih => exact fun l hinv => ih (l.step ours turn) (hinv.step turn)
  exact hfold new (inv_new ours)

/-! ### What is delivered -/

/-- Nothing is lost: where nothing is in flight and nothing is under way, a side that still
waits for a message has received all that were sent. -/
theorem receives_eq_of_quiet (hinv : l.Inv ours) (e : End) (hcall : (l.side e).call = some .receive)
    (hother : (l.side e.other).call = none) (hflight : l.inFlight e.other = []) :
    (l.side e).receives = (l.side e.other).accepted.map .ok := by
  have hvalid := hinv.valid e
  have hvalid' := hinv.valid_other e
  obtain ⟨ms, hreceives, ⟨more, hmore⟩, hput⟩ := hinv.delivers_other e
  have hhandshake := handshake_isSome hvalid hcall (by simp)
  have hwaits : (l.side e).waits (ours e) = true := by
    have hout : (l.side e).output (ours e) = [] := by
      simp only [output, hcall]
      rfl
    have hsettled := hinv.settled e (by simp [hcall])
    rw [hout] at hsettled
    simpa using hsettled
  have hnone : (takeMessage (l.side e).connection.held).1 = none := by
    rcases hnext : takeMessage (l.side e).connection.held with ⟨_ | r, rest⟩
    · rfl
    · obtain ⟨m, rfl, -, -⟩ := of_takeMessage hvalid' (hinv.settled e.other) ⟨more, hmore⟩
        (by rw [hput, heard, if_pos hhandshake]) hnext
      obtain ⟨hresult, -, -⟩ := read_of_some incremental_takeMessage hvalid.live hnext
      simp [waits, hcall, receive_eq_read, Outcome.waits, hresult] at hwaits
  rw [put_of_call_eq_none hother, hflight, List.append_nil, heard, if_pos hhandshake] at hput
  by_cases hsent : (l.side e.other).handshake.isSome
  · rw [if_pos hsent, ← hmore, frames_append, List.append_assoc] at hput
    have hheld : frames more = (l.side e).connection.held :=
      List.append_cancel_left (List.append_cancel_left hput)
    cases more with
    | nil => rw [hreceives, ← hmore, List.append_nil]
    | cons m more =>
      have hm : m.frameLength ≤ Parameters.maxMessageSize :=
        frameLength_le_of_mem_accepted hvalid' (by simp [← hmore])
      rw [← hheld, frames_cons, isItem_message hm] at hnone
      cases hnone
  · rw [if_neg hsent] at hput
    have hlen := congrArg List.length hput
    have hpos := (ours e.other).length_encode
    simp only [List.length_append, List.length_nil] at hlen
    omega

/-- A message that is too long is refused at once, and nothing else changes. -/
theorem step_send_of_lt (hinv : l.Inv ours) (e : End) {m : Message}
    (hm : Parameters.maxMessageSize < m.frameLength)
    (hstart : (l.side e).mayStart (.send m) = true) :
    let l' := l.step ours ⟨e, .start (.send m)⟩
    l'.inFlight = l.inFlight ∧ l'.side e.other = l.side e.other ∧
      l'.side e =
        (l.side e).recordSend m (.error (.malformedMessage (.tooLarge m.frameLength))) := by
  obtain ⟨hidle, -⟩ := of_mayStart hstart
  have hwritten := written_eq_zero (hinv.valid e) hidle
  have hsettle := settle_start_of_lt (ours e) hidle hwritten hm
  have hstep : l.step ours ⟨e, .start (.send m)⟩ =
      l.replace e ((l.side e).recordSend m (.error (.malformedMessage (.tooLarge m.frameLength))))
        (l.inFlight e) (l.inFlight e.other) := by
    simp only [Link.step, hstart, if_true, hsettle]
  rw [hstep]
  refine ⟨?_, ?_, ?_⟩
  · funext i
    cases e <;> cases i <;> rfl
  · cases e <;> rfl
  · cases e <;> rfl

/-- After any steps of the two sides in any order, however the channels cut the bytes: a
handshake that has returned has answered that of the other side exactly if both are for the
same torrent, on both sides alike; what has been received are the first of the messages for
which a send of the other side returned, in order and each once, and all of them when nothing
is under way; and a message that is too long is refused and changes nothing else. -/
theorem run_delivers (ours : End → Handshake) (turns : List Turn) (e : End) :
    let l := run ours turns
    (∀ r, (l.side e).handshake = some r →
      r = if (ours e.other).infoHash = (ours e).infoHash then .ok (ours e.other)
        else .error .infoHashMismatch) ∧
    (∀ h, (l.side e).handshake = some (.ok h) →
      (l.side e.other).handshake ≠ some (.error .infoHashMismatch)) ∧
    (∃ ms, (l.side e).receives = ms.map .ok ∧ ms <+: (l.side e.other).accepted) ∧
    ((l.side e).call = some .receive → (l.side e.other).call = none → l.inFlight e.other = [] →
      (l.side e).receives = (l.side e.other).accepted.map .ok) ∧
    (∀ p ∈ (l.side e).sends, p.2 = if Parameters.maxMessageSize < p.1.frameLength then
      .error (.malformedMessage (.tooLarge p.1.frameLength)) else .ok ()) ∧
    ∀ m : Message, Parameters.maxMessageSize < m.frameLength →
      (l.side e).mayStart (.send m) = true →
      let l' := l.step ours ⟨e, .start (.send m)⟩
      l'.inFlight = l.inFlight ∧ l'.side e.other = l.side e.other ∧
        l'.side e =
          (l.side e).recordSend m (.error (.malformedMessage (.tooLarge m.frameLength))) := by
  intro l
  have hinv : l.Inv ours := inv_run ours turns
  have hvalid := hinv.valid e
  refine ⟨hvalid.handshake_eq, ?_, ?_, receives_eq_of_quiet hinv e, hvalid.sends_eq,
    fun m => step_send_of_lt hinv e⟩
  · intro h hh hmismatch
    have hours := hvalid.handshake_eq _ hh
    have htheirs := (hinv.valid_other e).handshake_eq _ hmismatch
    unfold verdict at hours htheirs
    split at hours
    · rename_i hsame
      rw [if_pos hsame.symm] at htheirs
      cases htheirs
    · cases hours
  · obtain ⟨ms, hreceives, hms, -⟩ := hinv.delivers_other e
    exact ⟨ms, hreceives, hms⟩

/-- A read brings a handshake with the start of a frame, and the next one its rest with the
start of another. -/
theorem run_delivers_across_reads :
    let ours : End → Handshake
      | .near => ⟨⟨.zero 20⟩, ⟨.zero 20⟩, ⟨[0, 0, 0, 0, 0, 16, 0, 1], rfl⟩⟩
      | .far => .new ⟨.zero 20⟩ ⟨.zero 20⟩
    let turns : List Turn :=
      [⟨.near, .start .handshake⟩, ⟨.near, .write 40⟩, ⟨.far, .start .handshake⟩, ⟨.far, .write 68⟩,
        ⟨.near, .write 28⟩, ⟨.near, .read 68⟩, ⟨.near, .start (.send (.have 7))⟩, ⟨.near, .write 3⟩,
        ⟨.far, .read 71⟩, ⟨.near, .write 6⟩, ⟨.near, .start (.send .choke)⟩, ⟨.near, .write 2⟩,
        ⟨.far, .start .receive⟩, ⟨.far, .read 8⟩, ⟨.far, .start .receive⟩, ⟨.near, .write 3⟩,
        ⟨.far, .read 3⟩, ⟨.far, .start .receive⟩]
    ((run ours turns).side .far).handshake = some (.ok (ours .near)) ∧
      ((run ours turns).side .far).receives = [.ok (.have 7), .ok .choke] := by
  intro ours turns
  have hsome : ((run ours turns).side .far).handshake.isSome := by decide +kernel
  have haccepted : ((run ours turns).side End.far.other).accepted = [.have 7, .choke] := by
    decide +kernel
  have hcall : ((run ours turns).side .far).call = some .receive := by decide +kernel
  have hother : ((run ours turns).side End.far.other).call = none := by decide +kernel
  have hflight : (run ours turns).inFlight End.far.other = [] := by decide +kernel
  obtain ⟨hhandshake, -, -, hquiet, -, -⟩ := run_delivers ours turns .far
  constructor
  · obtain ⟨r, hr⟩ := Option.isSome_iff_exists.mp hsome
    rw [hr, hhandshake r hr]
    rfl
  · rw [hquiet hcall hother hflight, haccepted]
    rfl

end Link

end BitTorrent.Wire
