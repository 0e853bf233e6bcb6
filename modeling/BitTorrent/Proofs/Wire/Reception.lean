import BitTorrent.Proofs.Wire.Connection
import BitTorrent.Proofs.Wire.Framing

/-! A caller that reads a handshake and then messages, and makes a call again after a read has
failed. What it is told, apart from the failures, is a function of the bytes of the stream: neither
the cuts of the stream into reads nor the places where reads fail make a difference. -/

namespace BitTorrent.Wire

/-! ### The caller -/

/-- What a call returned. -/
inductive Receipt where
  | handshake (result : Except Error Handshake)
  | message (result : Except Error Message)
  deriving DecidableEq

/-- Whether a call stopped at a failed read. -/
def failed {α : Type} : Except Error α → Bool
  | .error e => e.isReadFailure
  | .ok _ => false

def Receipt.failed : Receipt → Bool
  | .handshake r => Wire.failed r
  | .message r => Wire.failed r

namespace Connection

/-- What `n` calls for a message return. -/
def messages : Nat → Connection → List (Except Error Message)
  | 0, _ => []
  | n + 1, c => c.receive.result :: messages n c.receive.connection

/-- What `n` calls return, for the handshake until a call does not stop at a failed read, and for
messages from then on. There are none after a stream that ends before the handshake. -/
def receipts : Nat → Connection → List Receipt
  | 0, _ => []
  | n + 1, c =>
    let o := c.receiveHandshake
    .handshake o.result ::
      if failed o.result then receipts n o.connection
      else if o.result = .error .connectionClosed then []
      else (messages n o.connection).map .message

end Connection

/-! ### What it is told -/

/-- The result for the frame with this index, or behind the last frame what is wrong with the
rest. -/
def messageAt (frames : List Bytes) (rest : Bytes) (i : Nat) : Except Error Message :=
  match frames[i]? with
  | some f => Message.decode f
  | none => .error (shortcoming rest)

/-- The first `n` results on a stream that has these frames and this rest behind its handshake. -/
def expected (stream : Bytes) (frames : List Bytes) (rest : Bytes) : Nat → List Receipt
  | 0 => []
  | n + 1 =>
    if stream.length < 68 then [.handshake (.error .connectionClosed)]
    else
      .handshake (Handshake.decode (stream.take 68)) ::
        ((List.range n).map (messageAt frames rest)).map .message

theorem messageAt_succ (frames : List Bytes) (rest : Bytes) (i : Nat) :
    messageAt frames rest (i + 1) = messageAt frames.tail rest i := by
  cases frames <;> rfl

/-- The results from one index on are those on the frames from there on. -/
theorem map_messageAt_range_succ (frames : List Bytes) (rest : Bytes) (n : Nat) :
    (List.range (n + 1)).map (messageAt frames rest) =
      messageAt frames rest 0 :: (List.range n).map (messageAt frames.tail rest) := by
  rw [List.range_succ_eq_map, List.map_cons, List.map_map]
  congr 1
  exact List.map_congr_left fun i _ => messageAt_succ frames rest i

namespace Connection

/-! ### What is found -/

/-- Where there is no whole frame nothing is taken, and what is wrong is said at once if it is the
declared length. -/
theorem found_of_noFrame {rest : Bytes} (h : ∀ f, f <+: rest → ¬IsFrame f) :
    found takeMessage rest = (.error (shortcoming rest), rest) := by
  by_cases hover : Oversized rest
  · rw [found_of_some (takeMessage_of_oversized hover), shortcoming, if_pos hover]
  · rw [found_of_none (takeMessage_of_incomplete h hover), shortcoming, if_neg hover]

theorem found_takeMessage {bs rest : Bytes} {frames : List Bytes} (h : Framed bs frames rest) :
    found takeMessage bs = (messageAt frames rest 0, frames.tail.flatten ++ rest) := by
  rw [h.eq_append]
  cases frames with
  | nil => exact found_of_noFrame h.noFrame
  | cons f frames =>
    have hf := h.isFrame f List.mem_cons_self
    rw [List.flatten_cons, List.append_assoc, found_of_some (takeMessage_of_isFrame hf _)]
    rfl

theorem found_takeHandshake (bs : Bytes) :
    found takeHandshake bs =
      if bs.length < 68 then (.error .connectionClosed, bs)
      else (Handshake.decode (bs.take 68), bs.drop 68) := by
  have hlength : Parameters.handshakeLength = 68 := rfl
  simp only [found, takeHandshake, Bytes.splitAt?, Bytes.hasAtLeast_eq_true_iff, hlength,
    ← Nat.not_le, ite_not]
  by_cases hlen : 68 ≤ bs.length
  · rw [if_pos hlen, if_pos hlen]
    rfl
  · rw [if_neg hlen, if_neg hlen]
    rfl

theorem failed_messageAt (frames : List Bytes) (rest : Bytes) (i : Nat) :
    failed (messageAt frames rest i) = false := by
  unfold messageAt
  split
  · rename_i f _
    cases hf : Message.decode f with
    | ok m => rfl
    | error e =>
      obtain ⟨m, rfl⟩ := Message.exists_malformation_of_decode hf
      rfl
  · unfold shortcoming
    split <;> rfl

theorem failed_found_takeMessage (bs : Bytes) : failed (found takeMessage bs).1 = false := by
  obtain ⟨frames, rest, h⟩ := exists_framed bs
  rw [found_takeMessage h]
  exact failed_messageAt frames rest 0

theorem failed_decode_handshake (bs : Bytes) : failed (Handshake.decode bs) = false := by
  cases hb : Handshake.decode bs with
  | ok h => rfl
  | error e =>
    obtain rfl := Handshake.eq_invalidHandshake_of_decode hb
    rfl

theorem failed_found_takeHandshake (bs : Bytes) : failed (found takeHandshake bs).1 = false := by
  rw [found_takeHandshake]
  split
  · rfl
  · exact failed_decode_handshake _

/-! ### One call -/

/-- The stream does not end before the last arrival. -/
def Steady (c : Connection) : Prop := ∀ a ∈ c.arrivals, a ≠ .chunk []

section Calls

variable {c : Connection}

theorem Steady.read (h : c.Steady) {α : Type} (take : Bytes → Option (Except Error α) × Bytes) :
    (c.read take).connection.Steady :=
  fun a ha => h a ((suffix_read take c).subset ha)

variable {α : Type} {take : Bytes → Option (Except Error α) × Bytes}

/-- A call that stops at a failed read loses none of the bytes. -/
theorem held_of_failed (htake : Incremental take)
    (hfound : ∀ bs, failed (found take bs).1 = false) (c : Connection)
    (hfailed : failed (c.read take).result) :
    c.buffer <+: (c.read take).connection.buffer ∧ (c.read take).connection.held = c.held ∧
      (c.read take).connection.arrivals.length < c.arrivals.length := by
  cases reads_read htake c with
  | failed e _ _ hbuffer hbytes hless _ => exact ⟨hbuffer, hbytes, hless⟩
  | ended hr _ =>
    rw [hr] at hfailed
    cases hfailed
  | found hsome =>
    have := hfound (c.buffer ++ c.arrivals.flatMap Arrival.bytes)
    rw [hsome, hfailed] at this
    cases this

/-- Any other call finds what stands at the head of all bytes of the stream. -/
theorem found_of_not_failed (htake : Incremental take) (h : c.Steady)
    (hfailed : failed (c.read take).result = false) :
    found take c.held = ((c.read take).result, (c.read take).connection.held) := by
  cases reads_read htake c with
  | failed e hr he _ _ _ _ =>
    rw [hr] at hfailed
    exact absurd (he.symm.trans hfailed) (by decide)
  | ended _ hmem => exact absurd rfl (h _ hmem)
  | found hfound => exact hfound

end Calls

/-! ### Any number of calls -/

variable {c : Connection}

/-- The messages that are read are those of the frames, by induction on the number of calls. -/
theorem exists_messages (h : c.Steady) {frames : List Bytes} {rest : Bytes}
    (hframed : Framed c.held frames rest) (n : Nat) :
    ∃ k, n ≤ k + c.arrivals.length ∧
      (messages n c).filter (fun r => !failed r) = (List.range k).map (messageAt frames rest) := by
  induction n generalizing c frames with
  | zero => exact ⟨0, Nat.zero_le _, rfl⟩
  | succ n ih =>
    have hsteady : c.receive.connection.Steady := h.read takeMessage
    cases hfailed : failed c.receive.result with
    | true =>
      obtain ⟨-, hheld, hless⟩ :=
        held_of_failed incremental_takeMessage failed_found_takeMessage c hfailed
      rw [← receive_eq_read] at hheld hless
      obtain ⟨k, hk, hmessages⟩ := ih hsteady (hheld.symm ▸ hframed)
      refine ⟨k, by omega, ?_⟩
      rw [messages, List.filter_cons_of_neg (by simp [hfailed]), hmessages]
    | false =>
      have hfound := found_of_not_failed incremental_takeMessage h hfailed
      rw [found_takeMessage hframed] at hfound
      obtain ⟨hresult, hheld⟩ := Prod.mk.inj hfound
      rw [← receive_eq_read] at hresult hheld
      have hsuffix : c.receive.connection.arrivals.length ≤ c.arrivals.length :=
        (suffix_read takeMessage c).length_le
      obtain ⟨k, hk, hmessages⟩ := ih hsteady (hheld ▸ hframed.tail)
      refine ⟨k + 1, by omega, ?_⟩
      rw [messages, List.filter_cons_of_pos (by simp [hfailed]), hmessages,
        map_messageAt_range_succ, hresult]

theorem exists_receipts (h : c.Steady) {frames : List Bytes} {rest : Bytes}
    (hframed : Framed (c.held.drop 68) frames rest) (n : Nat) :
    ∃ k, n ≤ k + c.arrivals.length ∧
      (receipts n c).filter (fun r => !r.failed) = expected c.held frames rest k := by
  induction n generalizing c with
  | zero => exact ⟨0, Nat.zero_le _, rfl⟩
  | succ n ih =>
    have hsteady : c.receiveHandshake.connection.Steady := h.read takeHandshake
    cases hfailed : failed c.receiveHandshake.result with
    | true =>
      obtain ⟨-, hheld, hless⟩ :=
        held_of_failed incremental_takeHandshake failed_found_takeHandshake c hfailed
      rw [← receiveHandshake_eq_read] at hheld hless
      obtain ⟨k, hk, hreceipts⟩ := ih hsteady (hheld.symm ▸ hframed)
      refine ⟨k, by omega, ?_⟩
      rw [hheld] at hreceipts
      simp only [receipts, hfailed, if_true]
      rw [List.filter_cons_of_neg (by simp [Receipt.failed, hfailed]), hreceipts]
    | false =>
      have hfound := found_of_not_failed incremental_takeHandshake h hfailed
      rw [found_takeHandshake] at hfound
      simp only [receipts, hfailed, Bool.false_eq_true, if_false]
      rw [List.filter_cons_of_pos (by simp [Receipt.failed, hfailed])]
      by_cases hlen : c.held.length < 68
      · rw [if_pos hlen] at hfound
        obtain ⟨hresult, -⟩ := Prod.mk.inj hfound
        rw [← receiveHandshake_eq_read] at hresult
        refine ⟨n + 1, by omega, ?_⟩
        rw [expected, if_pos hlen, ← hresult]
        rfl
      · rw [if_neg hlen] at hfound
        obtain ⟨hresult, hheld⟩ := Prod.mk.inj hfound
        rw [← receiveHandshake_eq_read] at hresult hheld
        have hopen : c.receiveHandshake.result ≠ .error .connectionClosed := by
          rw [← hresult]
          intro hclosed
          cases Handshake.eq_invalidHandshake_of_decode hclosed
        have hsuffix : c.receiveHandshake.connection.arrivals.length ≤ c.arrivals.length :=
          (suffix_read takeHandshake c).length_le
        obtain ⟨k, hk, hmessages⟩ := exists_messages hsteady (hheld ▸ hframed) n
        refine ⟨k + 1, by omega, ?_⟩
        rw [expected, if_neg hlen, if_neg hopen, ← hresult, ← hmessages, List.filter_map]
        rfl

/-- What a caller is told apart from failed reads depends on the bytes of the stream alone: if they
are fewer than a handshake, that the stream ended, and that is all; otherwise what the handshake is
read as, what each frame behind it is read as, in order, and then over and over that the rest
declares too large a frame or that the stream ended. At most as many calls fail as there are
arrivals, and none of them loses a byte. -/
theorem receipts_of_stream :
    (∀ stream : Bytes, ∃ frames rest, Framed (stream.drop 68) frames rest ∧
      (∀ f ∈ frames, ∀ e, Message.decode f = .error e → ∃ m, e = .malformedMessage m) ∧
      ∀ (script : List Arrival) (acceptances : List Acceptance),
        (∀ a ∈ script, a ≠ .chunk []) → script.flatMap Arrival.bytes = stream →
        ∀ n, ∃ k, n ≤ k + script.length ∧
          (receipts n (.new script acceptances)).filter (fun r => !r.failed) =
            expected stream frames rest k) ∧
    ∀ c : Connection,
      (failed c.receiveHandshake.result → c.buffer <+: c.receiveHandshake.connection.buffer ∧
        c.receiveHandshake.connection.held = c.held) ∧
      (failed c.receive.result → c.buffer <+: c.receive.connection.buffer ∧
        c.receive.connection.held = c.held) := by
  constructor
  · intro stream
    obtain ⟨frames, rest, hframed⟩ := exists_framed (stream.drop 68)
    refine ⟨frames, rest, hframed, fun f _ e => Message.exists_malformation_of_decode, ?_⟩
    rintro script acceptances hscript rfl n
    exact exists_receipts (c := .new script acceptances) hscript hframed n
  · intro c
    constructor
    · intro hfailed
      obtain ⟨hbuffer, hheld, -⟩ :=
        held_of_failed incremental_takeHandshake failed_found_takeHandshake c hfailed
      exact ⟨hbuffer, hheld⟩
    · intro hfailed
      obtain ⟨hbuffer, hheld, -⟩ :=
        held_of_failed incremental_takeMessage failed_found_takeMessage c hfailed
      exact ⟨hbuffer, hheld⟩

/-- A stream in three reads, with a fault and a timeout within the handshake and a delay within the
first frame. The second frame has an unknown id, and the third is cut short. -/
theorem receipts_of_stream_of_failures :
    let h : Handshake := .new ⟨.zero 20⟩ ⟨.zero 20⟩
    let stream := h.encode ++ [0, 0, 0, 5, 4, 0, 0, 0, 7] ++ [0, 0, 0, 1, 20] ++ [0, 0, 0, 5, 4]
    let script : List Arrival := [.chunk (stream.take 30), .fault .connectionReset, .stall, .stall,
      .chunk ((stream.drop 30).take 40), .stall, .chunk (stream.drop 70)]
    let told := (receipts 10 (.new script [])).filter (fun r => !r.failed)
    (∀ a ∈ script, a ≠ .chunk []) ∧ script.flatMap Arrival.bytes = stream ∧
      (∃ frames rest k, Framed (stream.drop 68) frames rest ∧ 10 ≤ k + 7 ∧
        told = expected stream frames rest k) ∧
      told = .handshake (.ok h) :: .message (.ok (.have 7)) ::
        .message (.error (.malformedMessage (.unknownId 20))) ::
          List.replicate 5 (.message (.error .connectionClosed)) := by
  intro h stream script told
  have hscript : ∀ a ∈ script, a ≠ .chunk [] := by decide +kernel
  have hstream : script.flatMap Arrival.bytes = stream := by decide +kernel
  obtain ⟨hreceipts, -⟩ := receipts_of_stream
  obtain ⟨frames, rest, hframed, -, hall⟩ := hreceipts stream
  obtain ⟨k, hk, htold⟩ := hall script [] hscript hstream 10
  refine ⟨hscript, hstream, ⟨frames, rest, k, hframed, hk, htold⟩, ?_⟩
  decide +kernel

end Connection

end BitTorrent.Wire
