import BitTorrent.Proofs.Wire.Frame

/-! Connections on a stream. How the stream cuts what is read makes no difference: a call stops at a
read that fails and keeps all bytes, or it reads what stands at the head of all the bytes that
come before the stream ends. On a stream where nothing fails, stalls or ends a call also
writes all of its bytes. -/

namespace BitTorrent.Wire

/-- The bytes of one read. -/
def Arrival.bytes : Arrival → Bytes
  | .chunk data => data
  | .fault _ => []
  | .stall => []

/-- Whether a read failed. Nothing of the stream is used then, and the call may be made again. -/
def Error.isReadFailure : Error → Bool
  | .fault _ | .timeout => true
  | .malformedMessage _ | .invalidHandshake | .infoHashMismatch | .connectionClosed => false

namespace Connection

/-- Every read brings some bytes and every write is accepted in part or as a whole. -/
structure Live (c : Connection) : Prop where
  arrivals : ∀ a ∈ c.arrivals, ∃ data, data ≠ [] ∧ a = .chunk data
  acceptances : ∀ a ∈ c.acceptances, ∃ n, a = .limit (n + 1)

/-- The bytes that have arrived and are not used yet. -/
def held (c : Connection) : Bytes := c.buffer ++ c.arrivals.flatMap Arrival.bytes

/-! ### Writing -/

/-- All of the data is written, in whatever parts it is accepted. -/
theorem exists_writeAll {acceptances : List Acceptance}
    (h : ∀ a ∈ acceptances, ∃ n, a = .limit (n + 1)) (stalled : Bool) (data : Bytes) :
    ∃ rest, writeAll stalled data acceptances = (.ok (), data, rest) ∧
      ∀ a ∈ rest, a ∈ acceptances := by
  induction acceptances generalizing data with
  | nil => exact ⟨[], rfl, nofun⟩
  | cons a acceptances ih =>
    obtain ⟨⟨n, rfl⟩, htail⟩ := List.forall_mem_cons.mp h
    by_cases hdata : data = []
    · refine ⟨.limit (n + 1) :: acceptances, ?_, fun a ha => ha⟩
      rw [writeAll, if_pos hdata, hdata]
      exact Nat.succ_ne_zero n
    · obtain ⟨rest, hwrite, hrest⟩ := ih htail (data.drop (n + 1))
      refine ⟨rest, ?_, fun a ha => List.mem_cons_of_mem _ (hrest a ha)⟩
      rw [writeAll, if_neg hdata]
      · simp only [hwrite, List.take_append_drop]
      · exact Nat.succ_ne_zero n

variable {c : Connection}

theorem exists_write (h : c.Live) (data : Bytes) :
    ∃ c', c.write data = ⟨.ok (), data, [], c'⟩ ∧ c'.Live ∧ c'.held = c.held := by
  obtain ⟨rest, hwrite, hrest⟩ := exists_writeAll h.acceptances false data
  refine ⟨{ c with acceptances := rest }, ?_, ⟨h.arrivals, ?_⟩, rfl⟩
  · simp only [write, hwrite]
  · intro a ha
    exact h.acceptances a (hrest a ha)

theorem exists_send (h : c.Live) {m : Message} (hm : m.frameLength ≤ Parameters.maxMessageSize) :
    ∃ c', c.send m = ⟨.ok (), m.encode, [], c'⟩ ∧ c'.Live ∧ c'.held = c.held := by
  rw [send, if_neg (by omega)]
  exact exists_write h m.encode

/-- A message that is too long is refused before anything is written. -/
theorem send_of_lt {m : Message} (hm : Parameters.maxMessageSize < m.frameLength) :
    c.send m = ⟨.error (.malformedMessage (.tooLarge m.frameLength)), [], [], c⟩ := by
  rw [send, if_pos hm]

/-! ### Reading -/

section Reading

variable {α : Type} {take : Bytes → Option (Except Error α) × Bytes}

/-- Reads what `take` finds. -/
def read (take : Bytes → Option (Except Error α) × Bytes) (c : Connection) : Outcome α :=
  let (result, buffer, arrivals) := readUntil take false c.arrivals c.buffer
  ⟨result, [], [], { c with buffer, arrivals }⟩

theorem receive_eq_read (c : Connection) : c.receive = c.read takeMessage := rfl

theorem receiveHandshake_eq_read (c : Connection) : c.receiveHandshake = c.read takeHandshake := rfl

/-- What stands at the head of all the bytes that come before the end of the stream, and what is
left of them. -/
def found (take : Bytes → Option (Except Error α) × Bytes) (bytes : Bytes) :
    Except Error α × Bytes :=
  ((take bytes).1.getD (.error .connectionClosed), (take bytes).2)

theorem found_of_some {bytes rest : Bytes} {r : Except Error α}
    (h : take bytes = (some r, rest)) : found take bytes = (r, rest) := by
  rw [found, h, Option.getD_some]

theorem found_of_none {bytes rest : Bytes} (h : take bytes = (none, rest)) :
    found take bytes = (.error .connectionClosed, rest) := by
  rw [found, h, Option.getD_none]

/-- How reading may come out with the result `r` and with these buffer and arrivals left. -/
inductive Reads (take : Bytes → Option (Except Error α) × Bytes) (buffer : Bytes)
    (arrivals : List Arrival) (r : Except Error α) (buffer' : Bytes) (arrivals' : List Arrival) :
    Prop
  /-- A read fails. It uses up an arrival, and all the bytes are still there. -/
  | failed (e : Error) (hr : r = .error e) (he : e.isReadFailure) (hbuffer : buffer <+: buffer')
      (hbytes : buffer' ++ arrivals'.flatMap Arrival.bytes =
        buffer ++ arrivals.flatMap Arrival.bytes)
      (hless : arrivals'.length < arrivals.length) (hcause : ∃ a ∈ arrivals, a.bytes = [])
  /-- The stream ends with arrivals left. -/
  | ended (hr : r = .error .connectionClosed) (hmem : .chunk [] ∈ arrivals)
  | found (hfound : found take (buffer ++ arrivals.flatMap Arrival.bytes) =
      (r, buffer' ++ arrivals'.flatMap Arrival.bytes))

variable {arrivals : List Arrival} {buffer : Bytes}

/-- What an arrival brings may as well be in the buffer already. -/
theorem Reads.cons {a : Arrival} {r : Except Error α} {buffer' : Bytes} {arrivals' : List Arrival}
    (h : Reads take (buffer ++ a.bytes) arrivals r buffer' arrivals') :
    Reads take buffer (a :: arrivals) r buffer' arrivals' := by
  cases h with
  | failed e hr he hbuffer hbytes hless hcause =>
    obtain ⟨b, hb, hempty⟩ := hcause
    rw [List.append_assoc] at hbytes
    exact .failed e hr he ((List.prefix_append buffer a.bytes).trans hbuffer) hbytes
      (Nat.lt_succ_of_lt hless) ⟨b, List.mem_cons_of_mem a hb, hempty⟩
  | ended hr hmem => exact .ended hr (List.mem_cons_of_mem a hmem)
  | found hfound =>
    rw [List.append_assoc] at hfound
    exact .found hfound

/-- Reading stops at a failed read, or with what stands at the head of all that arrives. -/
theorem reads_readUntil (htake : Incremental take) (stalled : Bool) (arrivals : List Arrival)
    (buffer : Bytes) : Reads take buffer arrivals (readUntil take stalled arrivals buffer).1
      (readUntil take stalled arrivals buffer).2.1
      (readUntil take stalled arrivals buffer).2.2 := by
  fun_induction readUntil take stalled arrivals buffer with
  | case1 _ buffer r rest hbuffer =>
    refine .found ?_
    rw [List.flatMap_nil, List.append_nil, List.append_nil, found_of_some hbuffer]
  | case2 _ buffer rest hbuffer =>
    refine .found ?_
    rw [List.flatMap_nil, List.append_nil, List.append_nil, found_of_none hbuffer]
  | case3 _ a arrivals buffer r rest hbuffer =>
    refine .found ?_
    rw [found_of_some (htake.append hbuffer _)]
  | case4 => exact .ended rfl List.mem_cons_self
  | case5 _ arrivals buffer rest hbuffer data _ ih =>
    obtain rfl := htake.untouched hbuffer
    exact .cons ih
  | case6 _ _ _ _ hbuffer | case7 _ _ _ hbuffer =>
    obtain rfl := htake.untouched hbuffer
    exact .failed _ rfl rfl (List.prefix_refl _) rfl (Nat.lt_succ_self _)
      ⟨_, List.mem_cons_self, rfl⟩
  | case8 _ arrivals buffer rest hbuffer _ ih =>
    obtain rfl := htake.untouched hbuffer
    refine .cons ?_
    rwa [Arrival.bytes, List.append_nil]

theorem suffix_readUntil (take : Bytes → Option (Except Error α) × Bytes) (stalled : Bool)
    (arrivals : List Arrival) (buffer : Bytes) :
    (readUntil take stalled arrivals buffer).2.2 <:+ arrivals := by
  fun_induction readUntil take stalled arrivals buffer with
  | case1 | case2 => exact List.nil_suffix
  | case3 => exact List.suffix_rfl
  | case4 | case6 | case7 => exact List.suffix_cons _ _
  | case5 _ _ _ _ _ _ _ ih | case8 _ _ _ _ _ _ ih => exact ih.trans (List.suffix_cons _ _)

theorem reads_read (htake : Incremental take) (c : Connection) :
    Reads take c.buffer c.arrivals (c.read take).result (c.read take).connection.buffer
      (c.read take).connection.arrivals :=
  reads_readUntil htake false c.arrivals c.buffer

theorem suffix_read (take : Bytes → Option (Except Error α) × Bytes) (c : Connection) :
    (c.read take).connection.arrivals <:+ c.arrivals :=
  suffix_readUntil take false c.arrivals c.buffer

/-- Where every read brings some bytes, what is read stands at the head of all that is held. -/
theorem found_of_live (htake : Incremental take) (h : c.Live) :
    found take c.held = ((c.read take).result, (c.read take).connection.held) := by
  have hbytes : ∀ a ∈ c.arrivals, a.bytes ≠ [] := by
    intro a ha
    obtain ⟨data, hdata, rfl⟩ := h.arrivals a ha
    exact hdata
  cases reads_read htake c with
  | failed _ _ _ _ _ _ hcause =>
    obtain ⟨a, ha, hempty⟩ := hcause
    exact absurd hempty (hbytes a ha)
  | ended _ hmem => exact absurd rfl (hbytes _ hmem)
  | found hfound => exact hfound

theorem Live.read (h : c.Live) (take : Bytes → Option (Except Error α) × Bytes) :
    (c.read take).connection.Live :=
  ⟨fun a ha => h.arrivals a ((suffix_read take c).subset ha), h.acceptances⟩

theorem read_of_none (htake : Incremental take) (h : c.Live) {rest : Bytes}
    (hnone : take c.held = (none, rest)) :
    (c.read take).result = .error .connectionClosed := by
  have hfound := found_of_live htake h
  rw [found_of_none hnone] at hfound
  exact (Prod.mk.inj hfound).1.symm

theorem read_of_some (htake : Incremental take) (h : c.Live) {r : Except Error α} {rest : Bytes}
    (hsome : take c.held = (some r, rest)) :
    (c.read take).result = r ∧ (c.read take).connection.Live ∧
      (c.read take).connection.held = rest := by
  have hfound := found_of_live htake h
  rw [found_of_some hsome] at hfound
  obtain ⟨hr, hrest⟩ := Prod.mk.inj hfound
  exact ⟨hr.symm, h.read take, hrest.symm⟩

end Reading

/-! ### Handshakes -/

/-- What is answered to a handshake for the same torrent or for another one. -/
def verdict (ours theirs : Handshake) : Except Error Handshake :=
  if theirs.infoHash = ours.infoHash then .ok theirs else .error .infoHashMismatch

theorem sent_handshake (h : c.Live) (ours : Handshake) : (c.handshake ours).sent = ours.encode := by
  obtain ⟨c', hwrite, -, -⟩ := exists_write h ours.encode
  have hsend : c.sendHandshake ours = ⟨.ok (), ours.encode, [], c'⟩ := hwrite
  simp only [handshake, hsend]
  split
  · rfl
  · split <;> rfl

theorem handshake_of_none (h : c.Live) (ours : Handshake) {rest : Bytes}
    (hnone : takeHandshake c.held = (none, rest)) :
    (c.handshake ours).result = .error .connectionClosed := by
  obtain ⟨c', hwrite, hlive, hheld⟩ := exists_write h ours.encode
  have hsend : c.sendHandshake ours = ⟨.ok (), ours.encode, [], c'⟩ := hwrite
  rw [← hheld] at hnone
  have hread := read_of_none incremental_takeHandshake hlive hnone
  simp only [handshake, hsend, receiveHandshake_eq_read, hread]

theorem handshake_of_some (h : c.Live) (ours : Handshake) {theirs : Handshake} {rest : Bytes}
    (hsome : takeHandshake c.held = (some (.ok theirs), rest)) :
    (c.handshake ours).result = verdict ours theirs ∧ (c.handshake ours).connection.Live ∧
      (c.handshake ours).connection.held = rest := by
  obtain ⟨c', hwrite, hlive, hheld⟩ := exists_write h ours.encode
  have hsend : c.sendHandshake ours = ⟨.ok (), ours.encode, [], c'⟩ := hwrite
  rw [← hheld] at hsome
  obtain ⟨hresult, hlive', hrest⟩ := read_of_some incremental_takeHandshake hlive hsome
  simp only [handshake, hsend, receiveHandshake_eq_read, hresult, verdict]
  by_cases hhash : theirs.infoHash = ours.infoHash
  · rw [if_pos hhash, if_pos hhash]
    exact ⟨rfl, hlive', hrest⟩
  · rw [if_neg hhash, if_neg hhash]
    exact ⟨rfl, hlive', hrest⟩

end Connection

end BitTorrent.Wire
