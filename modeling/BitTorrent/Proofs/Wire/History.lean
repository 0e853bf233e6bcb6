import BitTorrent.Wire.PeerState
import BitTorrent.Proofs.Wire.PieceSet
import Mathlib.Data.List.Induction

/-! What is known about a peer after any history. A message changes how the peer stands or which
pieces it has, and nothing else; one that does not fit the torrent is refused and changes nothing
at all. So the last message of a kind decides, and the pieces are those of the last bitfield that
was taken and those that were told one by one since. -/

namespace BitTorrent.Wire

namespace Message

/-- Whether a message fits a torrent of `n` pieces: it tells of no piece that there is not, and a
bitfield has as many bytes as the pieces need. -/
def Fits (n : Nat) : Message → Prop
  | .have index => index.toNat < n
  | .bitfield bits => bits.length = (n + 7) / 8 ∧ ∀ i, n ≤ i → bitAt bits i = false
  | _ => True

/-- Whether the sender refuses requests, if the message tells. -/
def choking? : Message → Option Bool
  | .choke => some true
  | .unchoke => some false
  | _ => none

/-- Whether the sender wants to make requests, if the message tells. -/
def interested? : Message → Option Bool
  | .interested => some true
  | .notInterested => some false
  | _ => none

/-- The pieces of the sender after a message that fits. -/
def piecesAfter (s : PieceSet) : Message → PieceSet
  | .have index => s.insert index.toNat
  | .bitfield bits => ⟨s.pieceCount, bits⟩
  | _ => s

end Message

namespace PeerState

/-- One thing that happens to what is known about a peer. -/
inductive Update where
  | message (m : Message)
  | choking (b : Bool)
  | interested (b : Bool)
  | peerId (id : PeerId)

namespace Update

def message? : Update → Option Message
  | .message m => some m
  | _ => none

def choking? : Update → Option Bool
  | .choking b => some b
  | _ => none

def interested? : Update → Option Bool
  | .interested b => some b
  | _ => none

def peerId? : Update → Option PeerId
  | .peerId id => some id
  | _ => none

end Update

def update (p : PeerState) : Update → PeerState
  | .message m => (p.receive m).2
  | .choking b => p.setOurs { p.ours with choking := b }
  | .interested b => p.setOurs { p.ours with interested := b }
  | .peerId id => p.setPeerId id

def run (p : PeerState) (history : List Update) : PeerState := history.foldl update p

variable {n : Nat} {p : PeerState} {m : Message}

/-! ### One message -/

/-- All that a message that fits does. -/
def heard (p : PeerState) (m : Message) : PeerState :=
  { p with
    theirs := ⟨m.choking?.getD p.theirs.choking, m.interested?.getD p.theirs.interested⟩
    pieces := m.piecesAfter p.pieces }

theorem apply_of_fits (hp : p.pieces.pieceCount = n) (h : m.Fits n) :
    p.apply m = (.ok (), p.heard m) := by
  cases m with
  | «have» index =>
    have hlt : ¬p.pieces.pieceCount ≤ index.toNat := by
      rw [hp]
      exact Nat.not_le.mpr h
    simp only [apply, if_neg hlt]
    rfl
  | bitfield bits =>
    have hread : PieceSet.ofBytes bits p.pieces.pieceCount = .ok ⟨p.pieces.pieceCount, bits⟩ :=
      PieceSet.ofBytes_eq_ok_iff.mpr ⟨rfl, rfl, by rw [hp]; exact h.1, by rw [hp]; exact h.2⟩
    simp only [apply, hread]
    rfl
  | _ => rfl

/-- What does not fit is refused before anything is changed. -/
theorem apply_of_not_fits (hp : p.pieces.pieceCount = n) (h : ¬m.Fits n) :
    ∃ f, p.apply m = (.error (.malformedMessage f), p) := by
  cases m with
  | «have» index =>
    have hle : p.pieces.pieceCount ≤ index.toNat := by
      rw [hp]
      exact Nat.not_lt.mp h
    refine ⟨.haveOutOfRange index.toNat p.pieces.pieceCount, ?_⟩
    simp only [apply, if_pos hle]
  | bitfield bits =>
    rcases PieceSet.ofBytes_cases bits p.pieces.pieceCount with hread | ⟨f, hread⟩
    · obtain ⟨-, hvalid⟩ := PieceSet.ofBytes_eq_ok_iff.mp hread
      rw [hp] at hvalid
      exact absurd ⟨hvalid.length_bytes, hvalid.spare_zero⟩ h
    · refine ⟨f, ?_⟩
      simp only [apply, hread]
  | _ => exact absurd trivial h

theorem receive_of_fits (hp : p.pieces.pieceCount = n) (h : m.Fits n) :
    (p.receive m).2 = p.heard m := by
  rw [receive, apply_of_fits hp h]

theorem receive_of_not_fits (hp : p.pieces.pieceCount = n) (h : ¬m.Fits n) :
    (p.receive m).2 = p := by
  obtain ⟨f, hf⟩ := apply_of_not_fits hp h
  rw [receive, hf]

/-- A message that is refused does not tell how the sender stands. -/
theorem theirs_receive (hp : p.pieces.pieceCount = n) (m : Message) :
    (p.receive m).2.theirs =
      ⟨m.choking?.getD p.theirs.choking, m.interested?.getD p.theirs.interested⟩ := by
  by_cases h : m.Fits n
  · rw [receive_of_fits hp h]
    rfl
  · rw [receive_of_not_fits hp h]
    cases m with
    | «have» => rfl
    | bitfield => rfl
    | _ => exact absurd trivial h

/-! ### Pieces told one by one -/

/-- Some message tells of piece `i` by itself. -/
def Told (n : Nat) (ms : List Message) (i : Nat) : Prop :=
  ∃ index : UInt32, .have index ∈ ms ∧ index.toNat = i ∧ i < n

/-- No bitfield fits. -/
def NoBitfield (n : Nat) (ms : List Message) : Prop :=
  ∀ bits, .bitfield bits ∈ ms → ¬(Message.bitfield bits).Fits n

theorem told_append {ms ms' : List Message} {i : Nat} :
    Told n (ms ++ ms') i ↔ Told n ms i ∨ Told n ms' i := by
  simp only [Told, List.mem_append, or_and_right, exists_or]

theorem told_singleton {i : Nat} :
    Told n [m] i ↔ ∃ index : UInt32, m = .have index ∧ index.toNat = i ∧ i < n := by
  simp only [Told, List.mem_singleton, eq_comm]

theorem noBitfield_append {ms ms' : List Message} :
    NoBitfield n (ms ++ ms') ↔ NoBitfield n ms ∧ NoBitfield n ms' := by
  simp only [NoBitfield, List.mem_append, or_imp, forall_and]

/-- A bitfield that fits replaces the pieces. -/
theorem contains_receive_bitfield (hp : p.pieces.Valid n) {bits : Bytes}
    (h : (Message.bitfield bits).Fits n) (i : Nat) :
    (p.receive (.bitfield bits)).2.pieces.contains i = bitAt bits i := by
  have hvalid : PieceSet.Valid n ⟨p.pieces.pieceCount, bits⟩ := ⟨hp.pieceCount_eq, h.1, h.2⟩
  rw [receive_of_fits hp.pieceCount_eq h]
  exact hvalid.contains_eq_bitAt i

/-- Any other message adds the piece that it tells of. -/
theorem contains_receive (hp : p.pieces.Valid n) (h : NoBitfield n [m]) (i : Nat) :
    (p.receive m).2.pieces.contains i = true ↔ p.pieces.contains i = true ∨ Told n [m] i := by
  rw [told_singleton]
  by_cases hfits : m.Fits n
  · rw [receive_of_fits hp.pieceCount_eq hfits]
    cases m with
    | «have» index =>
      have hinsert := hp.contains_insert index.toNat i
      simp only [heard, Message.piecesAfter, hinsert, Bool.or_eq_true, decide_eq_true_eq]
      constructor
      · rintro (hi | ⟨rfl, hi⟩)
        · exact .inl hi
        · exact .inr ⟨index, rfl, rfl, hi⟩
      · rintro (hi | ⟨_, heq, rfl, hi⟩)
        · exact .inl hi
        · cases heq
          exact .inr ⟨rfl, hi⟩
    | bitfield bits => exact absurd hfits (h bits List.mem_cons_self)
    | _ => simp [heard, Message.piecesAfter]
  · rw [receive_of_not_fits hp.pieceCount_eq hfits]
    constructor
    · exact .inl
    · rintro (hi | ⟨index, rfl, rfl, hi⟩)
      · exact hi
      · exact absurd hi hfits

theorem valid_receive (hp : p.pieces.Valid n) (m : Message) : (p.receive m).2.pieces.Valid n := by
  by_cases h : m.Fits n
  · rw [receive_of_fits hp.pieceCount_eq h]
    cases m with
    | «have» index => exact hp.insert index.toNat
    | bitfield bits => exact ⟨hp.pieceCount_eq, h.1, h.2⟩
    | _ => exact hp
  · rwa [receive_of_not_fits hp.pieceCount_eq h]

/-! ### Histories -/

/-- What the last element of a history that tells something tells. -/
def last? {α β : Type} (f : α → Option β) (history : List α) : Option β :=
  (history.filterMap f).getLast?

theorem last?_append_singleton {α β : Type} (f : α → Option β) (history : List α) (x : α) :
    last? f (history ++ [x]) = (f x).or (last? f history) := by
  rw [last?, List.filterMap_append]
  cases h : f x with
  | none => simp [last?, h]
  | some b => simp [h]

/-- What is known about a peer after its messages `ms`. -/
structure Knows (n : Nat) (ms : List Message) (p : PeerState) : Prop where
  valid : p.pieces.Valid n
  choking : p.theirs.choking = (last? Message.choking? ms).getD true
  interested : p.theirs.interested = (last? Message.interested? ms).getD false
  told : NoBitfield n ms → ∀ i, p.pieces.contains i = true ↔ Told n ms i
  toldSince : ∀ before bits after, ms = before ++ .bitfield bits :: after →
    (Message.bitfield bits).Fits n → NoBitfield n after →
    ∀ i, p.pieces.contains i = true ↔ bitAt bits i = true ∨ Told n after i

theorem knows_new (torrent : Nat) (endpoint : Endpoint) (n : Nat) :
    Knows n [] (new torrent endpoint n) where
  valid := PieceSet.valid_empty n
  choking := rfl
  interested := rfl
  told := by
    intro _ i
    rw [new, PieceSet.contains_empty]
    simp [Told]
  toldSince := by
    intro before bits after h
    simp at h

theorem Knows.congr {ms : List Message} {q : PeerState} (h : Knows n ms p)
    (htheirs : q.theirs = p.theirs) (hpieces : q.pieces = p.pieces) : Knows n ms q := by
  constructor
  · rw [hpieces]; exact h.valid
  · rw [htheirs]; exact h.choking
  · rw [htheirs]; exact h.interested
  · rw [hpieces]; exact h.told
  · rw [hpieces]; exact h.toldSince

theorem Knows.receive {ms : List Message} (h : Knows n ms p) (m : Message) :
    Knows n (ms ++ [m]) (p.receive m).2 where
  valid := valid_receive h.valid m
  choking := by
    rw [theirs_receive h.valid.pieceCount_eq, last?_append_singleton, Option.getD_or, h.choking]
  interested := by
    rw [theirs_receive h.valid.pieceCount_eq, last?_append_singleton, Option.getD_or, h.interested]
  told := by
    intro hnone i
    obtain ⟨hms, hm⟩ := noBitfield_append.mp hnone
    rw [contains_receive h.valid hm, h.told hms, told_append]
  toldSince := by
    intro before bits after heq hfits hnone i
    rcases List.eq_nil_or_concat after with rfl | ⟨after, last, rfl⟩
    · obtain ⟨rfl, hlast⟩ := List.append_inj' heq rfl
      obtain rfl : m = .bitfield bits := List.singleton_inj.mp hlast
      rw [contains_receive_bitfield h.valid hfits]
      simp [Told]
    · rw [List.concat_eq_append] at heq hnone ⊢
      rw [← List.cons_append, ← List.append_assoc] at heq
      obtain ⟨hms, hlast⟩ := List.append_inj' heq rfl
      obtain rfl : m = last := List.singleton_inj.mp hlast
      obtain ⟨hafter, hm⟩ := noBitfield_append.mp hnone
      rw [contains_receive h.valid hm, h.toldSince before bits after hms hfits hafter, told_append,
        or_assoc]

/-- What the owner of the connection has set itself, and what no one sets. -/
structure Keeps (start : PeerState) (history : List Update) (p : PeerState) : Prop where
  torrent : p.torrent = start.torrent
  endpoint : p.endpoint = start.endpoint
  choking : p.ours.choking = (last? Update.choking? history).getD start.ours.choking
  interested : p.ours.interested = (last? Update.interested? history).getD start.ours.interested
  peerId : p.peerId = (last? Update.peerId? history).or start.peerId

/-- A message touches only the other side's stance and the pieces. -/
theorem keeps_receive (p : PeerState) (m : Message) :
    (p.receive m).2.torrent = p.torrent ∧ (p.receive m).2.endpoint = p.endpoint ∧
      (p.receive m).2.peerId = p.peerId ∧ (p.receive m).2.ours = p.ours ∧
      (p.receive m).2.pieces.pieceCount = p.pieces.pieceCount := by
  by_cases h : m.Fits p.pieces.pieceCount
  · rw [receive_of_fits rfl h]
    refine ⟨rfl, rfl, rfl, rfl, ?_⟩
    cases m with
    | «have» index => exact PieceSet.pieceCount_insert _ _
    | _ => rfl
  · rw [receive_of_not_fits rfl h]
    exact ⟨rfl, rfl, rfl, rfl, rfl⟩

theorem keeps_update (p : PeerState) (u : Update) :
    (p.update u).torrent = p.torrent ∧ (p.update u).endpoint = p.endpoint ∧
      (p.update u).ours =
        ⟨u.choking?.getD p.ours.choking, u.interested?.getD p.ours.interested⟩ ∧
      (p.update u).peerId = u.peerId?.or p.peerId := by
  cases u with
  | message m =>
    obtain ⟨htorrent, hendpoint, hpeerId, hours, -⟩ := keeps_receive p m
    exact ⟨htorrent, hendpoint, hours, hpeerId⟩
  | _ => exact ⟨rfl, rfl, rfl, rfl⟩

theorem Keeps.update {start : PeerState} {history : List Update} (h : Keeps start history p)
    (u : Update) : Keeps start (history ++ [u]) (p.update u) := by
  obtain ⟨htorrent, hendpoint, hours, hpeerId⟩ := keeps_update p u
  constructor
  · rw [htorrent, h.torrent]
  · rw [hendpoint, h.endpoint]
  · rw [hours, last?_append_singleton, Option.getD_or, h.choking]
  · rw [hours, last?_append_singleton, Option.getD_or, h.interested]
  · rw [hpeerId, last?_append_singleton, Option.or_assoc, h.peerId]

theorem run_append_singleton (p : PeerState) (history : List Update) (u : Update) :
    p.run (history ++ [u]) = (p.run history).update u := by
  simp [run]

theorem keeps_run (start : PeerState) (history : List Update) :
    Keeps start history (start.run history) := by
  induction history using List.reverseRecOn with
  | nil => exact ⟨rfl, rfl, rfl, rfl, rfl⟩
  | append_singleton history u ih =>
    rw [run_append_singleton]
    exact ih.update u

theorem knows_run (torrent : Nat) (endpoint : Endpoint) (n : Nat) (history : List Update) :
    Knows n (history.filterMap Update.message?) ((new torrent endpoint n).run history) := by
  induction history using List.reverseRecOn with
  | nil => exact knows_new torrent endpoint n
  | append_singleton history u ih =>
    rw [run_append_singleton, List.filterMap_append]
    cases u with
    | message m => exact ih.receive m
    | _ =>
      rw [List.filterMap_cons_none rfl, List.filterMap_nil, List.append_nil]
      exact ih.congr rfl rfl

/-- After any history of messages and of settings of our own: a message is refused exactly if it
does not fit the torrent, and then nothing has changed; otherwise it changes nothing but how the
peer stands and its pieces. How the peer stands is what its last message of the kind told, and its
pieces are those of the last bitfield that was taken, if there was one, and those that were told
one by one since. -/
theorem known_of_history (torrent : Nat) (endpoint : Endpoint) (n : Nat) (history : List Update) :
    let p := (new torrent endpoint n).run history
    let ms := history.filterMap Update.message?
    (∀ m : Message, let q := (p.receive m).2
      (m.Fits n → p.apply m = (.ok (), q)) ∧
      (¬m.Fits n → (∃ f, p.apply m = (.error (.malformedMessage f), p)) ∧ q = p) ∧
      q.torrent = p.torrent ∧ q.endpoint = p.endpoint ∧ q.peerId = p.peerId ∧ q.ours = p.ours ∧
      q.pieces.pieceCount = p.pieces.pieceCount) ∧
    p.theirs.choking = (last? Message.choking? ms).getD true ∧
    p.theirs.interested = (last? Message.interested? ms).getD false ∧
    ((∀ bits, .bitfield bits ∈ ms → ¬(Message.bitfield bits).Fits n) →
      ∀ i, p.pieces.contains i = true ↔ Told n ms i) ∧
    (∀ before bits after, ms = before ++ .bitfield bits :: after →
      (Message.bitfield bits).Fits n →
      (∀ bits', .bitfield bits' ∈ after → ¬(Message.bitfield bits').Fits n) →
      ∀ i, p.pieces.contains i = true ↔ bitAt bits i = true ∨ Told n after i) ∧
    p.torrent = torrent ∧ p.endpoint = endpoint ∧ p.pieces.pieceCount = n ∧
    p.peerId = last? Update.peerId? history ∧
    p.ours.choking = (last? Update.choking? history).getD true ∧
    p.ours.interested = (last? Update.interested? history).getD false := by
  intro p ms
  have hknows : Knows n ms p := knows_run torrent endpoint n history
  have hkeeps : Keeps (new torrent endpoint n) history p := keeps_run _ history
  have hcount := hknows.valid.pieceCount_eq
  refine ⟨?_, hknows.choking, hknows.interested, hknows.told, hknows.toldSince, hkeeps.torrent,
    hkeeps.endpoint, hcount, ?_, hkeeps.choking, hkeeps.interested⟩
  · intro m q
    refine ⟨?_, ?_, keeps_receive p m⟩
    · intro h
      rw [apply_of_fits hcount h, ← receive_of_fits hcount h]
    · intro h
      exact ⟨apply_of_not_fits hcount h, receive_of_not_fits hcount h⟩
  · rw [hkeeps.peerId]
    exact Option.or_none

/-- Eleven pieces: a piece, a bitfield with a spare bit, a bitfield that fits, a piece that there
is not and one that there is. -/
theorem known_of_history_of_refused :
    let history : List Update :=
      [.message (.have 2), .choking false, .message (.bitfield [0xff, 0xff]), .message .unchoke,
        .message (.bitfield [0x80, 0x20]), .message (.have 11), .peerId ⟨.zero 20⟩,
        .message (.have 4)]
    let p := (new 7 ⟨.v4 (.zero 4), 6881⟩ 11).run history
    (Message.bitfield [0x80, 0x20]).Fits 11 ∧ ¬(Message.have 11).Fits 11 ∧
      (p.receive (.have 11)).2 = p ∧ p.theirs.choking = false ∧ p.ours.choking = false ∧
      p.pieces.toList = [0, 4, 10] ∧
      ∀ i, p.pieces.contains i = true ↔
        bitAt [0x80, 0x20] i = true ∨ Told 11 [.have 11, .have 4] i := by
  intro history p
  have hread : PieceSet.ofBytes [0x80, 0x20] 11 = .ok ⟨11, [0x80, 0x20]⟩ := rfl
  have hvalid := (PieceSet.ofBytes_eq_ok_iff.mp hread).2
  have hfits : (Message.bitfield [0x80, 0x20]).Fits 11 := ⟨hvalid.length_bytes, hvalid.spare_zero⟩
  have hbeyond : ¬(Message.have 11).Fits 11 := by
    show ¬(11 : UInt32).toNat < 11
    decide
  have hnone : NoBitfield 11 [.have 11, .have 4] := by simp [NoBitfield]
  obtain ⟨happly, hchoking, -, -, hsince, -, -, -, -, hours, -⟩ :=
    known_of_history 7 ⟨.v4 (.zero 4), 6881⟩ 11 history
  exact ⟨hfits, hbeyond, ((happly (.have 11)).2.1 hbeyond).2, hchoking, hours, by decide,
    hsince [.have 2, .bitfield [0xff, 0xff], .unchoke] _ _ rfl hfits hnone⟩

end PeerState

end BitTorrent.Wire
