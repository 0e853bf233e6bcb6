import BitTorrent.Address.Basic
import BitTorrent.PeerId
import BitTorrent.Wire.Frame

/-! What is known about a peer: how each side stands towards the other, and the pieces
that the peer has. -/

namespace BitTorrent.Wire

/-- How one side of a connection stands towards the other: whether it refuses requests, and
whether it wants to make some. -/
structure Stance where
  choking : Bool
  interested : Bool
  deriving DecidableEq, Repr

/-- Each side starts choking and without interest. -/
def Stance.initial : Stance := ⟨true, false⟩

structure PeerState where
  /-- The torrent's number in the caller's registry. -/
  torrent : Nat
  peerId : Option PeerId
  endpoint : Endpoint
  ours : Stance
  theirs : Stance
  pieces : PieceSet
  deriving DecidableEq

namespace PeerState

/-- A peer of which no piece is known yet. -/
def new (torrent : Nat) (endpoint : Endpoint) (pieceCount : Nat) : PeerState :=
  ⟨torrent, none, endpoint, .initial, .initial, .empty pieceCount⟩

/-- Sets how we stand towards the peer. -/
def setOurs (p : PeerState) (s : Stance) : PeerState := { p with ours := s }

def setPeerId (p : PeerState) (id : PeerId) : PeerState := { p with peerId := some id }

/-- Whether a message from a peer fits the torrent, and the peer after it. -/
def apply (p : PeerState) : Message → Except Error Unit × PeerState
  | .choke => (.ok (), { p with theirs.choking := true })
  | .unchoke => (.ok (), { p with theirs.choking := false })
  | .interested => (.ok (), { p with theirs.interested := true })
  | .notInterested => (.ok (), { p with theirs.interested := false })
  | .have piece =>
    if p.pieces.pieceCount ≤ piece.toNat then
      (.error (.malformedMessage (.haveOutOfRange piece.toNat p.pieces.pieceCount)), p)
    else (.ok (), { p with pieces := p.pieces.insert piece.toNat })
  | .bitfield bits =>
    match PieceSet.ofBytes bits p.pieces.pieceCount with
    | .ok pieces => (.ok (), { p with pieces })
    | .error e => (.error e, p)
  | .keepAlive | .request _ | .piece .. | .cancel _ | .port _ => (.ok (), p)

/-- The message or the reason for refusing it, and the peer after it. -/
def receive (p : PeerState) (m : Message) : Except Error Message × PeerState :=
  let (result, p) := p.apply m
  (result.map fun _ => m, p)

/-- Applies the messages of a buffer one after another, until no frame is whole or one is
malformed. Answers what came of each, the buffer that is left, and the peer. -/
def receiveAll (p : PeerState) (buffer : Bytes) :
    List (Except Error Message) × Bytes × PeerState :=
  match _h : takeMessage buffer with
  | (none, rest) => ([], rest, p)
  | (some (.error e), rest) => ([.error e], rest, p)
  | (some (.ok m), rest) =>
    let (result, p) := p.receive m
    let (results, left, p) := receiveAll p rest
    (result :: results, left, p)
termination_by buffer.length
decreasing_by exact length_lt_of_takeMessage ‹_›

end PeerState

end BitTorrent.Wire
