import BitTorrent.Fault

/-! What can go wrong between peers, and how it is told. -/

namespace BitTorrent.Wire

/-- How a frame fails to follow the wire format or to fit the torrent. -/
inductive Malformation where
  | tooShort
  | lengthMismatch (declared actual : Nat)
  | unknownId (id : UInt8)
  | payloadSize (name : String) (actual expected : Nat)
  | pieceTooShort
  | tooLarge (length : Nat)
  | bitfieldSize (actual expected pieces : Nat)
  | spareBits
  | haveOutOfRange (piece pieces : Nat)
  deriving DecidableEq, Repr

def Malformation.message : Malformation → String
  | .tooShort => "too short"
  | .lengthMismatch declared actual =>
    s!"length prefix {declared} does not match {actual} payload bytes"
  | .unknownId id => s!"unknown message id {id.toNat}"
  | .payloadSize name actual expected =>
    s!"{name} payload is {actual} bytes, expected {expected}"
  | .pieceTooShort => "piece too short"
  | .tooLarge length => s!"message too large: {length}"
  | .bitfieldSize actual expected pieces =>
    s!"bitfield is {actual} bytes, expected {expected} for {pieces} pieces"
  | .spareBits => "bitfield has spare bits set"
  | .haveOutOfRange piece pieces => s!"have for piece {piece} of {pieces}"

inductive Error where
  | malformedMessage (m : Malformation)
  | invalidHandshake
  | infoHashMismatch
  | connectionClosed
  | timeout
  | fault (f : Fault)
  deriving DecidableEq, Repr

def Error.message : Error → String
  | .malformedMessage m => "malformed message: " ++ m.message
  | .invalidHandshake => "invalid handshake"
  | .infoHashMismatch => "info hash mismatch"
  | .connectionClosed => "connection closed"
  | .timeout => "timeout"
  | .fault f => "io error: " ++ f.message

end BitTorrent.Wire
