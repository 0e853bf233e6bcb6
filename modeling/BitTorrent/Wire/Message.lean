import BitTorrent.Bytes.BigEndian
import BitTorrent.Wire.PieceSet

/-! Messages between peers. A frame is the length of the rest in four bytes, an id and
a payload; a frame of length zero keeps the connection alive. -/

namespace BitTorrent.Wire

inductive MessageId where
  | choke
  | unchoke
  | interested
  | notInterested
  | have
  | bitfield
  | request
  | piece
  | cancel
  | port
  deriving DecidableEq, Repr

namespace MessageId

def toByte : MessageId → UInt8
  | .choke => 0
  | .unchoke => 1
  | .interested => 2
  | .notInterested => 3
  | .have => 4
  | .bitfield => 5
  | .request => 6
  | .piece => 7
  | .cancel => 8
  | .port => 9

def ofByte (b : UInt8) : Except Error MessageId :=
  match b.toNat with
  | 0 => .ok .choke
  | 1 => .ok .unchoke
  | 2 => .ok .interested
  | 3 => .ok .notInterested
  | 4 => .ok .have
  | 5 => .ok .bitfield
  | 6 => .ok .request
  | 7 => .ok .piece
  | 8 => .ok .cancel
  | 9 => .ok .port
  | _ => .error (.malformedMessage (.unknownId b))

def name : MessageId → String
  | .choke => "Choke"
  | .unchoke => "Unchoke"
  | .interested => "Interested"
  | .notInterested => "NotInterested"
  | .have => "Have"
  | .bitfield => "Bitfield"
  | .request => "Request"
  | .piece => "Piece"
  | .cancel => "Cancel"
  | .port => "Port"

end MessageId

/-- A range of bytes within a piece. -/
structure Block where
  index : UInt32
  start : UInt32
  length : UInt32
  deriving DecidableEq, Repr

inductive Message where
  | keepAlive
  | choke
  | unchoke
  | interested
  | notInterested
  | have (index : UInt32)
  | bitfield (bits : Bytes)
  | request (block : Block)
  | piece (index start : UInt32) (data : Bytes)
  | cancel (block : Block)
  | port (p : UInt16)
  deriving DecidableEq, BEq, ReflBEq, LawfulBEq, Repr

def word32 (w : UInt32) : Bytes := BigEndian.encode 4 w.toNat

def Block.encode (b : Block) : Bytes := word32 b.index ++ word32 b.start ++ word32 b.length

namespace Message

/-- The message that tells which pieces the sender has. -/
def ofPieces (s : PieceSet) : Message := .bitfield s.bytes

def id? : Message → Option MessageId
  | .keepAlive => none
  | .choke => some .choke
  | .unchoke => some .unchoke
  | .interested => some .interested
  | .notInterested => some .notInterested
  | .have _ => some .have
  | .bitfield _ => some .bitfield
  | .request _ => some .request
  | .piece .. => some .piece
  | .cancel _ => some .cancel
  | .port _ => some .port

/-- The number of bytes of id and payload. -/
def frameLength : Message → Nat
  | .keepAlive => 0
  | .choke | .unchoke | .interested | .notInterested => 1
  | .have _ => 5
  | .bitfield bits => 1 + bits.length
  | .request _ | .cancel _ => 13
  | .piece _ _ data => 9 + data.length
  | .port _ => 3

/-! ### Writing -/

def payload : Message → Bytes
  | .keepAlive | .choke | .unchoke | .interested | .notInterested => []
  | .have i => word32 i
  | .bitfield bits => bits
  | .request b | .cancel b => b.encode
  | .piece index start data => word32 index ++ word32 start ++ data
  | .port p => BigEndian.encode 2 p.toNat

/-- The whole frame. Of a length of `2 ^ 32` or more only the low 32 bits are written. -/
def encode (m : Message) : Bytes :=
  BigEndian.encode 4 m.frameLength ++ (m.id?.map MessageId.toByte).toList ++ m.payload

/-! ### Reading -/

/-- The first word of some bytes, and the rest. -/
def takeWord (bs : Bytes) : UInt32 × Bytes :=
  (UInt32.ofNat (BigEndian.decode (bs.take 4)), bs.drop 4)

def blockOf (payload : Bytes) : Block :=
  let (index, rest) := takeWord payload
  let (start, rest) := takeWord rest
  ⟨index, start, (takeWord rest).1⟩

/-- A message, if its payload has the size that it must have. -/
def sized (name : String) (expected : Nat) (payload : Bytes) (m : Message) :
    Except Error Message :=
  if payload.length = expected then .ok m
  else .error (.malformedMessage (.payloadSize name payload.length expected))

def ofPayload (id : MessageId) (payload : Bytes) : Except Error Message :=
  match id with
  | .choke => sized "choke" 0 payload .choke
  | .unchoke => sized "unchoke" 0 payload .unchoke
  | .interested => sized "interested" 0 payload .interested
  | .notInterested => sized "not interested" 0 payload .notInterested
  | .have => sized "have" 4 payload (.have (takeWord payload).1)
  | .bitfield => .ok (.bitfield payload)
  | .request => sized "request" 12 payload (.request (blockOf payload))
  | .piece =>
    if Bytes.hasAtLeast 8 payload then
      let (index, rest) := takeWord payload
      let (start, data) := takeWord rest
      .ok (.piece index start data)
    else .error (.malformedMessage .pieceTooShort)
  | .cancel => sized "cancel" 12 payload (.cancel (blockOf payload))
  | .port => sized "port" 2 payload (.port (UInt16.ofNat (BigEndian.decode payload)))

/-- Reads exactly one frame. -/
def decode (frame : Bytes) : Except Error Message :=
  match Bytes.splitAt? 4 frame with
  | none => .error (.malformedMessage .tooShort)
  | some (length, body) =>
    let declared := BigEndian.decode length
    if body.length ≠ declared then
      .error (.malformedMessage (.lengthMismatch declared body.length))
    else
      match body with
      | [] => .ok .keepAlive
      | id :: payload => do
        let id ← MessageId.ofByte id
        ofPayload id payload

end Message

end BitTorrent.Wire
