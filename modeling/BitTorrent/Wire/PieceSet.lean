import BitTorrent.Bytes
import BitTorrent.Wire.Error

/-! The set of pieces that a peer has, kept as it is sent: one bit a piece and eight to a
byte, the first piece in the high bit of the first byte. The spare bits of the last byte
are zero. -/

namespace BitTorrent.Wire

/-! ### Packing -/

/-- The eight bits of a byte, high bit first. -/
def bitsOf (b : UInt8) : List Bool :=
  [b.toNat.testBit 7, b.toNat.testBit 6, b.toNat.testBit 5, b.toNat.testBit 4,
    b.toNat.testBit 3, b.toNat.testBit 2, b.toNat.testBit 1, b.toNat.testBit 0]

def unpack (bs : Bytes) : List Bool := bs.flatMap bitsOf

/-- The number of bytes for this many bits. -/
def packedSize (n : Nat) : Nat := (n + 7) / 8

/-- The distance of a piece's bit from the low end of its byte. -/
def bitShift (i : Nat) : UInt8 := UInt8.ofNat (7 - i % 8)

/-- The bits of the last byte that stand for one of `n` pieces. -/
def lastMask (n : Nat) : UInt8 :=
  if n % 8 = 0 then 0xff else 0xff <<< UInt8.ofNat (8 - n % 8)

/-! ### Sets of pieces -/

structure PieceSet where
  /-- The number of pieces of the torrent. -/
  pieceCount : Nat
  bytes : Bytes
  deriving DecidableEq

namespace PieceSet

/-- None of `n` pieces. -/
def empty (n : Nat) : PieceSet := ⟨n, List.replicate (packedSize n) 0⟩

/-- All of `n` pieces. -/
def full (n : Nat) : PieceSet :=
  ⟨n, (List.replicate (packedSize n) 0xff).modify (packedSize n - 1) (· &&& lastMask n)⟩

/-- Reads the packed bits of `n` pieces. -/
def ofBytes (payload : Bytes) (n : Nat) : Except Error PieceSet :=
  if payload.length ≠ packedSize n then
    .error (.malformedMessage (.bitfieldSize payload.length (packedSize n) n))
  else if payload.getLast?.any (fun last => last &&& ~~~lastMask n != 0) then
    .error (.malformedMessage .spareBits)
  else .ok ⟨n, payload⟩

def contains (s : PieceSet) (i : Nat) : Bool :=
  decide (i < s.pieceCount) && (s.bytes.getD (i / 8) 0 >>> bitShift i) &&& 1 == 1

/-- Adds a piece; an index out of range changes nothing. -/
def insert (s : PieceSet) (i : Nat) : PieceSet :=
  if i < s.pieceCount then
    { s with bytes := s.bytes.modify (i / 8) (· ||| 1 <<< bitShift i) }
  else s

/-- Takes a piece out; an index out of range changes nothing. -/
def erase (s : PieceSet) (i : Nat) : PieceSet :=
  if i < s.pieceCount then
    { s with bytes := s.bytes.modify (i / 8) (· &&& ~~~(1 <<< bitShift i)) }
  else s

/-- The number of pieces in the set, counted over the bytes. -/
def count (s : PieceSet) : Nat := (s.bytes.map fun b => (bitsOf b).count true).foldr (· + ·) 0

def isFull (s : PieceSet) : Bool := s.count == s.pieceCount

def isEmpty (s : PieceSet) : Bool := s.bytes.all (· == 0)

/-- The indices of the pieces in the set, in order. -/
def toList (s : PieceSet) : List Nat :=
  (((unpack s.bytes).take s.pieceCount).zipIdx.filter (·.1)).map (·.2)

end PieceSet

end BitTorrent.Wire
