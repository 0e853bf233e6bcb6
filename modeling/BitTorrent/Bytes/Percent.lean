import BitTorrent.Bytes.Hex

/-! Percent encoding of raw bytes for a query. -/

namespace BitTorrent.Percent

/-- Letters, digits and `-`, `_`, `.`, `~` stand for themselves. -/
def isUnreserved (b : UInt8) : Bool :=
  (0x30 ≤ b && b ≤ 0x39) || (0x41 ≤ b && b ≤ 0x5a) || (0x61 ≤ b && b ≤ 0x7a) ||
    b == 0x2d || b == 0x5f || b == 0x2e || b == 0x7e

def upperDigit (n : Nat) : Char := (Hex.digit n).toUpper

/-- Any other byte is a `%` and two upper-case hexadecimal digits. -/
def ofByte (b : UInt8) : List Char :=
  if isUnreserved b then [Char.ofNat b.toNat]
  else ['%', upperDigit (b.toNat / 16), upperDigit (b.toNat % 16)]

def encodeChars (bs : Bytes) : List Char := bs.flatMap ofByte

def encode (bs : Bytes) : String := String.ofList (encodeChars bs)

end BitTorrent.Percent
