import BitTorrent.Bytes

/-! Hexadecimal text of bytes: written in lower case, read in either case. -/

namespace BitTorrent.Hex

def digit (n : Nat) : Char := Nat.digitChar n

/-- The value of a digit of either case. -/
def digitValue? (c : Char) : Option Nat :=
  if '0' ≤ c ∧ c ≤ '9' then some (c.toNat - 48)
  else if 'a' ≤ c ∧ c ≤ 'f' then some (c.toNat - 87)
  else if 'A' ≤ c ∧ c ≤ 'F' then some (c.toNat - 55)
  else none

def ofByte (b : UInt8) : List Char := [digit (b.toNat / 16), digit (b.toNat % 16)]

def encode (bs : Bytes) : String := String.ofList (bs.flatMap ofByte)

/-- Reads pairs of digits; `none` for an odd count or any other character. -/
def decodeChars? : List Char → Option Bytes
  | [] => some []
  | [_] => none
  | h :: l :: cs => do
    let hi ← digitValue? h
    let lo ← digitValue? l
    let rest ← decodeChars? cs
    return UInt8.ofNat (16 * hi + lo) :: rest

def decode? (s : String) : Option Bytes := decodeChars? s.toList

end BitTorrent.Hex
