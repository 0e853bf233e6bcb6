import BitTorrent.Bytes

/-! Decimal numbers as bytes. Writing gives the fewest digits; reading stops
counting once a number reaches its limit, so a long run of digits costs no more
than its length. -/

namespace BitTorrent.Decimal

/-- The digits of a number, without a leading zero except for `0` itself. -/
def ofNat (n : Nat) : Bytes := Bytes.ofAscii (Nat.toDigits 10 n)

def ofInt (i : Int) : Bytes :=
  if i < 0 then 0x2d :: ofNat i.natAbs else ofNat i.natAbs

def isDigit (b : UInt8) : Bool := 0x30 ≤ b && b ≤ 0x39

def digitValue (b : UInt8) : Nat := b.toNat - 0x30

/-- One more digit on the right of a number; none from `limit` on. -/
def push (limit : Nat) (v : Option Nat) (d : Nat) : Option Nat :=
  v.bind fun n => if 10 * n + d < limit then some (10 * n + d) else none

/-- The number that a run of digits writes, if it is below `limit`. -/
def readBelow (limit : Nat) (digits : Bytes) : Option Nat :=
  digits.foldl (fun v b => push limit v (digitValue b)) (some 0)

end BitTorrent.Decimal
