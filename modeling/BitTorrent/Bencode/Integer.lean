import BitTorrent.Bencode.Error
import BitTorrent.Bytes.Decimal

/-! Integers of 64 bits: `i`, the number in decimal, `e`. A number has one spelling,
so leading zeros and a negative zero are refused. -/

namespace BitTorrent.Bencode.Integer

def encode (n : Int64) : Bytes := 0x69 :: Decimal.ofInt n.toInt ++ [0x65]

/-- The bytes between `i` at the front and `e` at the end. -/
def body? : Bytes → Option Bytes
  | b :: rest => if b = 0x69 ∧ rest.getLast? = some 0x65 then some rest.dropLast else none
  | [] => none

/-- The magnitudes below `2 ^ 63` are positive or negative, `2 ^ 63` itself only negative. -/
def magnitudeLimit (negative : Bool) : Nat := if negative then Nat.pow 2 63 + 1 else Nat.pow 2 63

def ofBody (body : Bytes) : Except Error Int64 :=
  let negative := body.head? == some 0x2d
  let digits := if negative then body.tail else body
  if digits = [] ∨ ¬ digits.all Decimal.isDigit then .error (.malformedInteger (.notDecimal body))
  else if 1 < digits.length ∧ digits.head? = some 0x30 then
    .error (.malformedInteger (.leadingZero body))
  else if negative ∧ digits = [0x30] then .error (.malformedInteger (.negativeZero body))
  else
    match Decimal.readBelow (magnitudeLimit negative) digits with
    | some n => .ok (Int64.ofInt (if negative then -n else n))
    | none => .error (.malformedInteger (.outOfRange body))

def decode (data : Bytes) : Except Error Int64 :=
  match body? data with
  | some body => ofBody body
  | none => .error (.malformedInteger (.notDelimited data))

end BitTorrent.Bencode.Integer
