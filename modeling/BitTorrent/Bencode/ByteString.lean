import BitTorrent.Bencode.Error
import BitTorrent.Bytes.Decimal

/-! Byte strings: the number of bytes in decimal, `:`, and the bytes. Leading zeros of
the length are read and never written. Offsets in errors are counted from the start
of the whole input. -/

namespace BitTorrent.Bencode.ByteString

def encode (b : Bytes) : Bytes := Decimal.ofNat b.length ++ 0x3a :: b

/-- Lengths are below this. -/
def lengthLimit : Nat := Nat.pow 2 64

/-- Reads `length:` at the head of `rest`, which starts at offset `pos`. Answers the
length, the number of bytes read, and what follows the colon. -/
def lengthPrefix (pos : Nat) (rest : Bytes) : Except Error (Nat × Nat × Bytes) :=
  let digits := rest.takeWhile Decimal.isDigit
  match rest.dropWhile Decimal.isDigit with
  | [] => .error .truncatedInput
  | b :: after =>
    if b = 0x3a ∧ digits ≠ [] then
      match Decimal.readBelow lengthLimit digits with
      | some n => .ok (n, digits.length + 1, after)
      | none => .error .truncatedInput
    else .error (.unexpectedByte b (pos + digits.length))

/-! ### At the head of some input -/

structure Token where
  payload : Bytes
  /-- The number of bytes of the token, length and colon included. -/
  size : Nat
  rest : Bytes

/-- The byte string at the head of `input`, which starts at offset `pos`. -/
def token (pos : Nat) (input : Bytes) : Except Error Token := do
  let (n, read, after) ← lengthPrefix pos input
  match Bytes.splitAt? n after with
  | some (payload, rest) => .ok ⟨payload, read + n, rest⟩
  | none => .error .truncatedInput

/-! ### As the whole input -/

/-- The payload must be as long as declared; if `exact` is off it may be longer, and all of it
is answered. -/
def payload (exact : Bool) (data : Bytes) : Except Error Bytes := do
  let (declared, _, payload) ← lengthPrefix 0 data
  if payload.length < declared ∨ (exact ∧ payload.length ≠ declared) then
    .error (.lengthMismatch declared payload.length)
  else .ok payload

def decode (data : Bytes) : Except Error Bytes := payload true data

end BitTorrent.Bencode.ByteString
