import BitTorrent.Bencode.ByteString
import BitTorrent.Bencode.Lead

/-! Where values end, found without decoding them. `closingAt` counts brackets
byte by byte and looks at nothing after the closing one, so it accepts more than
the grammar does: digits and minus signs may stand anywhere between tokens.
`spanOf` walks over the entries of the outermost dictionary. -/

namespace BitTorrent.Bencode

/-! ### Counting brackets -/

/-- What the scan is in the middle of. -/
inductive Within where
  /-- A byte string of which this many bytes are left; with none left, between tokens. -/
  | payload (left : Nat)
  /-- A run of digits with this value, or with none when it is too large for a length. -/
  | digits (value : Option Nat)
  deriving DecidableEq, Repr

inductive Step where
  | closed
  | more (level : Nat) (within : Within)
  | unexpected
  | truncated

namespace Scan

/-- A byte between tokens, with `level` brackets open inside of the outermost one. -/
def between (level : Nat) (b : UInt8) : Step :=
  match Lead.of b with
  | .close =>
    match level with
    | 0 => .closed
    | n + 1 => .more n (.payload 0)
  | .integer | .list | .dict => .more (level + 1) (.payload 0)
  | .digit d => .more level (.digits (Decimal.push ByteString.lengthLimit (some 0) d))
  | .minus => .more level (.payload 0)
  | .other => .unexpected

/-- One byte of the scan. A run of digits is the length of a byte string if a colon
ends it, and has no meaning otherwise. -/
def step (level : Nat) : Within → UInt8 → Step
  | .payload (n + 1), _ => .more level (.payload n)
  | .payload 0, b => between level b
  | .digits v, b =>
    match Lead.of b with
    | .digit d => .more level (.digits (Decimal.push ByteString.lengthLimit v d))
    | _ =>
      if b = 0x3a then
        match v with
        | some n => .more level (.payload n)
        | none => .truncated
      else between level b

/-- The offset of the byte that closes the outermost bracket. -/
def run (level : Nat) (within : Within) (pos : Nat) : Bytes → Except Error Nat
  | [] => .error .truncatedInput
  | b :: rest =>
    match step level within b with
    | .closed => .ok pos
    | .more level within => run level within (pos + 1) rest
    | .unexpected => .error (.unexpectedByte b pos)
    | .truncated => .error .truncatedInput

end Scan

/-- The offset of the `e` that closes the value at the head of `rest`, which starts at `pos`. -/
def closing (pos : Nat) : Bytes → Except Error Nat
  | [] => .error .truncatedInput
  | b :: rest =>
    match Lead.of b with
    | .integer | .list | .dict => Scan.run 0 (.payload 0) (pos + 1) rest
    | _ => .error (.unexpectedByte b pos)

/-- The offset of the `e` that closes the value at `start`. -/
def closingAt (data : Bytes) (start : Nat) : Except Error Nat :=
  closing start (data.drop start)

/-! ### Values of a dictionary -/

/-- Bytes from `start` up to but not including `stop`. -/
structure Span where
  start : Nat
  stop : Nat
  deriving DecidableEq, Repr

def Span.of (data : Bytes) (s : Span) : Bytes := (data.drop s.start).take (s.stop - s.start)

/-- The number of bytes of the value at the head of `rest`. -/
def valueSize (pos : Nat) (rest : Bytes) : Except Error Nat :=
  match rest with
  | [] => .error .truncatedInput
  | b :: _ =>
    match Lead.of b with
    | .integer | .list | .dict => do
      let stop ← closing pos rest
      return stop + 1 - pos
    | .digit _ => do
      let token ← ByteString.token pos rest
      return token.size
    | _ => .error (.unexpectedByte b pos)

/-- Goes on over entries from offset `pos`, keeping the span of the last value of `key`. -/
def lastSpan (key : Bytes) (found : Option Span) (pos : Nat) (rest : Bytes) :
    Except Error (Option Span) :=
  match rest with
  | [] => .error .truncatedInput
  | b :: tail =>
    match Lead.of b with
    | .close => .ok found
    | .integer | .list | .dict => .error .invalidKeyType
    | .digit _ => do
      let token ← ByteString.token pos rest
      let start := pos + token.size
      let size ← valueSize start token.rest
      let found := if token.payload = key then some ⟨start, start + size⟩ else found
      lastSpan key found (start + size) (tail.drop (token.size + size - 1))
    | _ => .error (.unexpectedByte b pos)
termination_by rest.length
decreasing_by simp only [List.length_drop, List.length_cons]; omega

/-- Where the value of `key` stands in the outermost dictionary; the last one if the key
comes more than once. -/
def spanOf (data key : Bytes) : Except Error (Option Span) :=
  match data with
  | [] => .error .truncatedInput
  | b :: tail =>
    match Lead.of b with
    | .dict => lastSpan key none 1 tail
    | _ => .error (.unexpectedByte b 0)

end BitTorrent.Bencode
