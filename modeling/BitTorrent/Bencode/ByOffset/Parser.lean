import BitTorrent.Bencode.ByOffset.Extent
import BitTorrent.Bencode.Parser

/-! Values read by offsets. A container is entered with the offset of its closing byte, and its loop
runs from the opening bracket up to that byte. -/

namespace BitTorrent.Bencode.ByOffset

/-! ### Leaves -/

/-- Of several digits the first is looked at. -/
def leadingZero (digits : Bytes) : Run Bool :=
  if 1 < digits.length then do
    let b ← index digits 0
    return b == 0x30
  else return false

def integerBody (body : Bytes) : Run Int64 :=
  let negative := body.head? == some 0x2d
  let digits := if negative then body.tail else body
  if digits = [] ∨ ¬ digits.all Decimal.isDigit then
    refuse (.malformedInteger (.notDecimal body))
  else do
    let zeroLed ← leadingZero digits
    if zeroLed then refuse (.malformedInteger (.leadingZero body))
    else if negative ∧ digits = [0x30] then refuse (.malformedInteger (.negativeZero body))
    else
      match Decimal.readBelow (Integer.magnitudeLimit negative) digits with
      | some n => return Int64.ofInt (if negative then -n else n)
      | none => refuse (.malformedInteger (.outOfRange body))

def integer (data : Bytes) : Run Int64 :=
  match Integer.body? data with
  | some body => integerBody body
  | none => refuse (.malformedInteger (.notDelimited data))

/-- A byte string that is the whole input. -/
def payload (exact : Bool) (data : Bytes) : Run Bytes := do
  let (declared, colon) ← lengthPrefix data 0
  let start ← add colon 1
  let payload ← slice data start data.length
  if payload.length < declared ∨ (exact ∧ payload.length ≠ declared) then
    refuse (.lengthMismatch declared payload.length)
  else slice payload 0 (if exact then declared else payload.length)

/-! ### Containers -/

/-- The byte string at `pos` in a container that closes at `stop`, and the offset after it. -/
def string (data : Bytes) (pos stop : Nat) : Run (Bytes × Nat) := do
  let (start, next) ← token data pos
  if stop < next then refuse (.unterminatedContainer stop)
  else do
    let payload ← slice data start next
    return (payload, next)

def key (data : Bytes) (pos stop : Nat) : Run (Bytes × Nat) := do
  let b ← index data pos
  match Lead.of b with
  | .digit _ => string data pos stop
  | .integer | .list | .dict => refuse .invalidKeyType
  | _ => refuse (.unexpectedByte b pos)

mutual

/-- The container that opens at `start` and closes at `stop`, inside of `depth` others. -/
def container (options : Options) (data : Bytes) (start stop depth : Nat) : Run Value :=
  enclosed start stop depth do
    if options.maxDepth < depth then refuse .nestingTooDeep
    else do
      let pos ← add start 1
      let b ← index data start
      if b = 0x6c then do
        let (vs, pos) ← items options data stop depth [] pos
        return (.list vs, pos)
      else do
        let (d, pos) ← entries options data stop depth .empty pos
        return (.dict d, pos)
termination_by (stop, stop + 1, 0)

/-- The elements from `pos` on behind those that are `done`, and the offset where the loop ends. -/
def items (options : Options) (data : Bytes) (stop depth : Nat) (done : List Value) (pos : Nat) :
    Run (List Value × Nat) := do
  if pos < stop then do
    let (v, next) ← element options data stop depth pos
    record (.turned pos next stop)
    -- An element of no bytes would be read again and again.
    if pos < next then items options data stop depth (done ++ [v]) next else trap .stalled
  else return (done, pos)
termination_by (stop, stop - pos, 1)

/-- The entries from `pos` on, put into what is `done`, and the offset where the loop ends. -/
def entries (options : Options) (data : Bytes) (stop depth : Nat) (done : Dict Value) (pos : Nat) :
    Run (Dict Value × Nat) := do
  if pos < stop then do
    let (name, start) ← key data pos stop
    if stop ≤ start then refuse (.unterminatedContainer stop)
    else do
      let (v, next) ← element options data stop depth start
      record (.turned pos next stop)
      if pos < next then entries options data stop depth (done.insert name v).2 next
      else trap .stalled
  else return (done, pos)
termination_by (stop, stop - pos, 1)

/-- The element at `pos`, and the offset after it. -/
def element (options : Options) (data : Bytes) (stop depth pos : Nat) : Run (Value × Nat) := do
  let b ← index data pos
  match Lead.of b with
  | .integer => do
    let inside ← slice data pos stop
    match inside.findIdx? (· = 0x65) with
    | some k => do
      let close ← add pos k
      let next ← add close 1
      let written ← slice data pos next
      let n ← integer written
      return (.integer n, next)
    | none => refuse (.unterminatedContainer stop)
  | .digit _ => do
    let (payload, next) ← string data pos stop
    return (.bytes payload, next)
  | .list | .dict => do
    let close ← closing data pos
    if stop ≤ close then refuse (.unterminatedContainer stop)
    else do
      let inner ← add depth 1
      let v ← container options data pos close inner
      let next ← add close 1
      return (v, next)
  | _ => refuse (.unexpectedByte b pos)
termination_by (stop, 0, 0)

end

/-! ### Whole inputs -/

def decode (options : Options) (data : Bytes) : Run Value :=
  match data[0]? with
  | none => refuse .truncatedInput
  | some b =>
    match Lead.of b with
    | .integer => do
      let n ← integer data
      return .integer n
    | .digit _ => do
      let payload ← payload options.exactLength data
      return .bytes payload
    | .list | .dict => do
      let stop ← closing data 0
      let after ← add stop 1
      if after ≠ data.length then refuse (.unterminatedContainer after)
      else container options data 0 stop 0
    | _ => refuse (.unexpectedByte b 0)

end BitTorrent.Bencode.ByOffset
