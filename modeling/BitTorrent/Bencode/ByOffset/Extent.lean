import BitTorrent.Bencode.ByOffset.Run
import BitTorrent.Bencode.Extent

/-! Tokens and the ends of values, found by offsets. The scan for a closing byte looks ahead over a
run of digits and jumps over a payload in one turn. -/

namespace BitTorrent.Bencode.ByOffset

/-! ### Byte strings -/

def digitTurn (data : Bytes) (pos : Nat) : Run (Nat ⊕ Nat) :=
  match data[pos]? with
  | some b =>
    if Decimal.isDigit b then do
      let next ← add pos 1
      return .inr next
    else return .inl pos
  | none => return .inl pos

/-- The offset of the first byte from `pos` on that is no digit. -/
def skipDigits (data : Bytes) (pos : Nat) : Run Nat := loop data.length id (digitTurn data) pos

def lengthOf (digits : Bytes) : Run Nat :=
  match Decimal.readBelow ByteString.lengthLimit digits with
  | some n => pure n
  | none => refuse .truncatedInput

/-- The length that is written at `pos`, and the offset of the colon after it. -/
def lengthPrefix (data : Bytes) (pos : Nat) : Run (Nat × Nat) := do
  let digitsEnd ← skipDigits data pos
  match data[digitsEnd]? with
  | some b =>
    if b = 0x3a ∧ pos < digitsEnd then do
      let digits ← slice data pos digitsEnd
      let n ← lengthOf digits
      return (n, digitsEnd)
    else refuse (.unexpectedByte b digitsEnd)
  | none => refuse .truncatedInput

/-- Where a payload of `n` bytes ends. A sum that no word holds is beyond the end of any buffer. -/
def payloadEnd (data : Bytes) (start n : Nat) : Run Nat :=
  if start + n < UInt64.size ∧ start + n ≤ data.length then pure (start + n)
  else refuse .truncatedInput

/-- Where the payload of the byte string at `pos` starts and ends. -/
def token (data : Bytes) (pos : Nat) : Run (Nat × Nat) := do
  let (n, colon) ← lengthPrefix data pos
  let start ← add colon 1
  let stop ← payloadEnd data start n
  return (start, stop)

/-! ### Closing bytes -/

/-- Where the byte string ends whose length stands from `pos` up to a colon. -/
def stringEnd (data : Bytes) (pos colon : Nat) : Run Nat := do
  let digits ← slice data pos colon
  let n ← lengthOf digits
  let start ← add colon 1
  payloadEnd data start n

/-- One turn at `pos` with `level` brackets open: the closing byte of the outermost of them, or the
brackets that are open and the offset to go on at. -/
def scanTurn (data : Bytes) (level pos : Nat) : Run (Nat ⊕ Nat × Nat) :=
  match data[pos]? with
  | none => refuse .truncatedInput
  | some b =>
    match Lead.of b with
    | .close => do
      let level ← sub level 1
      if level = 0 then return .inl pos
      else do
        let next ← add pos 1
        return .inr (level, next)
    | .integer | .list | .dict => do
      let level ← add level 1
      let next ← add pos 1
      return .inr (level, next)
    | .digit _ => do
      let digitsEnd ← skipDigits data pos
      if data[digitsEnd]? = some 0x3a then do
        let next ← stringEnd data pos digitsEnd
        return .inr (level, next)
      else return .inr (level, digitsEnd)
    | .minus => do
      let next ← add pos 1
      return .inr (level, next)
    | .other => refuse (.unexpectedByte b pos)

def closing (data : Bytes) (start : Nat) : Run Nat :=
  match data[start]? with
  | none => refuse .truncatedInput
  | some b =>
    match Lead.of b with
    | .integer | .list | .dict => do
      let pos ← add start 1
      loop data.length Prod.snd (fun (level, pos) => scanTurn data level pos) (1, pos)
    | _ => refuse (.unexpectedByte b start)

/-! ### Values of a dictionary -/

/-- The offset after the value at `pos`. -/
def valueEnd (data : Bytes) (pos : Nat) : Run Nat :=
  match data[pos]? with
  | none => refuse .truncatedInput
  | some b =>
    match Lead.of b with
    | .integer | .list | .dict => do
      let stop ← closing data pos
      add stop 1
    | .digit _ => do
      let (_, stop) ← token data pos
      return stop
    | _ => refuse (.unexpectedByte b pos)

/-- One turn at `pos`: the span that has been found in the end, or the one found so far and the
offset of the next entry. -/
def walkTurn (data key : Bytes) (found : Option Span) (pos : Nat) :
    Run (Option Span ⊕ Option Span × Nat) :=
  match data[pos]? with
  | none => refuse .truncatedInput
  | some b =>
    match Lead.of b with
    | .close => return .inl found
    | .integer | .list | .dict => refuse .invalidKeyType
    | .digit _ => do
      let (start, valueStart) ← token data pos
      let stop ← valueEnd data valueStart
      let name ← slice data start valueStart
      return .inr (if name = key then some ⟨valueStart, stop⟩ else found, stop)
    | _ => refuse (.unexpectedByte b pos)

def spanOf (data key : Bytes) : Run (Option Span) :=
  match data[0]? with
  | none => refuse .truncatedInput
  | some b =>
    match Lead.of b with
    | .dict => loop data.length Prod.snd (fun (found, pos) => walkTurn data key found pos) (none, 1)
    | _ => refuse (.unexpectedByte b 0)

end BitTorrent.Bencode.ByOffset
