import BitTorrent.Bencode.Extent
import BitTorrent.Bencode.Integer
import BitTorrent.Bencode.Value
import BitTorrent.Parameters

/-! Reading values. A container is entered only after its closing `e` has been
found, so an input whose brackets do not match is refused before any of its
elements is looked at. The whole input must be exactly one value. -/

namespace BitTorrent.Bencode

/-! ### Containers

A body is what follows the opening bracket, up to and including the closing one. -/

/-- How many bytes an element has after its first byte `b`, when `tail` comes after that. -/
def elementSize (pos : Nat) (b : UInt8) (tail : Bytes) : Except Error Nat :=
  match Lead.of b with
  | .integer =>
    match tail.findIdx? (· = 0x65) with
    | some k => .ok (k + 1)
    | none => .error (.unterminatedContainer (pos + tail.length))
  | .list | .dict => do
    let stop ← closing pos (b :: tail)
    return stop - pos
  | .digit _ => do
    let token ← ByteString.token pos (b :: tail)
    return token.size - 1
  | _ => .error (.unexpectedByte b pos)

/-- How many bytes the element at the head of a body has after its first. The element must end
before the closing bracket of the body. -/
def elementTail (pos : Nat) (body : Bytes) : Except Error Nat :=
  match body with
  | [] => .error .truncatedInput
  | b :: tail => do
    let n ← elementSize pos b tail
    if (tail.drop n).isEmpty then .error (.unterminatedContainer (pos + tail.length)) else .ok n

/-- The key at the head of a body, with how many bytes it has after its first. -/
def key (pos : Nat) (body : Bytes) : Except Error (Bytes × Nat) :=
  match body with
  | [] => .error .truncatedInput
  | b :: tail =>
    match Lead.of b with
    | .digit _ => do
      let token ← ByteString.token pos body
      if token.rest.isEmpty then .error (.unterminatedContainer (pos + tail.length))
      else pure (token.payload, token.size - 1)
    | .integer | .list | .dict => .error .invalidKeyType
    | _ => .error (.unexpectedByte b pos)

/-- The elements of a list, each decoded by `value` from its offset and exactly its bytes. -/
def items (value : Nat → Bytes → Except Error Value) (pos : Nat) (body : Bytes) :
    Except Error (List Value) :=
  match body with
  | [] | [_] => .ok []
  | b :: tail => do
    let n ← elementTail pos body
    let v ← value pos (b :: tail.take n)
    let vs ← items value (pos + n + 1) (tail.drop n)
    pure (v :: vs)
termination_by body.length
decreasing_by simp only [List.length_drop, List.length_cons]; omega

/-- The entries of a dictionary, in order and with repeated keys. -/
def entries (value : Nat → Bytes → Except Error Value) (pos : Nat) (body : Bytes) :
    Except Error (List (Bytes × Value)) :=
  match body with
  | [] | [_] => .ok []
  | _ :: tail => do
    let (k, n) ← key pos body
    match h : tail.drop n with
    | [] | [_] => .error (.unterminatedContainer (pos + tail.length))
    | c :: more => do
      let m ← elementTail (pos + n + 1) (c :: more)
      let v ← value (pos + n + 1) (c :: more.take m)
      let es ← entries value (pos + n + m + 2) (more.drop m)
      pure ((k, v) :: es)
termination_by body.length
decreasing_by
  have := congrArg List.length h
  simp at this ⊢
  omega

/-- The value written by exactly the bytes of `token`, which stands at offset `pos`, with at
most `nesting` containers open at once. -/
def value (nesting : Nat) (pos : Nat) (token : Bytes) : Except Error Value :=
  match token with
  | [] => .error .truncatedInput
  | b :: body =>
    match Lead.of b with
    | .integer => Value.integer <$> Integer.decode token
    | .digit _ => Value.bytes <$> ByteString.decode token
    | .list =>
      match nesting with
      | 0 => .error .nestingTooDeep
      | n + 1 => Value.list <$> items (value n) (pos + 1) body
    | .dict =>
      match nesting with
      | 0 => .error .nestingTooDeep
      | n + 1 => (fun es => Value.dict (Dict.ofList es)) <$> entries (value n) (pos + 1) body
    | _ => .error (.unexpectedByte b pos)
termination_by structural nesting

/-! ### Whole inputs -/

structure Options where
  /-- Whether a byte string that is the whole input must be as long as declared. -/
  exactLength : Bool
  /-- How many containers may enclose a container. -/
  maxDepth : Nat

def Options.standard : Options := ⟨true, Parameters.maxBencodeDepth⟩

/-- Options for input that is trusted already. -/
def Options.fast : Options := ⟨false, Parameters.maxBencodeDepth⟩

def Options.decode (options : Options) (data : Bytes) : Except Error Value :=
  match data with
  | [] => .error .truncatedInput
  | b :: _ =>
    match Lead.of b with
    | .integer => Value.integer <$> Integer.decode data
    | .digit _ => Value.bytes <$> ByteString.payload options.exactLength data
    | .list | .dict => do
      let stop ← closingAt data 0
      if stop + 1 ≠ data.length then .error (.unterminatedContainer (stop + 1))
      else value (options.maxDepth + 1) 0 data
    | _ => .error (.unexpectedByte b 0)

def decode (data : Bytes) : Except Error Value := Options.standard.decode data

def decodeList (data : Bytes) : Except Error (List Value) :=
  match data with
  | [] => .error .truncatedInput
  | b :: _ =>
    match Lead.of b with
    | .list => do
      match (← decode data).list? with
      | some items => .ok items
      | none => .error (.unexpectedByte b 0)
    | _ => .error (.unexpectedByte b 0)

def decodeDict (data : Bytes) : Except Error (Dict Value) :=
  match data with
  | [] => .error .truncatedInput
  | b :: _ =>
    match Lead.of b with
    | .dict => do
      match (← decode data).dict? with
      | some d => .ok d
      | none => .error (.unexpectedByte b 0)
    | _ => .error (.unexpectedByte b 0)

end BitTorrent.Bencode
