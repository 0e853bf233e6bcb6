import BitTorrent.Bytes.Hex
import BitTorrent.Fault
import BitTorrent.Text.Quoted
import BitTorrent.Text.Utf8

/-! What can be wrong with bencoded bytes, and how it is told. -/

namespace BitTorrent.Bencode

/-- Why bytes are not an integer. All but the first concern the bytes between `i` and `e`. -/
inductive IntegerFault where
  | notDelimited (data : Bytes)
  | notDecimal (body : Bytes)
  | leadingZero (body : Bytes)
  | negativeZero (body : Bytes)
  | outOfRange (body : Bytes)
  deriving DecidableEq

def IntegerFault.message : IntegerFault → String
  | .notDelimited data => Utf8.decodeLossy data
  | .notDecimal body => quoting "not a decimal number" body
  | .leadingZero body => quoting "leading zero" body
  | .negativeZero body => quoting "negative zero" body
  | .outOfRange body => quoting "out of range" body
where
  quoting (reason : String) (body : Bytes) : String :=
    reason ++ " (" ++ Text.Quoted.encode (Utf8.decodeLossy body) ++ ")"

inductive Error where
  | malformedInteger (f : IntegerFault)
  | lengthMismatch (declared actual : Nat)
  | unexpectedByte (byte : UInt8) (offset : Nat)
  | unterminatedContainer (offset : Nat)
  | truncatedInput
  | invalidKeyType
  | nestingTooDeep
  | fault (f : Fault)
  deriving DecidableEq

def Error.message : Error → String
  | .malformedInteger f => "malformed integer: " ++ f.message
  | .lengthMismatch declared actual =>
    s!"string length mismatch: declared {declared}, found {actual}"
  | .unexpectedByte byte offset => s!"unexpected byte 0x{Hex.encode [byte]} at offset {offset}"
  | .unterminatedContainer offset => s!"container not terminated at offset {offset}"
  | .truncatedInput => "input truncated"
  | .invalidKeyType => "dictionary key is not a byte string"
  | .nestingTooDeep => "nesting too deep"
  | .fault f => "io error: " ++ f.message

end BitTorrent.Bencode
