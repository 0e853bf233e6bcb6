import BitTorrent.Bytes.Decimal

/-! What a byte means where a value may begin or a container may end. -/

namespace BitTorrent.Bencode

inductive Lead where
  | integer
  | list
  | dict
  | close
  | digit (value : Nat)
  | minus
  | other
  deriving DecidableEq, Repr

def Lead.of (b : UInt8) : Lead :=
  if b = 0x69 then .integer
  else if b = 0x6c then .list
  else if b = 0x64 then .dict
  else if b = 0x65 then .close
  else if b = 0x2d then .minus
  else if Decimal.isDigit b then .digit (Decimal.digitValue b)
  else .other

end BitTorrent.Bencode
