import BitTorrent.Bencode.ByteString
import BitTorrent.Bencode.Integer
import BitTorrent.Bencode.Value

/-! Writing values. Dictionary entries are written in the order in which the
dictionary holds them; nothing is sorted. -/

namespace BitTorrent.Bencode

mutual
/-- The bytes of a value. A list stands between `l` and `e`, a dictionary between `d` and `e`. -/
def encode : Value → Bytes
  | .integer n => Integer.encode n
  | .bytes b => ByteString.encode b
  | .list items => 0x6c :: encodeItems items ++ [0x65]
  | .dict d => 0x64 :: encodeEntries d.entries ++ [0x65]
def encodeItems : List Value → Bytes
  | [] => []
  | v :: vs => encode v ++ encodeItems vs
def encodeEntries : List (Bytes × Value) → Bytes
  | [] => []
  | (k, v) :: es => ByteString.encode k ++ encode v ++ encodeEntries es
end

/-- What a buffer of limited room holds after a value is written into it. -/
def encodeWithin (room : Nat) (v : Value) : Except Error Bytes :=
  let out := encode v
  if out.length ≤ room then .ok out else .error (.fault .bufferFull)

end BitTorrent.Bencode
