import BitTorrent.Bytes.Hex
import BitTorrent.Parameters
import BitTorrent.Text.Utf8

/-! The twenty bytes by which a client names itself to trackers and peers. -/

namespace BitTorrent

structure PeerId where
  octets : Octets 20
  deriving DecidableEq

namespace PeerId

def bytes (p : PeerId) : Bytes := p.octets.toList

def ofBytes? (bs : Bytes) : Option PeerId := (Octets.ofBytes? 20 bs).map PeerId.mk

/-- The client's prefix and twelve bytes of randomness. -/
def ofRandom (random : Octets 12) : PeerId :=
  ⟨⟨Bytes.ofText Parameters.clientPrefix ++ random.toList, by
    rw [List.length_append, random.length_toList]; rfl⟩⟩

/-- The six characters between the dashes of a `-XXnnnn-` prefix. -/
def clientId? (p : PeerId) : Option String :=
  if p.bytes[0]? = some 0x2d ∧ p.bytes[7]? = some 0x2d then
    Utf8.decode? ((p.bytes.drop 1).take 6)
  else none

/-- The client, or the first eight bytes where no client can be read. -/
def describe (p : PeerId) : String :=
  match p.clientId? with
  | some client => "PeerId(" ++ client ++ ")"
  | none => "PeerId(" ++ Hex.encode (p.bytes.take 8) ++ ")"

def isPlain (b : UInt8) : Bool :=
  (0x30 ≤ b && b ≤ 0x39) || (0x41 ≤ b && b ≤ 0x5a) || (0x61 ≤ b && b ≤ 0x7a) || b == 0x2d

/-- Letters, digits and dashes as they are, any other byte as `%` and two digits. -/
def text (p : PeerId) : String :=
  String.ofList (p.bytes.flatMap fun b =>
    if isPlain b then [Char.ofNat b.toNat] else '%' :: Hex.ofByte b)

end PeerId

end BitTorrent
