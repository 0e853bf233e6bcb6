import BitTorrent.Bytes

/-! Internet addresses and the endpoints on them. -/

namespace BitTorrent

inductive Address where
  | v4 (octets : Octets 4)
  | v6 (octets : Octets 16)
  deriving DecidableEq

structure Endpoint where
  address : Address
  port : UInt16
  deriving DecidableEq

def Address.bytes : Address → Bytes
  | .v4 o => o.toList
  | .v6 o => o.toList

end BitTorrent
