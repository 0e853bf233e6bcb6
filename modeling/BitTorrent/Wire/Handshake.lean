import BitTorrent.InfoHash
import BitTorrent.PeerId
import BitTorrent.Wire.Error

/-! The handshake, the first thing that each side sends: the protocol string with its
length in front, eight reserved bytes, the info hash and the peer id. -/

namespace BitTorrent.Wire

structure Handshake where
  infoHash : InfoHash
  peerId : PeerId
  reserved : Octets 8
  deriving DecidableEq

namespace Handshake

/-- A handshake that announces no extensions. -/
def new (infoHash : InfoHash) (peerId : PeerId) : Handshake := ⟨infoHash, peerId, .zero 8⟩

/-- The protocol string with its length in front. -/
def header : Bytes :=
  UInt8.ofNat Parameters.protocolString.length :: Parameters.protocolString

def encode (h : Handshake) : Bytes :=
  header ++ h.reserved.toList ++ h.infoHash.bytes ++ h.peerId.bytes

def decode (data : Bytes) : Except Error Handshake :=
  if h : data.length = 68 then
    if data.take 20 = header then
      .ok {
        reserved := .slice 8 20 data (by omega)
        infoHash := ⟨.slice 20 28 data (by omega)⟩
        peerId := ⟨.slice 20 48 data (by omega)⟩ }
    else .error .invalidHandshake
  else .error .invalidHandshake

end Handshake

end BitTorrent.Wire
