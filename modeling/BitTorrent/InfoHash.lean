import BitTorrent.Bytes.Hex
import BitTorrent.Sha1
import BitTorrent.Torrent.Error

/-! The info hash: the SHA-1 digest of a torrent's info dictionary as bytes. -/

namespace BitTorrent

structure InfoHash where
  octets : Octets 20
  deriving DecidableEq

namespace InfoHash

/-- Hashes bytes exactly as given. -/
def ofInfo (info : Bytes) : InfoHash := ⟨Sha1.digest info⟩

def ofBytes (bs : Bytes) : Except Torrent.Error InfoHash :=
  match Octets.ofBytes? 20 bs with
  | some o => .ok ⟨o⟩
  | none => .error .invalidInfoHash

def ofHex (s : String) : Except Torrent.Error InfoHash :=
  match Hex.decode? s with
  | some bs => ofBytes bs
  | none => .error .invalidInfoHash

def bytes (h : InfoHash) : Bytes := h.octets.toList

def hex (h : InfoHash) : String := Hex.encode h.bytes

/-- The hash with its kind, for diagnostics. -/
def describe (h : InfoHash) : String := "InfoHash(" ++ h.hex ++ ")"

end InfoHash

end BitTorrent
