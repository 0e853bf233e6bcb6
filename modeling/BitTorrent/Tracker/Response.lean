import BitTorrent.Bencode.Parser
import BitTorrent.Bencode.Printer
import BitTorrent.Tracker.PeerList

/-! The tracker's answer to an announce. A failure reason decides the outcome before
anything else is looked at. Optional entries of another kind or out of range count
as absent. -/

namespace BitTorrent.Tracker

open Bencode

structure Response where
  warning : Option String
  /-- Seconds until the next announce. -/
  interval : UInt32
  minInterval : Option UInt32
  trackerId : Option Bytes
  complete : Option UInt32
  incomplete : Option UInt32
  peers : List Peer
  deriving DecidableEq

namespace Response

/-- The text of a failure reason, which may be a value of any kind. -/
def failureText : Value → String
  | .bytes b => Utf8.decodeLossy b
  | v => Utf8.decodeLossy (encode v)

def word? (v : Value) : Option UInt32 := (v.natBelow? (Nat.pow 2 32)).map UInt32.ofNat

def ofDict (d : Dict Value) : Except Tracker.Error Response := do
  let entry (k : String) := d.get? (Bytes.ofText k)
  match entry "failure reason" with
  | some reason => .error (.failure (failureText reason))
  | none =>
    match (entry "interval").bind word? with
    | none => .error (.invalidResponse .missingInterval)
    | some interval => do
      let peers ← Peer.listOf4 (entry "peers")
      let peers6 ← Peer.listOf6 (entry "peers6")
      return {
        interval
        warning := (entry "warning message").bind Value.text?
        minInterval := (entry "min interval").bind word?
        trackerId := (entry "tracker id").bind Value.bytes?
        complete := (entry "complete").bind word?
        incomplete := (entry "incomplete").bind word?
        peers := peers ++ peers6 }

def ofBytes (data : Bytes) : Except Tracker.Error Response := do
  let v ← (decode data).mapError .bencode
  match v.dict? with
  | some d => ofDict d
  | none => .error (.invalidResponse .notDict)

/-- The addresses of the peers that are not host names. -/
def endpoints (r : Response) : List Endpoint := r.peers.filterMap Peer.endpoint?

end Response

end BitTorrent.Tracker
