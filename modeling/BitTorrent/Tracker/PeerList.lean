import BitTorrent.Address.Text
import BitTorrent.Bencode.Value
import BitTorrent.Tracker.Error

/-! Peers as a tracker names them. A list of peers is a bencoded list of dictionaries
or a compact string of records; a record is an address and a port in network order. -/

namespace BitTorrent.Tracker

open Bencode

structure Peer where
  /-- The peer's id, where the tracker gives one. -/
  id : Option Bytes
  /-- An address, or a host name as the tracker sent it. -/
  ip : String
  port : UInt16
  deriving DecidableEq

namespace Peer

/-- The peer's address and port, unless it is named by a host name. -/
def endpoint? (p : Peer) : Option Endpoint := (Address.ofText? p.ip).map (⟨·, p.port⟩)

/-! ### Compact lists -/

def ofAddress (a : Address) (port : Bytes) : Peer :=
  ⟨none, a.text, UInt16.ofNat (BigEndian.decode port)⟩

section Compact

variable {n : Nat} (family : Octets n → Address)

/-- The peer of a record, which is an address of this family and a port. -/
def ofRecord (r : Octets (n + 2)) : Peer :=
  ofAddress (family (.slice n 0 r.toList (by simp [r.length_toList]))) (r.toList.drop n)

/-- Reads a record; there is none unless the size is right. -/
def ofBytes? (bs : Bytes) : Option Peer := (Octets.ofBytes? (n + 2) bs).map (ofRecord family)

/-- Reads the records of a list one by one. Those that are not read are left out. -/
def listOfBytes (flaw : Nat → PeerListFlaw) (data : Bytes) : Except Error (List Peer) :=
  if data.length % (n + 2) = 0 then
    .ok ((records (n + 1) data).filterMap fun r => ofBytes? family r.toList)
  else .error (.malformedPeerList (flaw data.length))

end Compact

def ofBytes4? : Bytes → Option Peer := ofBytes? .v4

def ofBytes6? : Bytes → Option Peer := ofBytes? .v6

def listOfBytes4 : Bytes → Except Error (List Peer) := listOfBytes .v4 .compactSize

def listOfBytes6 : Bytes → Except Error (List Peer) := listOfBytes .v6 .compactSize6

/-! ### Lists of dictionaries -/

def ofValue (v : Value) : Except EntryFlaw Peer :=
  match v.dict? with
  | none => .error .notDict
  | some d =>
    match (d.get? (Bytes.ofText "ip")).bind Value.text? with
    | none => .error .missingIp
    | some ip =>
      match (d.get? (Bytes.ofText "port")).bind (Value.natBelow? (Nat.pow 2 16)) with
      | none => .error .badPort
      | some port =>
        .ok ⟨(d.get? (Bytes.ofText "peer id")).bind Value.bytes?, ip, UInt16.ofNat port⟩

/-- Peers of a list, the first of which has this index. -/
def listFrom (index : Nat) : List Value → Except Error (List Peer)
  | [] => .ok []
  | v :: vs => do
    let p ← (ofValue v).mapError fun f => .malformedPeerList (.entry index f)
    let ps ← listFrom (index + 1) vs
    return p :: ps

/-! ### Either form -/

/-- The list under `peers`; without one there are no peers. -/
def listOf4 : Option Value → Except Error (List Peer)
  | none => .ok []
  | some (.bytes b) => listOfBytes4 b
  | some (.list vs) => listFrom 0 vs
  | some _ => .error (.malformedPeerList .wrongKind)

/-- The list under `peers6`, which is always compact. -/
def listOf6 : Option Value → Except Error (List Peer)
  | none => .ok []
  | some (.bytes b) => listOfBytes6 b
  | some _ => .error (.malformedPeerList .wrongKind6)

end Peer

end BitTorrent.Tracker
