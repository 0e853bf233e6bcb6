import BitTorrent.Address.Text
import BitTorrent.Bytes.Decimal
import BitTorrent.Bytes.Percent
import BitTorrent.InfoHash
import BitTorrent.PeerId

/-! The announce request and its query. A request keeps the query once it has been
built; setting a field drops it. -/

namespace BitTorrent.Tracker

inductive Event where
  | none
  | started
  | stopped
  | completed
  deriving DecidableEq, Repr

/-- The event as it stands in a query. -/
def Event.text : Event → String
  | .none => ""
  | .started => "started"
  | .stopped => "stopped"
  | .completed => "completed"

def Event.name : Event → String
  | .none => "None"
  | .started => "Started"
  | .stopped => "Stopped"
  | .completed => "Completed"

/-! ### What is announced -/

structure Announce where
  infoHash : InfoHash
  peerId : PeerId
  ip : Option Address
  port : UInt16
  uploaded : UInt64
  downloaded : UInt64
  left : UInt64
  event : Event
  compact : Bool
  noPeerId : Bool
  numWant : Int32
  deriving DecidableEq

namespace Announce

def initial (infoHash : InfoHash) (peerId : PeerId) : Announce where
  infoHash := infoHash
  peerId := peerId
  ip := Option.none
  port := Parameters.defaultPort
  uploaded := 0
  downloaded := 0
  left := 0
  event := .none
  compact := false
  noPeerId := false
  numWant := Parameters.defaultNumWant

/-- The parameters of the query in order, with their raw values. The address and the event are
left out when there is none, the last three when they have their defaults. -/
def parameters (a : Announce) : List (String × Bytes) :=
  [("info_hash", a.infoHash.bytes), ("peer_id", a.peerId.bytes),
    ("port", Decimal.ofNat a.port.toNat), ("uploaded", Decimal.ofNat a.uploaded.toNat),
    ("downloaded", Decimal.ofNat a.downloaded.toNat), ("left", Decimal.ofNat a.left.toNat)] ++
  (a.ip.toList.map fun ip => ("ip", Bytes.ofText ip.text)) ++
  (if a.event = .none then [] else [("event", Bytes.ofText a.event.text)]) ++
  (if a.compact then [("compact", Decimal.ofNat 1)] else []) ++
  (if a.noPeerId then [("no_peer_id", Decimal.ofNat 1)] else []) ++
  (if a.numWant = Parameters.defaultNumWant then []
    else [("numwant", Decimal.ofInt a.numWant.toInt)])

def query (a : Announce) : String :=
  "&".intercalate (a.parameters.map fun p => p.1 ++ "=" ++ Percent.encode p.2)

end Announce

/-- One field set to a value. -/
inductive Change where
  | infoHash (x : InfoHash)
  | peerId (x : PeerId)
  | ip (x : Option Address)
  | port (x : UInt16)
  | uploaded (x : UInt64)
  | downloaded (x : UInt64)
  | left (x : UInt64)
  | event (x : Event)
  | compact (x : Bool)
  | noPeerId (x : Bool)
  | numWant (x : Int32)
  deriving DecidableEq

def Change.apply (a : Announce) : Change → Announce
  | .infoHash x => { a with infoHash := x }
  | .peerId x => { a with peerId := x }
  | .ip x => { a with ip := x }
  | .port x => { a with port := x }
  | .uploaded x => { a with uploaded := x }
  | .downloaded x => { a with downloaded := x }
  | .left x => { a with left := x }
  | .event x => { a with event := x }
  | .compact x => { a with compact := x }
  | .noPeerId x => { a with noPeerId := x }
  | .numWant x => { a with numWant := x }

/-! ### Requests -/

structure Request where
  announce : Announce
  /-- The query, if it has been built since the last change. -/
  kept : Option String
  deriving DecidableEq

namespace Request

def new (infoHash : InfoHash) (peerId : PeerId) : Request :=
  ⟨.initial infoHash peerId, Option.none⟩

def set (r : Request) (c : Change) : Request := ⟨c.apply r.announce, Option.none⟩

/-- The query and the request that keeps it. -/
def query (r : Request) : String × Request :=
  match r.kept with
  | some q => (q, r)
  | Option.none => (r.announce.query, { r with kept := some r.announce.query })

/-- The query after an announce URL, which may have a query of its own. -/
def url (r : Request) (base : String) : String × Request :=
  let (q, r) := r.query
  (base ++ (if '?' ∈ base.toList then "&" else "?") ++ q, r)

end Request

end BitTorrent.Tracker
