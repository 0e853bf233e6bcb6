import BitTorrent.Bencode.Parser
import BitTorrent.Bencode.Printer
import BitTorrent.InfoHash
import BitTorrent.Log
import BitTorrent.Torrent.Info

/-! Torrent files. The info hash is taken over the bytes of the info dictionary as
they stand in the file, or over its encoding where there is no file. -/

namespace BitTorrent

open Bencode

/-- A torrent file that has been read and checked. -/
structure Torrent where
  root : Dict Value
  info : Torrent.Info
  infoHash : InfoHash
  rawInfo : Bytes
  announce : String
  announceList : List (List String)
  httpSeeds : List String
  nodes : List (String × UInt16)
  creationDate : Option Int64
  comment : Option String
  createdBy : Option String
  deriving DecidableEq

namespace Torrent

/-! ### Reading -/

/-- The elements that are text. -/
def texts (vs : List Value) : List String := vs.filterMap Value.text?

/-- A pair of a host and a port. -/
def node? : Value → Option (String × UInt16)
  | .list [host, port] => do
    let port ← port.natBelow? (Nat.pow 2 16)
    let host ← host.text?
    return (host, UInt16.ofNat port)
  | _ => none

/-- Tiers of trackers; tiers without any text are left out. -/
def tiers (vs : List Value) : List (List String) :=
  (vs.filterMap fun v => v.list?.map texts).filter (· ≠ [])

def ofRoot (root : Dict Value) (rawInfo : Bytes) : Except Torrent.Error Torrent := do
  let entry (k : String) := root.get? (Bytes.ofText k)
  let listAt (k : String) := ((entry k).bind Value.list?).getD []
  let announce ← orFlaw .missingAnnounce (((entry "announce").bind Value.text?).filter (· ≠ ""))
  let info ← infoOf (entry "info")
  return {
    root, info, rawInfo, announce
    infoHash := .ofInfo rawInfo
    announceList := tiers (listAt "announce-list")
    httpSeeds := texts (listAt "httpseeds")
    nodes := (listAt "nodes").filterMap node?
    creationDate := (entry "creation date").bind Value.integer?
    comment := (entry "comment").bind Value.text?
    createdBy := (entry "created by").bind Value.text? }

/-- Reads a torrent file from its bytes. -/
def ofBytes (data : Bytes) : Except Torrent.Error Torrent := do
  let v ← (decode data).mapError .bencode
  let root ← orFlaw .rootNotDict v.dict?
  let span ← (spanOf data (Bytes.ofText "info")).mapError .bencode
  let span ← orFlaw .missingInfo span
  ofRoot root (span.of data)

/-- Builds a torrent from a value that has been decoded already. -/
def ofValue (v : Value) : Except Torrent.Error Torrent := do
  let root ← orFlaw .rootNotDict v.dict?
  let info ← orFlaw .missingInfo (root.get? (Bytes.ofText "info"))
  ofRoot root (encode info)

/-! ### Writing -/

/-- The root dictionary with the piece hashes put together again. -/
def toValue (t : Torrent) : Value :=
  let info := ((t.root.get? (Bytes.ofText "info")).bind Value.dict?).getD .empty
  let hashes := t.info.pieces.flatMap Octets.toList
  let info := (info.insert (Bytes.ofText "pieces") (.bytes hashes)).2
  .dict (t.root.insert (Bytes.ofText "info") (.dict info)).2

def toBytes (t : Torrent) : Bytes := encode t.toValue

/-! ### What a torrent says -/

/-- The files of a torrent of many files. -/
def files (t : Torrent) : List File :=
  match t.info.layout with
  | .single _ => []
  | .multi files => files

/-- The length of a torrent of one file. -/
def length? (t : Torrent) : Option UInt64 :=
  match t.info.layout with
  | .single length => some length
  | .multi _ => none

/-- The announce URL and then the tiers in order, each tracker once. -/
def trackers (t : Torrent) : List String :=
  t.announceList.flatten.foldl (fun seen url => if url ∈ seen then seen else seen ++ [url])
    [t.announce]

/-! ### Files on disk -/

/-- Reads the torrent file at `path` from what reading the file gave, with the log of it. -/
def ofFile (path : String) (content : Except Fault Bytes) : Except Torrent.Error Torrent × Log :=
  match content with
  | .error f => (.error (.fault f), [])
  | .ok data =>
    match ofBytes data with
    | .ok t =>
      let hash := t.infoHash.hex
      (.ok t, .debug
        s!"Loaded torrent {t.info.name} ({t.info.pieceCount} pieces, info hash {hash}) from {path}")
    | .error e => (.error e, .warn s!"Failed to decode torrent file {path}: {e.message}")

end Torrent

end BitTorrent
