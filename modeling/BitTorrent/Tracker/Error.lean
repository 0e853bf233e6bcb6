import BitTorrent.Bencode.Error

/-! What can go wrong with an announce, and how it is told. -/

namespace BitTorrent.Tracker

/-- What is wrong with one peer of a list of dictionaries. -/
inductive EntryFlaw where
  | notDict
  | missingIp
  | badPort
  deriving DecidableEq, Repr

def EntryFlaw.message : EntryFlaw → String
  | .notDict => "not a dictionary"
  | .missingIp => "missing ip"
  | .badPort => "missing or invalid port"

inductive PeerListFlaw where
  | wrongKind
  | wrongKind6
  | compactSize (size : Nat)
  | compactSize6 (size : Nat)
  | entry (index : Nat) (flaw : EntryFlaw)
  deriving DecidableEq, Repr

def PeerListFlaw.message : PeerListFlaw → String
  | .wrongKind => "peers is neither a list nor a string"
  | .wrongKind6 => "peers6 is not a string"
  | .compactSize size => s!"compact peers length {size} is not a multiple of 6"
  | .compactSize6 size => s!"compact peers6 length {size} is not a multiple of 18"
  | .entry index flaw => s!"peer {index}: {flaw.message}"

inductive ResponseFlaw where
  | notDict
  | missingInterval
  deriving DecidableEq, Repr

def ResponseFlaw.message : ResponseFlaw → String
  | .notDict => "expected dict"
  | .missingInterval => "missing interval"

inductive Error where
  | bencode (e : Bencode.Error)
  /-- The exchange could not be made or did not end in an answer. -/
  | http
  | httpStatus (code : UInt16)
  /-- The tracker refused, with this reason. -/
  | failure (reason : String)
  | malformedPeerList (flaw : PeerListFlaw)
  | invalidResponse (flaw : ResponseFlaw)
  | invalidUrl (url : String)
  deriving DecidableEq

def Error.message : Error → String
  | .bencode e => "bencode error: " ++ e.message
  | .http => "http error"
  | .httpStatus code => s!"tracker responded with http status {code.toNat}"
  | .failure reason => "tracker returned error: " ++ reason
  | .malformedPeerList flaw => "malformed peer list: " ++ flaw.message
  | .invalidResponse flaw => "invalid response: " ++ flaw.message
  | .invalidUrl url => "invalid url: " ++ url

end BitTorrent.Tracker
