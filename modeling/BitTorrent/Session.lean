import BitTorrent.Torrent
import BitTorrent.Tracker.Client
import BitTorrent.Wire.Handshake
import BitTorrent.Wire.PeerState

/-! A torrent in use: what is announced for it, and the peers that the tracker names. -/

namespace BitTorrent.Torrent

open Tracker Wire

/-- The request that announces a torrent of which nothing has been fetched. -/
def request (t : Torrent) (peerId : PeerId) (event : Event) (compact : Bool) : Request :=
  (((Request.new t.infoHash peerId).set (.left t.info.totalLength)).set (.event event)).set
    (.compact compact)

/-- The announce URLs for all trackers of a torrent. -/
def announceUrls (t : Torrent) (r : Request) : List String :=
  t.trackers.map fun url => (r.url url).1

def handshake (t : Torrent) (peerId : PeerId) : Handshake := .new t.infoHash peerId

/-- The peers of a tracker's response, none of whose pieces are known yet. -/
def peers (t : Torrent) (torrent : Nat) (response : Response) : List PeerState :=
  response.endpoints.map fun e => .new torrent e t.info.pieceCount

/-- The number of bytes in the pieces that a peer has. -/
def bytesHeld (t : Torrent) (p : PeerState) : Nat :=
  p.pieces.toList.foldl (fun n i => n + ((t.info.pieceSize i).getD 0).toNat) 0

end BitTorrent.Torrent
