import BitTorrent.Session
import BitTorrent.Wire.Connection
import BitTorrent.Proofs.Except
import BitTorrent.Proofs.Text.Utf8
import BitTorrent.Proofs.Bencode.Value
import BitTorrent.Proofs.Bencode.Grammar
import BitTorrent.Proofs.Bencode.Token
import BitTorrent.Proofs.Bencode.Extent
import BitTorrent.Proofs.Bencode.Parser
import BitTorrent.Proofs.Bencode.Acceptance
import BitTorrent.Proofs.Bencode.Dict
import BitTorrent.Proofs.Bencode.Edits
import BitTorrent.Proofs.Bencode.RoundTrip
import BitTorrent.Proofs.Bencode.Span
import BitTorrent.Proofs.Bencode.Canonical
import BitTorrent.Proofs.Bencode.Lookup
import BitTorrent.Proofs.Bencode.Locality
import BitTorrent.Proofs.Bencode.Delimiting
import BitTorrent.Proofs.Bencode.Offsets
import BitTorrent.Proofs.Bencode.Closed
import BitTorrent.Proofs.Bencode.Reading
import BitTorrent.Proofs.Bencode.Errors
import BitTorrent.Proofs.Bencode.Skipping
import BitTorrent.Proofs.Bencode.Limits
import BitTorrent.Proofs.Bencode.Kinds
import BitTorrent.Proofs.Bencode.ByOffset.Run
import BitTorrent.Proofs.Bencode.ByOffset.Token
import BitTorrent.Proofs.Bencode.ByOffset.Closing
import BitTorrent.Proofs.Bencode.ByOffset.Span
import BitTorrent.Proofs.Bencode.ByOffset.Inside
import BitTorrent.Proofs.Bencode.ByOffset.Element
import BitTorrent.Proofs.Bencode.ByOffset.Container
import BitTorrent.Proofs.Bencode.ByOffset.Reading
import BitTorrent.Proofs.Torrent.InfoBytes
import BitTorrent.Proofs.Torrent.Files
import BitTorrent.Proofs.Torrent.Acceptance
import BitTorrent.Proofs.Torrent.Agreement
import BitTorrent.Proofs.Torrent.Saving
import BitTorrent.Proofs.Torrent.Trackers
import BitTorrent.Proofs.Torrent.Tiling
import BitTorrent.Proofs.Torrent.PieceSizes
import BitTorrent.Proofs.Path
import BitTorrent.Proofs.Torrent.Containment
import BitTorrent.Proofs.Bytes.BigEndian
import BitTorrent.Proofs.Bytes.Percent
import BitTorrent.Proofs.Bytes.Hex
import BitTorrent.Proofs.InfoHash
import BitTorrent.Proofs.Address.Number
import BitTorrent.Proofs.Address.Text
import BitTorrent.Proofs.Tracker.Freshness
import BitTorrent.Proofs.Tracker.Query
import BitTorrent.Proofs.Tracker.Url
import BitTorrent.Proofs.Tracker.PeerList
import BitTorrent.Proofs.Tracker.Verdict
import BitTorrent.Proofs.Tracker.Endpoints
import BitTorrent.Proofs.Wire.Packing
import BitTorrent.Proofs.Wire.Message
import BitTorrent.Proofs.Wire.Frame
import BitTorrent.Proofs.Wire.Codec
import BitTorrent.Proofs.Wire.Framing
import BitTorrent.Proofs.Wire.Chunks
import BitTorrent.Proofs.Wire.Connection
import BitTorrent.Proofs.Wire.Reception
import BitTorrent.Proofs.Wire.Link
import BitTorrent.Proofs.Wire.Delivery
import BitTorrent.Proofs.Wire.Sending
import BitTorrent.Proofs.Wire.PieceSet
import BitTorrent.Proofs.Wire.History
import BitTorrent.Proofs.Wire.Bitfield
