import BitTorrent.Bencode.Error

/-! What can be wrong with a torrent file, and how it is told. -/

namespace BitTorrent.Torrent

/-- A required entry that is missing or has the wrong shape. -/
inductive Flaw where
  | rootNotDict
  | missingAnnounce
  | missingInfo
  | infoNotDict
  | missingName
  | pieceLengthNotPositive
  | missingPieces
  | negativeLength
  | lengthAndFiles
  | neitherLengthNorFiles
  | filesNotList
  | noFiles
  | fileNotDict
  | missingFileLength
  | negativeFileLength
  | missingFilePath
  | badFilePath
  | totalOverflow
  deriving DecidableEq, Repr

def Flaw.message : Flaw → String
  | .rootNotDict => "root is not a dictionary"
  | .missingAnnounce => "missing or empty announce"
  | .missingInfo => "missing info"
  | .infoNotDict => "info is not a dictionary"
  | .missingName => "missing name"
  | .pieceLengthNotPositive => "piece length must be a positive integer"
  | .missingPieces => "missing pieces"
  | .negativeLength => "length must be a non-negative integer"
  | .lengthAndFiles => "both length and files present"
  | .neitherLengthNorFiles => "missing length or files"
  | .filesNotList => "files is not a list"
  | .noFiles => "files is empty"
  | .fileNotDict => "file entry is not a dictionary"
  | .missingFileLength => "missing file length"
  | .negativeFileLength => "file length must be a non-negative integer"
  | .missingFilePath => "missing file path"
  | .badFilePath => "file path must be a non-empty list of strings"
  | .totalOverflow => "total length overflows"

inductive Error where
  | bencode (e : Bencode.Error)
  | invalid (f : Flaw)
  | corruptPieceList (size : Nat)
  | invalidInfoHash
  | fault (f : Fault)
  deriving DecidableEq

def Error.message : Error → String
  | .bencode e => "bencode error: " ++ e.message
  | .invalid f => "invalid metainfo: " ++ f.message
  | .corruptPieceList size => s!"corrupt piece list: {size} bytes is not a multiple of 20"
  | .invalidInfoHash => "invalid info hash"
  | .fault f => "io error: " ++ f.message

end BitTorrent.Torrent
