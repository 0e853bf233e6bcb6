import BitTorrent.Bencode.Value
import BitTorrent.Path
import BitTorrent.Torrent.Error

/-! The info dictionary: name, pieces and files of a torrent. Reading one checks its
entries in a fixed order and answers the first flaw. -/

namespace BitTorrent.Torrent

open Bencode

/-- A file of a torrent of many files. -/
structure File where
  path : List String
  length : UInt64
  /-- Where the file begins in the data of all files in order. -/
  offset : UInt64
  deriving DecidableEq

def File.pathIn (f : File) (root : String) : String := Path.join (root :: f.path)

inductive Layout where
  | single (length : UInt64)
  | multi (files : List File)
  deriving DecidableEq

structure Info where
  name : String
  pieceLength : UInt64
  pieces : List (Octets 20)
  layout : Layout
  isPrivate : Bool
  deriving DecidableEq

namespace Info

def totalLength (info : Info) : UInt64 :=
  match info.layout with
  | .single length => length
  | .multi files => files.foldl (fun n f => n + f.length) 0

def pieceCount (info : Info) : Nat := info.pieces.length

/-- The product of two words, or the largest word if it is larger. -/
def boundedMul (a b : UInt64) : UInt64 := UInt64.ofNat (min (a.toNat * b.toNat) (Nat.pow 2 64 - 1))

/-- The difference of two words, or zero if it is negative. -/
def boundedSub (a b : UInt64) : UInt64 := UInt64.ofNat (a.toNat - b.toNat)

/-- The size of a piece. All have the piece length but the last, which has the rest of the
total length. -/
def pieceSize (info : Info) (index : Nat) : Option UInt64 :=
  let count := info.pieceCount
  if count ≤ index then none
  else if index + 1 < count then some info.pieceLength
  else
    let before := boundedMul (UInt64.ofNat (count - 1)) info.pieceLength
    some (boundedSub info.totalLength before)

end Info

/-! ### Reading the info dictionary -/

def orFlaw {α : Type} (f : Flaw) : Option α → Except Error α
  | some a => .ok a
  | none => .error (.invalid f)

/-- An integer that is not negative, as a word. -/
def word? (v : Value) : Option UInt64 := (v.natBelow? (Nat.pow 2 63)).map UInt64.ofNat

/-- The sum of two words, if it is a word. -/
def checkedAdd? (a b : UInt64) : Option UInt64 :=
  if a.toNat + b.toNat < Nat.pow 2 64 then some (a + b) else none

/-- The segments of a file's path: at least one, all of them text. -/
def pathOf (segments : List Value) : Except Error (List String) :=
  orFlaw .badFilePath ((segments.mapM Value.text?).filter (· ≠ []))

/-- A file that begins at `offset`. -/
def fileOf (offset : UInt64) (entry : Value) : Except Error File := do
  let d ← orFlaw .fileNotDict entry.dict?
  let length ← orFlaw .missingFileLength (d.get? (Bytes.ofText "length"))
  let length ← orFlaw .negativeFileLength (word? length)
  let segments ← orFlaw .missingFilePath ((d.get? (Bytes.ofText "path")).bind Value.list?)
  let path ← pathOf segments
  return ⟨path, length, offset⟩

/-- Files one after another from `offset` on. -/
def filesFrom (offset : UInt64) : List Value → Except Error (List File)
  | [] => .ok []
  | entry :: rest => do
    let file ← fileOf offset entry
    let next ← orFlaw .totalOverflow (checkedAdd? offset file.length)
    let files ← filesFrom next rest
    return file :: files

def filesOf (v : Value) : Except Error (List File) := do
  let entries ← orFlaw .filesNotList v.list?
  if entries.isEmpty then .error (.invalid .noFiles) else filesFrom 0 entries

def layoutOf (d : Dict Value) : Except Error Layout :=
  match d.get? (Bytes.ofText "length"), d.get? (Bytes.ofText "files") with
  | some length, none => Layout.single <$> orFlaw .negativeLength (word? length)
  | none, some files => Layout.multi <$> filesOf files
  | some _, some _ => .error (.invalid .lengthAndFiles)
  | none, none => .error (.invalid .neitherLengthNorFiles)

def piecesOf (hashes : Bytes) : Except Error (List (Octets 20)) :=
  if hashes.length % 20 = 0 then .ok (records 19 hashes)
  else .error (.corruptPieceList hashes.length)

/-- The info dictionary of a torrent; there may be none, or a value of another kind. -/
def infoOf (v : Option Value) : Except Error Info := do
  let v ← orFlaw .missingInfo v
  let d ← orFlaw .infoNotDict v.dict?
  let name ← orFlaw .missingName ((d.get? (Bytes.ofText "name")).bind Value.text?)
  let pieceLength ← orFlaw .pieceLengthNotPositive
    (((d.get? (Bytes.ofText "piece length")).bind word?).filter (· ≠ 0))
  let hashes ← orFlaw .missingPieces ((d.get? (Bytes.ofText "pieces")).bind Value.bytes?)
  let pieces ← piecesOf hashes
  let isPrivate := (d.get? (Bytes.ofText "private")).bind Value.integer? == some 1
  let layout ← layoutOf d
  return ⟨name, pieceLength, pieces, layout, isPrivate⟩

end BitTorrent.Torrent
