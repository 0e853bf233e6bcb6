import BitTorrent.Address.Basic
import BitTorrent.Bytes.BigEndian
import BitTorrent.Bytes.Hex

/-! The text of addresses. An IPv4 address is four decimal numbers, an IPv6 address
up to eight hexadecimal groups, where `::` stands for a run of zero groups and the
last two groups may be written as an IPv4 address. Writing chooses the longest run
of at least two zero groups, the first one on ties. -/

namespace BitTorrent.Address

/-! ### Writing -/

def joinWith (separator : Char) (parts : List (List Char)) : List Char :=
  [separator].intercalate parts

def quadText (octets : Bytes) : List Char :=
  joinWith '.' (octets.map fun b => Nat.toDigits 10 b.toNat)

/-- The 16-bit groups of the bytes of an IPv6 address. -/
def groups : Bytes → List Nat
  | a :: b :: rest => (256 * a.toNat + b.toNat) :: groups rest
  | _ => []

def groupsText (gs : List Nat) : List Char := joinWith ':' (gs.map (Nat.toDigits 16))

/-- The number of zero groups at the head. -/
def zerosAtHead (gs : List Nat) : Nat := (gs.takeWhile (· = 0)).length

/-- Where the longest run of zero groups begins, and its length. -/
def longestZeroRun (gs : List Nat) : Nat × Nat :=
  (List.range gs.length).foldl (fun best i =>
    let n := zerosAtHead (gs.drop i)
    if best.2 < n then (i, n) else best) (0, 0)

/-- An IPv4 address within IPv6 has ten zero bytes and two `0xff` in front. -/
def mappedPrefix : Bytes := List.replicate 10 0 ++ [0xff, 0xff]

def v6Text (octets : Bytes) : List Char :=
  if octets.take 12 = mappedPrefix then "::ffff:".toList ++ quadText (octets.drop 12)
  else
    let gs := groups octets
    let (start, n) := longestZeroRun gs
    if 1 < n then groupsText (gs.take start) ++ ':' :: ':' :: groupsText (gs.drop (start + n))
    else groupsText gs

def chars : Address → List Char
  | .v4 o => quadText o.toList
  | .v6 o => v6Text o.toList

def text (a : Address) : String := String.ofList a.chars

/-! ### Reading

Each reader takes characters and answers what it read with what follows. -/

/-- The digits at the head, by their values. -/
def digitRun (base : Nat) : List Char → List Nat × List Char
  | [] => ([], [])
  | c :: cs =>
    match Hex.digitValue? c with
    | some d =>
      if d < base then
        let (ds, rest) := digitRun base cs
        (d :: ds, rest)
      else ([], c :: cs)
    | none => ([], c :: cs)

/-- The number that digits write, the most significant first. -/
def ofDigits (base : Nat) (ds : List Nat) : Nat := ds.foldl (fun n d => base * n + d) 0

/-- A group of one to four hexadecimal digits. -/
def group? (cs : List Char) : Option (Nat × List Char) :=
  let (ds, rest) := digitRun 16 cs
  if 1 ≤ ds.length ∧ ds.length ≤ 4 then some (ofDigits 16 ds, rest) else none

/-- A decimal number of one to three digits, without a leading zero and up to 255. -/
def byte? (cs : List Char) : Option (UInt8 × List Char) :=
  let (ds, rest) := digitRun 10 cs
  let n := ofDigits 10 ds
  if 1 ≤ ds.length ∧ ds.length ≤ 3 ∧ (ds.head? = some 0 → ds.length = 1) ∧ n < 256 then
    some (UInt8.ofNat n, rest)
  else none

def given? (c : Char) : List Char → Option (List Char)
  | [] => none
  | d :: cs => if d = c then some cs else none

def quad? (cs : List Char) : Option (Octets 4 × List Char) := do
  let (a, cs) ← byte? cs
  let (b, cs) ← byte? (← given? '.' cs)
  let (c, cs) ← byte? (← given? '.' cs)
  let (d, cs) ← byte? (← given? '.' cs)
  return (⟨[a, b, c, d], rfl⟩, cs)

/-- The bytes of a run of groups, whether an IPv4 address ended it, and what follows. -/
structure Groups where
  bytes : Bytes
  endsInQuad : Bool
  rest : List Char

/-- At most `limit` groups, each but the first after a colon. An IPv4 address counts as two
groups and ends the run. -/
def groups? (first : Bool) : (limit : Nat) → List Char → Groups
  | 0, cs => ⟨[], false, cs⟩
  | limit + 1, cs =>
    match if first then some cs else given? ':' cs with
    | none => ⟨[], false, cs⟩
    | some after =>
      match if limit = 0 then none else quad? after with
      | some (q, rest) => ⟨q.toList, true, rest⟩
      | none =>
        match group? after with
        | none => ⟨[], false, cs⟩
        | some (g, rest) =>
          let more := groups? false limit rest
          ⟨BigEndian.encode 2 g ++ more.bytes, more.endsInQuad, more.rest⟩

/-- Sixteen bytes of an IPv6 address: eight groups, or fewer around a `::`. -/
def v6? (cs : List Char) : Option (Bytes × List Char) :=
  let front := groups? true 8 cs
  if front.bytes.length = 16 then some (front.bytes, front.rest)
  else if front.endsInQuad then none
  else do
    let rest ← given? ':' (← given? ':' front.rest)
    let back := groups? true (7 - front.bytes.length / 2) rest
    let zeros := List.replicate (16 - front.bytes.length - back.bytes.length) 0
    return (front.bytes ++ zeros ++ back.bytes, back.rest)

/-- The address that a text is, all of it. -/
def ofChars? (cs : List Char) : Option Address :=
  match quad? cs with
  | some (o, rest) => if rest = [] then some (.v4 o) else none
  | none =>
    match v6? cs with
    | some (bs, []) => (Octets.ofBytes? 16 bs).map .v6
    | _ => none

def ofText? (s : String) : Option Address := ofChars? s.toList

end Address

/-- The address and the port; an IPv6 address stands in brackets. -/
def Endpoint.text (e : Endpoint) : String :=
  match e.address with
  | .v4 _ => e.address.text ++ ":" ++ toString e.port.toNat
  | .v6 _ => "[" ++ e.address.text ++ "]:" ++ toString e.port.toNat

end BitTorrent
