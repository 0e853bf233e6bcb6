import BitTorrent.Bytes.BigEndian

/-! The SHA-1 digest. -/

namespace BitTorrent.Sha1

structure State where
  a : UInt32
  b : UInt32
  c : UInt32
  d : UInt32
  e : UInt32

def initial : State := ⟨0x67452301, 0xefcdab89, 0x98badcfe, 0x10325476, 0xc3d2e1f0⟩

/-- The data, a one bit, zeros up to a whole number of 64-byte blocks, and the length in bits
as the last eight bytes. -/
def pad (data : Bytes) : Bytes :=
  let n := data.length
  data ++ 0x80 :: List.replicate ((119 - n % 64) % 64) 0 ++ BigEndian.encode 8 (8 * n)

def rotate (x : UInt32) (n : UInt32) : UInt32 := (x <<< n) ||| (x >>> (32 - n))

def words (block : Bytes) : List UInt32 :=
  (records 3 block).map fun r => UInt32.ofNat (BigEndian.decode r.toList)

/-- The mixing function and the constant of a round. -/
def mix (round : Nat) (s : State) : UInt32 × UInt32 :=
  if round < 20 then ((s.b &&& s.c) ||| (~~~s.b &&& s.d), 0x5a827999)
  else if round < 40 then (s.b ^^^ s.c ^^^ s.d, 0x6ed9eba1)
  else if round < 60 then ((s.b &&& s.c) ||| (s.b &&& s.d) ||| (s.c &&& s.d), 0x8f1bbcdc)
  else (s.b ^^^ s.c ^^^ s.d, 0xca62c1d6)

/-- One round on the sixteen words that come next in the schedule. -/
def round (acc : List UInt32 × State) (t : Nat) : List UInt32 × State :=
  let (window, s) := acc
  let w i := window.getD i 0
  let (f, k) := mix t s
  let next := rotate (w 13 ^^^ w 8 ^^^ w 2 ^^^ w 0) 1
  (window.tail ++ [next], ⟨rotate s.a 5 + f + s.e + k + w 0, s.a, rotate s.b 30, s.c, s.d⟩)

def compress (s : State) (block : Bytes) : State :=
  let t := ((List.range 80).foldl round (words block, s)).2
  ⟨s.a + t.a, s.b + t.b, s.c + t.c, s.d + t.d, s.e + t.e⟩

def State.toOctets (s : State) : Octets 20 :=
  ⟨[s.a, s.b, s.c, s.d, s.e].flatMap fun w => BigEndian.encode 4 w.toNat, by simp⟩

def digest (data : Bytes) : Octets 20 :=
  ((records 63 (pad data)).foldl (fun s block => compress s block.toList) initial).toOctets

/-- The test vector of the standard that is padded to two blocks. -/
example :
    (digest (Bytes.ofText "abcdbcdecdefdefgefghfghighijhijkijkljklmklmnlmnomnopnopq")).toList =
      [0x84, 0x98, 0x3e, 0x44, 0x1c, 0x3b, 0xd2, 0x6e, 0xba, 0xae, 0x4a, 0xa1, 0xf9, 0x51, 0x29,
        0xe5, 0xe5, 0x46, 0x70, 0xf1] := by
  decide +kernel

end BitTorrent.Sha1
