import BitTorrent.Bytes

/-! Bytes read as UTF-8. `decode?` accepts well-formed text only. `decodeLossy`
accepts anything and shows one replacement character for each longest piece that
begins a character but does not finish it, and for each byte that begins none. -/

namespace BitTorrent.Utf8

def decode? (bs : Bytes) : Option String := String.fromUTF8? ⟨bs.toArray⟩

/-- A character of which some bytes have been read: its bits so far, how many bytes
are missing, and where the next one must lie. -/
structure Begun where
  bits : Nat
  missing : Nat
  lo : UInt8
  hi : UInt8

def replacement : Char := Char.ofNat 0xfffd

/-- The first byte of a character: complete, begun, or no first byte. The range of the
second byte leaves out long forms, surrogates and what lies past the last code point. -/
def start (b : UInt8) : List Char × Option Begun :=
  if b < 0x80 then ([Char.ofNat b.toNat], none)
  else if b < 0xc2 then ([replacement], none)
  else if b < 0xe0 then ([], some ⟨b.toNat % 32, 1, 0x80, 0xbf⟩)
  else if b = 0xe0 then ([], some ⟨0, 2, 0xa0, 0xbf⟩)
  else if b = 0xed then ([], some ⟨13, 2, 0x80, 0x9f⟩)
  else if b < 0xf0 then ([], some ⟨b.toNat % 16, 2, 0x80, 0xbf⟩)
  else if b = 0xf0 then ([], some ⟨0, 3, 0x90, 0xbf⟩)
  else if b < 0xf4 then ([], some ⟨b.toNat % 8, 3, 0x80, 0xbf⟩)
  else if b = 0xf4 then ([], some ⟨4, 3, 0x80, 0x8f⟩)
  else ([replacement], none)

/-- One byte further: the characters that are now complete or given up. -/
def step : Option Begun → UInt8 → List Char × Option Begun
  | none, b => start b
  | some p, b =>
    if p.lo ≤ b ∧ b ≤ p.hi then
      let bits := 64 * p.bits + b.toNat % 64
      if p.missing = 1 then ([Char.ofNat bits], none)
      else ([], some ⟨bits, p.missing - 1, 0x80, 0xbf⟩)
    else
      let (cs, next) := start b
      (replacement :: cs, next)

def lossyChars : Option Begun → Bytes → List Char
  | none, [] => []
  | some _, [] => [replacement]
  | p, b :: bs =>
    let (cs, next) := step p b
    cs ++ lossyChars next bs

def decodeLossy (bs : Bytes) : String := String.ofList (lossyChars none bs)

end BitTorrent.Utf8
