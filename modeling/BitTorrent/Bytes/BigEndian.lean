import BitTorrent.Bytes

/-! Numbers as fixed-width big-endian bytes. -/

namespace BitTorrent.BigEndian

/-- The low `w` bytes of a number, most significant first. -/
def encode : (w : Nat) → Nat → Bytes
  | 0, _ => []
  | w + 1, n => UInt8.ofNat (n / Nat.pow 256 w) :: encode w n

def decode (bs : Bytes) : Nat := bs.foldl (fun n b => 256 * n + b.toNat) 0

@[simp] theorem length_encode : ∀ (w n : Nat), (encode w n).length = w
  | 0, _ => rfl
  | w + 1, n => by simp [encode, length_encode w n]

end BitTorrent.BigEndian
