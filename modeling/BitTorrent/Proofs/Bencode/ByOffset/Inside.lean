import BitTorrent.Proofs.Bencode.ByOffset.Token

/-! Places inside of a container. The bracket scan has passed over everything between such a place
and the closing byte, so the element there is cut off what is left before that byte, and behind it
is such a place again. -/

namespace BitTorrent.Bencode.ByOffset

variable {data : Bytes} {depth k pos stop : Nat}

/-! ### The bytes up to the closing one -/

/-- The bytes from `pos` up to and including the one at `stop`. -/
def within (data : Bytes) (pos stop : Nat) : Bytes := (data.drop pos).take (stop + 1 - pos)

theorem length_within (pos : Nat) {stop : Nat} (hstop : stop < data.length) :
    (within data pos stop).length = stop + 1 - pos := by
  rw [within, List.length_take, List.length_drop]
  omega

theorem drop_within (pos stop n : Nat) :
    (within data pos stop).drop n = within data (pos + n) stop := by
  rw [within, within, List.drop_take, List.drop_drop, Nat.sub_sub]

theorem drop_within_succ (data : Bytes) (pos stop n : Nat) :
    (within data (pos + 1) stop).drop n = within data (pos + n + 1) stop := by
  rw [drop_within, Nat.add_right_comm]

theorem within_eq_cons {pos stop : Nat} {b : UInt8} (hget : data[pos]? = some b)
    (hle : pos ≤ stop) :
    within data pos stop = b :: within data (pos + 1) stop := by
  have hlen : stop + 1 - pos = (stop - pos) + 1 := by omega
  rw [within, within, drop_of_getElem? hget, hlen, List.take_succ_cons, Nat.add_sub_add_right]

theorem take_within (data : Bytes) {pos stop n : Nat} (h : pos + n ≤ stop) :
    (within data pos stop).take (n + 1) = within data pos (pos + n) := by
  have hlen : min (n + 1) (stop + 1 - pos) = pos + n + 1 - pos := by omega
  rw [within, within, List.take_take, hlen]

theorem drop_eq_within_append {pos stop : Nat} (h : pos ≤ stop + 1) :
    data.drop pos = within data pos stop ++ data.drop (stop + 1) := by
  have hlen : pos + (stop + 1 - pos) = stop + 1 := by omega
  rw [within, ← hlen, ← List.drop_drop, hlen, List.take_append_drop]

/-! ### Places -/

/-- A place in the container that closes at `stop`, with `depth` containers around that one. -/
structure Inside (data : Bytes) (depth pos stop : Nat) : Prop where
  closed : Closed pos (within data pos stop)
  stop_lt : stop < data.length
  depth_lt : depth < pos

namespace Inside

theorem le_stop (h : Inside data depth pos stop) : pos ≤ stop := by
  have hlen := List.length_pos_iff.mpr h.closed.ne_nil
  rw [length_within pos h.stop_lt] at hlen
  omega

theorem exists_head (h : Inside data depth pos stop) : ∃ b, data[pos]? = some b ∧
    within data pos stop = b :: within data (pos + 1) stop := by
  have hlt : pos < data.length := Nat.lt_of_le_of_lt h.le_stop h.stop_lt
  have hget := List.getElem?_eq_getElem hlt
  exact ⟨_, hget, within_eq_cons hget h.le_stop⟩

/-- At the end of the loop only the closing byte is left. -/
theorem exists_last (h : Inside data depth stop stop) : ∃ b, within data stop stop = [b] := by
  rw [← List.length_eq_one_iff, length_within stop h.stop_lt]
  omega

end Inside

/-- Behind the opening bracket begins the inside of a container. -/
theorem inside_of_closingAt {depth start stop : Nat} {b : UInt8} (hget : data[start]? = some b)
    (hclosing : closingAt data start = .ok stop) (hdepth : depth ≤ start) :
    Inside data depth (start + 1) stop := by
  obtain ⟨hstart, hstop, -⟩ := exists_of_closingAt hclosing
  have hlen := length_within (start + 1) hstop
  rw [closingAt, drop_of_getElem? hget] at hclosing
  obtain ⟨c, tail, hcons, -, hrun⟩ := closing_eq_ok_iff.mp hclosing
  cases hcons
  have hwithin := Scan.run_of_isPrefix hrun (List.take_prefix (stop + 1 - (start + 1)) _)
  rw [← within, if_pos (by omega)] at hwithin
  exact ⟨⟨stop, hwithin, by omega⟩, hstop, Nat.lt_succ_of_le hdepth⟩

/-! ### Elements -/

/-- The element at `pos` as its exact bytes are read, and the offset after it. -/
def elementIn (data : Bytes) (k pos stop : Nat) : Except Error (Value × Nat) := do
  let n ← elementTail pos (within data pos stop)
  let v ← value k pos (within data pos (pos + n))
  return (v, pos + n + 1)

theorem of_elementIn (h : Inside data depth pos stop) {v : Value} {next : Nat}
    (he : elementIn data k pos stop = .ok (v, next)) :
    pos < next ∧ next ≤ stop ∧ Inside data depth next stop := by
  obtain ⟨b, hget, hbody⟩ := h.exists_head
  obtain ⟨n, hn, he⟩ := bind_eq_ok_iff.mp he
  obtain ⟨v', hv, he⟩ := bind_eq_ok_iff.mp he
  cases he
  have hclosed := h.closed
  have hlen := length_within (pos + 1) h.stop_lt
  have hdepth := h.depth_lt
  rw [hbody] at hn hclosed
  obtain ⟨hlt, -⟩ := of_elementTail hn
  have htake : b :: (within data (pos + 1) stop).take n = within data pos (pos + n) := by
    rw [← take_within data (show _ ≤ stop by omega), hbody, List.take_succ_cons]
  rw [← htake] at hv
  obtain ⟨t, -, -, hrest⟩ := hclosed.after_element hn hv
  rw [drop_within_succ] at hrest
  exact ⟨by omega, by omega, hrest, h.stop_lt, by omega⟩

/-- The exact bytes of the element are cut off the body at its head. -/
theorem elementIn_eq (h : Inside data depth pos stop) {b : UInt8}
    (hbody : within data pos stop = b :: within data (pos + 1) stop) :
    elementIn data k pos stop = (do
      let n ← elementTail pos (within data pos stop)
      let v ← value k pos (b :: (within data (pos + 1) stop).take n)
      return (v, pos + n + 1)) := by
  have hlen := length_within (pos + 1) h.stop_lt
  rw [elementIn, hbody]
  cases hn : elementTail pos (b :: within data (pos + 1) stop) with
  | error e => rfl
  | ok n =>
    obtain ⟨hlt, -⟩ := of_elementTail hn
    rw [ok_bind, ok_bind, ← take_within data (show pos + n ≤ stop by omega), hbody,
      List.take_succ_cons]

end BitTorrent.Bencode.ByOffset
