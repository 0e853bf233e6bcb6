import BitTorrent.Bencode.ByOffset.Parser
import BitTorrent.Proofs.Bencode.ByOffset.Run
import BitTorrent.Proofs.Bencode.Closed

/-! Tokens that are read by offsets. A run of digits is read byte by byte, and the colon and the
payload behind it are looked for at offsets that are in the buffer or one byte behind it. -/

namespace BitTorrent.Bencode.ByOffset

/-! ### The rest of a buffer -/

theorem lt_length_of_getElem? {data : Bytes} {pos : Nat} {b : UInt8} (h : data[pos]? = some b) :
    pos < data.length :=
  (List.getElem?_eq_some_iff.mp h).1

theorem drop_of_getElem? {data : Bytes} {pos : Nat} {b : UInt8} (h : data[pos]? = some b) :
    data.drop pos = b :: data.drop (pos + 1) := by
  obtain ⟨hlt, rfl⟩ := List.getElem?_eq_some_iff.mp h
  exact List.drop_eq_getElem_cons hlt

theorem drop_of_getElem?_eq_none {data : Bytes} {pos : Nat} (h : data[pos]? = none) :
    data.drop pos = [] :=
  List.drop_eq_nil_of_le (List.getElem?_eq_none_iff.mp h)

/-- The rest of the buffer behind a front of what is left. -/
theorem drop_add_of_eq_append {data front after : Bytes} {pos : Nat}
    (h : data.drop pos = front ++ after) : data.drop (pos + front.length) = after := by
  rw [← List.drop_drop, h, List.drop_left]

theorem add_length_of_eq_append {data front after : Bytes} {pos : Nat} (hpos : pos ≤ data.length)
    (h : data.drop pos = front ++ after) : pos + front.length + after.length = data.length := by
  have hlen := congrArg List.length h
  rw [List.length_drop, List.length_append] at hlen
  omega

/-! ### Records -/

/-- What may be recorded of a run over this buffer. -/
def Event.Sound (options : Options) (data : Bytes) : Event → Prop
  | .entered start stop depth =>
    (data[start]? = some 0x6c ∨ data[start]? = some 0x64) ∧ closingAt data start = .ok stop ∧
      start < stop ∧ stop < data.length ∧ depth ≤ options.maxDepth + 1
  | .turned pos next limit => pos < next ∧ next ≤ limit ∧ limit ≤ data.length
  | .left pos stop => pos = stop

theorem Event.sound_turned {options : Options} {data : Bytes} (pos next : Nat) (hlt : pos < next)
    (hle : next ≤ data.length) : (turned pos next data.length).Sound options data :=
  ⟨hlt, hle, Nat.le_refl _⟩

theorem Event.sound_entered {options : Options} {data : Bytes} {depth start stop : Nat}
    {b : UInt8} (hget : data[start]? = some b)
    (hlead : Lead.of b = .list ∨ Lead.of b = .dict) (hclosing : closingAt data start = .ok stop)
    (hdepth : depth ≤ options.maxDepth + 1) : (entered start stop depth).Sound options data := by
  obtain ⟨hstart, hstop, -⟩ := exists_of_closingAt hclosing
  rw [Lead.of_eq_list_iff, Lead.of_eq_dict_iff] at hlead
  rw [Event.Sound, hget, Option.some_inj, Option.some_inj]
  exact ⟨hlead, hclosing, hstart, hstop, hdepth⟩

/-! ### Byte strings -/

section Buffer

variable {options : Options} {data : Bytes}

theorem gives_lengthOf {good : Event → Prop} {digits : Bytes} {n : Nat}
    (h : Decimal.readBelow ByteString.lengthLimit digits = some n) :
    (lengthOf digits).Gives good (.ok n) := by
  rw [lengthOf, h]
  exact gives_pure n

theorem refuses_lengthOf {good : Event → Prop} {digits : Bytes}
    (h : Decimal.readBelow ByteString.lengthLimit digits = none) :
    (lengthOf digits).Gives good (.error .truncatedInput) := by
  rw [lengthOf, h]
  exact gives_refuse _

theorem refuses_payloadEnd {start n : Nat} (h : data.length < start + n) :
    (payloadEnd data start n).Gives (Event.Sound options data) (.error .truncatedInput) := by
  rw [payloadEnd, if_neg (by omega)]
  exact gives_refuse _

/-- Where the payload and the rest stand of a byte string that is read at `pos`. -/
theorem of_token {pos : Nat} {t : ByteString.Token}
    (h : ByteString.token pos (data.drop pos) = .ok t) :
    pos < pos + t.size - t.payload.length ∧ t.payload.length ≤ t.size ∧ pos + t.size ≤ data.length ∧
      (data.drop (pos + t.size - t.payload.length)).take t.payload.length = t.payload ∧
      data.drop (pos + t.size) = t.rest := by
  obtain ⟨s, hs, hpayload, hsize⟩ := ByteString.exists_of_token h
  have hlen : t.size = s.length.digits.length + 1 + t.payload.length := by
    rw [← hsize, ← hpayload, StringForm.text, List.length_append, List.length_cons]
    omega
  have hpos : pos + t.size ≤ data.length := by
    have := congrArg List.length hs
    rw [List.length_drop, List.length_append, hsize] at this
    omega
  have hfront : data.drop pos = (s.length.digits ++ [0x3a]) ++ (t.payload ++ t.rest) := by
    rw [hs, StringForm.text, hpayload]
    simp
  have hstart : pos + t.size - t.payload.length = pos + (s.length.digits ++ [0x3a]).length := by
    rw [List.length_append, List.length_singleton]
    omega
  refine ⟨by omega, by omega, hpos, ?_, ?_⟩
  · rw [hstart, drop_add_of_eq_append hfront, List.take_left]
  · rw [← hsize]
    exact drop_add_of_eq_append hs

variable (hdata : data.length < 2 ^ 63)
include hdata

theorem gives_skipDigits (pos : Nat) :
    (skipDigits data pos).Gives (Event.Sound options data)
      (.ok (pos + ((data.drop pos).takeWhile Decimal.isDigit).length)) := by
  let answer (pos : Nat) : Except Error Nat :=
    .ok (pos + ((data.drop pos).takeWhile Decimal.isDigit).length)
  refine gives_loop answer (fun _ => True) Event.sound_turned (fun pos _ => ?_) trivial
  cases hget : data[pos]? with
  | none =>
    simp only [digitTurn, hget]
    refine (gives_pure _).ends (.done ?_)
    simp [answer, drop_of_getElem?_eq_none hget]
  | some b =>
    have hlt := lt_length_of_getElem? hget
    have hdrop := drop_of_getElem? hget
    simp only [digitTurn, hget]
    split
    · rename_i hb
      refine (gives_add (by omega)).ok_bind ((gives_pure _).ends ?_)
      refine .on ?_ ⟨trivial, Nat.lt_succ_self pos, hlt⟩
      simp only [answer, hdrop, List.takeWhile_cons_of_pos hb, List.length_cons]
      congr 1
      omega
    · rename_i hb
      refine (gives_pure _).ends (.done ?_)
      simp only [answer, hdrop, List.takeWhile_cons_of_neg hb]
      rfl

theorem gives_lengthPrefix (pos : Nat) : (lengthPrefix data pos).Gives (Event.Sound options data)
    ((fun r => (r.1, pos + r.2.1 - 1)) <$> ByteString.lengthPrefix pos (data.drop pos)) := by
  have hfront : data.drop pos =
      (data.drop pos).takeWhile Decimal.isDigit ++ (data.drop pos).dropWhile Decimal.isDigit :=
    List.takeWhile_append_dropWhile.symm
  have hdrop := drop_add_of_eq_append hfront
  rw [lengthPrefix]
  refine (gives_skipDigits hdata pos).ok_bind ?_
  simp only [ByteString.lengthPrefix]
  generalize (data.drop pos).takeWhile Decimal.isDigit = digits at hfront hdrop ⊢
  generalize (data.drop pos).dropWhile Decimal.isDigit = after at hfront hdrop ⊢
  rw [← List.head?_drop, hdrop]
  cases after with
  | nil => exact gives_refuse _
  | cons b after =>
    have hget : data[pos + digits.length]? = some b := by
      rw [← List.head?_drop, hdrop, List.head?_cons]
    have hlt := lt_length_of_getElem? hget
    have hdigits : pos < pos + digits.length ↔ digits ≠ [] := by
      rw [← List.length_pos_iff]
      omega
    simp only [List.head?_cons, hdigits]
    split
    · have hslice : (data.drop pos).take (pos + digits.length - pos) = digits := by
        rw [hfront, Nat.add_sub_cancel_left, List.take_left]
      refine (gives_slice (Nat.le_add_right pos _) (Nat.le_of_lt hlt)).ok_bind ?_
      rw [hslice]
      cases hread : Decimal.readBelow ByteString.lengthLimit digits with
      | none => exact (refuses_lengthOf hread).error_bind
      | some n => exact (gives_lengthOf hread).ok_bind (gives_pure _)
    · exact gives_refuse _

theorem gives_payloadEnd {start n : Nat} (h : start + n ≤ data.length) :
    (payloadEnd data start n).Gives (Event.Sound options data) (.ok (start + n)) := by
  have hword : start + n < 2 ^ 64 := by omega
  rw [payloadEnd, if_pos ⟨hword, h⟩]
  exact gives_pure _

theorem gives_token (pos : Nat) : (token data pos).Gives (Event.Sound options data)
    ((fun t => (pos + t.size - t.payload.length, pos + t.size)) <$>
      ByteString.token pos (data.drop pos)) := by
  rw [token, ByteString.token, map_bind]
  refine (gives_lengthPrefix hdata pos).map_bind ?_
  rintro ⟨n, read, after⟩ h
  obtain ⟨l, hl, -, -, rfl⟩ := ByteString.lengthPrefix_eq_ok_iff.mp h
  have hlen : pos + (l.digits.length + 1) + after.length = data.length := by
    have := congrArg List.length hl
    rw [List.length_drop, List.length_append, List.length_cons] at this
    omega
  have hstart : pos + (l.digits.length + 1) - 1 + 1 = pos + (l.digits.length + 1) := rfl
  dsimp only
  refine (gives_add (by omega)).ok_bind ?_
  rw [hstart]
  by_cases hn : n ≤ after.length
  · have hsplit : Bytes.splitAt? n after = some (after.take n, after.drop n) := by
      rw [Bytes.splitAt?, if_pos (Bytes.hasAtLeast_eq_true_iff.mpr hn)]
    refine (gives_payloadEnd hdata (by omega)).ok_bind ((gives_pure _).ends ?_)
    simp only [hsplit, map_ok, List.length_take, Nat.min_eq_left hn, ← Nat.add_assoc,
      Nat.add_sub_cancel]
  · have hsplit : Bytes.splitAt? n after = none := by
      rw [Bytes.splitAt?, if_neg (by rwa [Bytes.hasAtLeast_eq_true_iff])]
    rw [hsplit]
    exact (refuses_payloadEnd (by omega)).error_bind

theorem gives_payload (exact : Bool) : (payload exact data).Gives (Event.Sound options data)
    (ByteString.payload exact data) := by
  rw [payload, ByteString.payload]
  refine (gives_lengthPrefix hdata 0).map_bind ?_
  rintro ⟨n, read, after⟩ h
  obtain ⟨l, hl, -, -, rfl⟩ := ByteString.lengthPrefix_eq_ok_iff.mp h
  have hfront : data.drop 0 = (l.digits ++ [0x3a]) ++ after := by simpa using hl
  have hlen := add_length_of_eq_append (Nat.zero_le _) hfront
  have hdrop := drop_add_of_eq_append hfront
  rw [List.length_append, List.length_singleton] at hlen hdrop
  rw [Nat.zero_add] at hdrop
  dsimp only
  refine (gives_add (by omega)).ok_bind ((gives_slice (by omega) (Nat.le_refl _)).ok_bind ?_)
  have hstart : 0 + (l.digits.length + 1) - 1 + 1 = l.digits.length + 1 := by omega
  have hslice :
      (data.drop (l.digits.length + 1)).take (data.length - (l.digits.length + 1)) = after := by
    rw [hdrop]
    exact List.take_of_length_le (by omega)
  rw [hstart, hslice]
  split
  · exact gives_refuse _
  · rename_i hfits
    have hstop : (if exact then n else after.length) = after.length := by
      cases exact with
      | false => rfl
      | true =>
        have hexact : after.length = n := by simpa using fun h => hfits (.inr ⟨rfl, h⟩)
        exact hexact.symm
    rw [hstop]
    refine (gives_slice (Nat.zero_le _) (Nat.le_refl _)).ends ?_
    rw [List.drop_zero, Nat.sub_zero, List.take_length]

end Buffer

/-! ### Numbers -/

variable {good : Event → Prop}

theorem gives_leadingZero (digits : Bytes) : (leadingZero digits).Gives good
    (.ok (decide (1 < digits.length ∧ digits.head? = some 0x30))) := by
  rw [leadingZero]
  split
  · rename_i hlen
    obtain ⟨b, tail, rfl⟩ := List.exists_cons_of_length_pos (Nat.zero_lt_of_lt hlen)
    refine (gives_index rfl).ok_bind ((gives_pure _).ends ?_)
    simp only [List.head?_cons, Option.some_inj, hlen, true_and]
    rfl
  · rename_i hlen
    exact (gives_pure _).ends (by simp [hlen])

theorem gives_integerBody (body : Bytes) :
    (integerBody body).Gives good (Integer.ofBody body) := by
  simp only [integerBody, Integer.ofBody]
  generalize (body.head? == some 0x2d) = negative
  generalize (if negative then body.tail else body) = digits
  split
  · exact gives_refuse _
  · refine (gives_leadingZero digits).ok_bind ?_
    simp only [decide_eq_true_eq]
    split
    · exact gives_refuse _
    · split
      · exact gives_refuse _
      · cases Decimal.readBelow (Integer.magnitudeLimit negative) digits with
        | none => exact gives_refuse _
        | some n => exact gives_pure _

theorem gives_integer (token : Bytes) : (integer token).Gives good (Integer.decode token) := by
  rw [integer, Integer.decode]
  cases Integer.body? token with
  | none => exact gives_refuse _
  | some body => exact gives_integerBody body

end BitTorrent.Bencode.ByOffset
