import BitTorrent.Proofs.Bencode.RoundTrip
import BitTorrent.Proofs.Bencode.Value

/-! The bracket scan over written values. It passes over whatever is written for a value, be the
value nested as deep as it may and its dictionaries with or without repeated keys, so the closing
byte of a written container or integer is found wherever it stands. Of a string the scan looks at
the length only: other strings of the same lengths, as values or as keys, make no difference. -/

namespace BitTorrent.Bencode

/-! ### Values without the contents of their strings -/

namespace Value

mutual
/-- The value with zeros for the bytes of its strings, those of keys included. -/
def blank : Value → Value
  | .integer n => .integer n
  | .bytes b => .bytes (List.replicate b.length 0)
  | .list items => .list (blankItems items)
  | .dict d => .dict ⟨blankEntries d.entries⟩
def blankItems : List Value → List Value
  | [] => []
  | v :: vs => blank v :: blankItems vs
def blankEntries : List (Bytes × Value) → List (Bytes × Value)
  | [] => []
  | (k, v) :: es => (List.replicate k.length 0, blank v) :: blankEntries es
end

theorem length_encodeItems_blank {vs : List Value}
    (h : ∀ v ∈ vs, (encode v.blank).length = (encode v).length) :
    (encodeItems (blankItems vs)).length = (encodeItems vs).length := by
  induction vs with
  | nil => rfl
  | cons v vs ih =>
    obtain ⟨hv, hvs⟩ := List.forall_mem_cons.mp h
    rw [blankItems, encodeItems, encodeItems, List.length_append, List.length_append, hv, ih hvs]

theorem length_encode_replicate (b : Bytes) :
    (ByteString.encode (List.replicate b.length 0)).length = (ByteString.encode b).length := by
  simp [ByteString.encode]

theorem length_encodeEntries_blank {es : List (Bytes × Value)}
    (h : ∀ e ∈ es, (encode e.2.blank).length = (encode e.2).length) :
    (encodeEntries (blankEntries es)).length = (encodeEntries es).length := by
  induction es with
  | nil => rfl
  | cons e es ih =>
    obtain ⟨he, hes⟩ := List.forall_mem_cons.mp h
    simp only [blankEntries, encodeEntries, List.length_append, length_encode_replicate, he, ih hes]

/-- Zeros take as much room as the bytes that they stand for. -/
theorem length_encode_blank (v : Value) : (encode v.blank).length = (encode v).length := by
  induction v with
  | integer n => rfl
  | bytes b => exact length_encode_replicate b
  | list items ih =>
    simp only [blank, encode, List.length_append, List.length_cons, length_encodeItems_blank ih]
  | dict d ih =>
    simp only [blank, encode, List.length_append, List.length_cons, length_encodeEntries_blank ih]

theorem length_encode_of_blank {v w : Value} (h : w.blank = v.blank) :
    (encode w).length = (encode v).length := by
  rw [← w.length_encode_blank, h, v.length_encode_blank]

/-- Only a byte string is blanked to a byte string. -/
theorem ne_bytes_of_blank {v w : Value} (h : w.blank = v.blank) (hv : ∀ b, v ≠ .bytes b)
    (b : Bytes) : w ≠ .bytes b := by
  rintro rfl
  cases v with
  | bytes c => exact hv c rfl
  | _ => simp [blank] at h

end Value

/-! ### The scan -/

namespace Scan

theorem passes_encode_bytes {b : Bytes} (h : (ByteString.encode b).length < 2 ^ 64) :
    Passes (ByteString.encode b) :=
  passes_string (.ofPayload b (length_lt_of_encode h))

theorem passes_of_bracketed {v : Value} (h : (encode v).length < 2 ^ 64)
    (hv : (∀ b, v ≠ .bytes b) → Bracketed (encode v)) : Passes (encode v) := by
  cases v with
  | bytes b => exact passes_encode_bytes h
  | _ => exact (hv nofun).passes

/-- What is written for a value that is not a byte string stands between brackets, by induction on
the value. Its elements are passed over, whatever is in their strings. -/
theorem bracketed_encode {v : Value} (hv : ∀ b, v ≠ .bytes b) (h : (encode v).length < 2 ^ 64) :
    Bracketed (encode v) := by
  induction v with
  | integer n =>
    rw [encode, ← IntegerForm.text_ofInt64]
    exact bracketed_integer _
  | bytes b => exact absurd rfl (hv b)
  | list items ih =>
    simp only [encode, List.length_append, List.length_cons] at h
    rw [encode, encodeItems_eq_flatMap]
    refine (Passes.flatMap fun v hmem => ?_).bracketed (.inl rfl)
    have hle := length_encode_le_of_mem hmem
    exact passes_of_bracketed (by omega) fun hbytes => ih v hmem hbytes (by omega)
  | dict d ih =>
    simp only [encode, List.length_append, List.length_cons] at h
    rw [encode, encodeEntries_eq_flatMap]
    refine (Passes.flatMap fun e hmem => ?_).bracketed (.inr rfl)
    have hle := length_encodeEntry_le_of_mem hmem
    rw [encodeEntry, List.length_append] at hle
    have hkey : Passes (ByteString.encode e.1) := passes_encode_bytes (by omega)
    exact hkey.append (passes_of_bracketed (by omega) fun hbytes => ih e hmem hbytes (by omega))

end Scan

/-- The closing byte of a written value that is not a byte string is its last, whatever stands
before the value and behind it. Nothing of this depends on the contents of its strings: other
strings of the same lengths leave the closing byte where it is. -/
theorem closingAt_encode (v : Value) (front back : Bytes) (hv : ∀ b, v ≠ .bytes b)
    (hlen : (encode v).length < 2 ^ 64) :
    closingAt (front ++ encode v ++ back) front.length =
        .ok (front.length + (encode v).length - 1) ∧
      ∀ (w : Value) (front' back' : Bytes), w.blank = v.blank → front'.length = front.length →
        closingAt (front' ++ encode w ++ back') front'.length =
          closingAt (front ++ encode v ++ back) front.length := by
  have hclosing {u : Value} (hu : ∀ b, u ≠ .bytes b) (hlen : (encode u).length < 2 ^ 64)
      (before after : Bytes) : closingAt (before ++ encode u ++ after) before.length =
        .ok (before.length + (encode u).length - 1) := by
    rw [closingAt, List.append_assoc, List.drop_left]
    exact (Scan.bracketed_encode hu hlen).closing before.length after
  refine ⟨hclosing hv hlen front back, fun w front' back' hblank hfront => ?_⟩
  have hsame := Value.length_encode_of_blank hblank
  rw [hclosing hv hlen, hclosing (Value.ne_bytes_of_blank hblank hv) (hsame ▸ hlen), hfront, hsame]

/-- A dictionary with one key for two of its entries, behind bytes that are no value and in front of
more brackets. Its strings hold brackets and digits, and then other brackets. -/
theorem closingAt_encode_of_repeated :
    closingAt (Bytes.ofText "9:ld1:e3:1:e1:elli-1eeleeelee") 3 = .ok 25 ∧
      closingAt (Bytes.ofText "dded1:l3:ddd1:llli-1eeleee") 3 = .ok 25 := by
  let nested : Value := .list [.list [.integer (-1)], .list []]
  let v : Value := .dict ⟨[([0x65], .bytes [0x31, 0x3a, 0x65]), ([0x65], nested)]⟩
  let w : Value := .dict ⟨[([0x6c], .bytes [0x64, 0x64, 0x64]), ([0x6c], nested)]⟩
  have hv : Bytes.ofText "9:ld1:e3:1:e1:elli-1eeleeelee" =
      Bytes.ofText "9:l" ++ encode v ++ Bytes.ofText "lee" := by decide +kernel
  have hw : Bytes.ofText "dded1:l3:ddd1:llli-1eeleee" = Bytes.ofText "dde" ++ encode w ++ [] := by
    decide +kernel
  have hstop : 3 + (encode v).length - 1 = 25 := by decide +kernel
  obtain ⟨hclosing, hother⟩ := closingAt_encode v (Bytes.ofText "9:l") (Bytes.ofText "lee") nofun
    (by decide +kernel)
  have hclosing' : closingAt (Bytes.ofText "9:ld1:e3:1:e1:elli-1eeleeelee") 3 = .ok 25 := by
    rw [hv, ← hstop]
    exact hclosing
  refine ⟨hclosing', ?_⟩
  rw [← hclosing', hv, hw]
  exact hother w (Bytes.ofText "dde") [] (by decide +kernel) rfl

end BitTorrent.Bencode
