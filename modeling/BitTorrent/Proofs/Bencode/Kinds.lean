import BitTorrent.Proofs.Bencode.Canonical
import BitTorrent.Proofs.Bencode.Offsets
import BitTorrent.Proofs.Bencode.Value
import Mathlib.Logic.Function.Defs

/-! Reading values of one kind. An integer has one spelling, so its reader accepts what is written
for a number of 64 bits and nothing else. Each of the four readers agrees with the reader of all
values: the first byte of an input tells the kind of its value, and with that known both do the
same. -/

namespace BitTorrent.Bencode

/-! ### Integers -/

namespace Integer

theorem decode_eq_ok_iff_eq_encode {data : Bytes} {n : Int64} :
    decode data = .ok n ↔ data = encode n := by
  rw [decode_eq_ok_iff]
  constructor
  · rintro ⟨i, rfl, rfl⟩
    exact i.encode_value.symm
  · rintro rfl
    exact ⟨.ofInt64 n, IntegerForm.text_ofInt64 n, IntegerForm.value_ofInt64 n⟩

theorem ofText_decimal (z : Int) :
    Bytes.ofText ("i" ++ toString z ++ "e") = 0x69 :: Decimal.ofInt z ++ [0x65] := by
  have hi : Bytes.ofText "i" = [0x69] := by decide
  have he : Bytes.ofText "e" = [0x65] := by decide
  rw [Bytes.ofText_append, Bytes.ofText_append, hi, he, Decimal.ofText_toString_int]
  rfl

theorem decode_of_not_fits {z : Int} (h : z < Int64.minValue.toInt ∨ Int64.maxValue.toInt < z) :
    decode (0x69 :: Decimal.ofInt z ++ [0x65]) =
      .error (.malformedInteger (.outOfRange (Decimal.ofInt z))) := by
  have hmin : Int64.minValue.toInt = -9223372036854775808 := by decide
  have hmax : Int64.maxValue.toInt = 9223372036854775807 := by decide
  rw [hmin, hmax] at h
  have hzero : ¬(decide (z < 0) = true ∧ Decimal.ofNat z.natAbs = [0x30]) := by
    rintro ⟨-, hdigits⟩
    exact Decimal.head?_ofNat (by omega) (congrArg List.head? hdigits)
  have hlimit : magnitudeLimit (decide (z < 0)) ≤ (Numeral.ofNat z.natAbs).value := by
    rw [Numeral.value_ofNat]
    by_cases hneg : z < 0
    · simp [magnitudeLimit, hneg]
      omega
    · simp [magnitudeLimit, hneg]
      omega
  have hbody : Decimal.ofInt z =
      if decide (z < 0) then 0x2d :: (Numeral.ofNat z.natAbs).digits
      else (Numeral.ofNat z.natAbs).digits := by
    simp [Decimal.ofInt, Numeral.ofNat]
  have hread : Decimal.readBelow (magnitudeLimit (decide (z < 0))) (Numeral.ofNat z.natAbs).digits =
      none := by
    rw [Decimal.readBelow_eq (magnitudeLimit_pos _)]
    exact if_neg (Nat.not_lt.mpr hlimit)
  rw [decode, body?_eq_some_iff.mpr rfl]
  exact (ofBody_of_plain (Numeral.plain_ofNat z.natAbs) hzero hbody).trans (by rw [hread])

/-- An input is read as an integer exactly if it is what is written for that integer, which is `i`,
its decimal text and `e`. Whatever is not written for an integer is refused as malformed, and a
number beyond the limits of 64 bits for being out of range. -/
theorem decode_reads_spelling (data : Bytes) :
    (∀ n : Int64, decode data = .ok n ↔ data = encode n) ∧
    (∀ n : Int64, encode n = Bytes.ofText ("i" ++ toString n.toInt ++ "e")) ∧
    ((∃ n, data = encode n) ∨ ∃ f, decode data = .error (.malformedInteger f)) ∧
    ∀ z : Int, z < Int64.minValue.toInt ∨ Int64.maxValue.toInt < z →
      decode (Bytes.ofText ("i" ++ toString z ++ "e")) =
        .error (.malformedInteger (.outOfRange (Bytes.ofText (toString z)))) := by
  refine ⟨fun n => decode_eq_ok_iff_eq_encode, fun n => (ofText_decimal n.toInt).symm, ?_, ?_⟩
  · cases h : decode data with
    | error e =>
      obtain ⟨f, rfl⟩ := malformed_of_decode h
      exact .inr ⟨f, rfl⟩
    | ok n => exact .inl ⟨n, decode_eq_ok_iff_eq_encode.mp h⟩
  · intro z hz
    rw [ofText_decimal, Decimal.ofText_toString_int]
    exact decode_of_not_fits hz

/-- The least number that fits, and the number after the greatest. -/
theorem decode_reads_spelling_at_limits :
    decode (Bytes.ofText "i-9223372036854775808e") = .ok Int64.minValue ∧
      decode (Bytes.ofText "i9223372036854775808e") =
        .error (.malformedInteger (.outOfRange (Bytes.ofText "9223372036854775808"))) := by
  obtain ⟨hread, hspelling, -⟩ := decode_reads_spelling (Bytes.ofText "i-9223372036854775808e")
  obtain ⟨-, -, -, hbeyond⟩ := decode_reads_spelling (Bytes.ofText "i9223372036854775808e")
  exact ⟨(hread _).mpr (hspelling Int64.minValue).symm,
    hbeyond 9223372036854775808 (.inr (by decide))⟩

end Integer

/-! ### The first byte -/

/-- A value of the kind that begins in this way. -/
inductive Value.OfLead : Value → Lead → Prop
  | integer (n : Int64) : OfLead (.integer n) .integer
  | bytes (b : Bytes) (d : Nat) : OfLead (.bytes b) (.digit d)
  | list (items : List Value) : OfLead (.list items) .list
  | dict (d : Dict Value) : OfLead (.dict d) .dict

/-- The first byte of an accepted input tells the kind of its value. -/
theorem ofLead_of_decode {b : UInt8} {w : Bytes} {v : Value} (h : decode (b :: w) = .ok v) :
    v.OfLead (Lead.of b) := by
  have hvalue : decode (b :: w) = value (Options.standard.maxDepth + 1) 0 (b :: w) :=
    decode_eq_value (fun _ _ => rfl) (closingAt_of_decode h)
  rw [hvalue] at h
  cases hlead : Lead.of b with
  | integer =>
    simp only [value, hlead] at h
    obtain ⟨n, -, rfl⟩ := map_eq_ok_iff.mp h
    exact .integer n
  | digit d =>
    simp only [value, hlead] at h
    obtain ⟨payload, -, rfl⟩ := map_eq_ok_iff.mp h
    exact .bytes payload d
  | list =>
    simp only [value, hlead] at h
    obtain ⟨items, -, rfl⟩ := map_eq_ok_iff.mp h
    exact .list items
  | dict =>
    simp only [value, hlead] at h
    obtain ⟨entries, -, rfl⟩ := map_eq_ok_iff.mp h
    exact .dict (.ofList entries)
  | _ =>
    simp only [value, hlead] at h
    cases h

/-! ### Readers of one kind -/

/-- Reads values of one kind, which are those that `make` makes. -/
structure ReadsKind {α : Type} (make : α → Value) (read : Bytes → Except Error α) : Prop where
  make_inj : Function.Injective make
  /-- Input that begins as values of this kind do has the same result, be it a value or an error. -/
  map_read : ∀ b w a, (make a).OfLead (Lead.of b) → make <$> read (b :: w) = decode (b :: w)
  begins : ∀ data a, read data = .ok a → ∃ b w, data = b :: w ∧ (make a).OfLead (Lead.of b)

theorem ReadsKind.eq_ok_iff {α : Type} {make : α → Value} {read : Bytes → Except Error α}
    (h : ReadsKind make read) (data : Bytes) (a : α) :
    read data = .ok a ↔ decode data = .ok (make a) := by
  constructor
  · intro hread
    obtain ⟨b, w, rfl, hlead⟩ := h.begins data a hread
    rw [← h.map_read b w a hlead, hread, map_ok]
  · intro hdecode
    cases data with
    | nil => cases hdecode
    | cons b w =>
      rw [← h.map_read b w a (ofLead_of_decode hdecode)] at hdecode
      obtain ⟨a', hread, hmake⟩ := map_eq_ok_iff.mp hdecode
      rwa [h.make_inj hmake] at hread

theorem readsKind_integer : ReadsKind Value.integer Integer.decode where
  make_inj _ _ h := Value.integer.inj h
  map_read b w n hlead := by
    generalize hb : Lead.of b = lead at hlead
    cases hlead
    simp only [decode, Options.decode, hb]
  begins data n h := by
    obtain ⟨i, rfl, -⟩ := Integer.decode_eq_ok_iff.mp h
    exact ⟨0x69, i.body ++ [0x65], rfl, .integer n⟩

theorem readsKind_bytes : ReadsKind Value.bytes ByteString.decode where
  make_inj _ _ h := Value.bytes.inj h
  map_read b w p hlead := by
    generalize hb : Lead.of b = lead at hlead
    cases hlead
    simp only [decode, Options.decode, hb]
    rfl
  begins data p h := by
    obtain ⟨s, rfl, -⟩ := ByteString.decode_eq_ok_iff.mp h
    obtain ⟨b, w, d, hs, hlead⟩ := s.exists_text_eq_cons
    exact ⟨b, w, hs, hlead ▸ .bytes p d⟩

/-- Containers are read as any value is, and what was read is then taken as one of their kind. -/
theorem ReadsKind.of_container {α : Type} {make : α → Value} {read : Bytes → Except Error α}
    (kind? : Value → Option α) (lead : Lead) (hkind : ∀ v a, kind? v = some a ↔ v = make a)
    (hlead : ∀ v l, v.OfLead l → (l = lead ↔ ∃ a, v = make a)) (hnil : ∀ a, read [] ≠ .ok a)
    (hread : ∀ b w, read (b :: w) =
      if Lead.of b = lead then do
        let v ← decode (b :: w)
        (kind? v).elim (.error (.unexpectedByte b 0)) .ok
      else .error (.unexpectedByte b 0)) : ReadsKind make read where
  make_inj a a' h := by
    have ha := (hkind (make a) a).mpr rfl
    rw [(hkind (make a) a').mpr h] at ha
    exact (Option.some.inj ha).symm
  map_read b w a h := by
    rw [hread, if_pos ((hlead _ _ h).mpr ⟨a, rfl⟩)]
    cases hdecode : decode (b :: w) with
    | error e => rfl
    | ok v =>
      have hb : Lead.of b = lead := (hlead _ _ h).mpr ⟨a, rfl⟩
      obtain ⟨a', rfl⟩ := (hlead v _ (ofLead_of_decode hdecode)).mp hb
      rw [ok_bind, (hkind (make a') a').mpr rfl]
      rfl
  begins data a h := by
    cases data with
    | nil => exact absurd h (hnil a)
    | cons b w =>
      rw [hread] at h
      split at h
      · obtain ⟨v, hv, h⟩ := bind_eq_ok_iff.mp h
        cases ha : kind? v with
        | none =>
          rw [ha] at h
          cases h
        | some a' =>
          rw [ha] at h
          cases h
          obtain rfl := (hkind v a).mp ha
          exact ⟨b, w, rfl, ofLead_of_decode hv⟩
      · cases h

theorem readsKind_list : ReadsKind Value.list decodeList := by
  refine .of_container Value.list? .list (fun v a => Value.list?_eq_some_iff) ?_ nofun ?_
  · rintro v l (n | ⟨b, d⟩ | items | d) <;> simp
  · intro b w
    by_cases hlead : Lead.of b = .list
    · rw [if_pos hlead]
      simp only [decodeList, hlead]
      congr 1
      funext v
      cases v.list? <;> rfl
    · rw [if_neg hlead]
      unfold decodeList
      split <;> simp_all

theorem readsKind_dict : ReadsKind Value.dict decodeDict := by
  refine .of_container Value.dict? .dict (fun v a => Value.dict?_eq_some_iff) ?_ nofun ?_
  · rintro v l (n | ⟨b, d⟩ | items | d) <;> simp
  · intro b w
    by_cases hlead : Lead.of b = .dict
    · rw [if_pos hlead]
      simp only [decodeDict, hlead]
      congr 1
      funext v
      cases v.dict? <;> rfl
    · rw [if_neg hlead]
      unfold decodeDict
      split <;> simp_all

/-- Input that begins as values of one kind do is refused as any value is, and is never a value of
another kind. -/
theorem ReadsKind.of_head? {α : Type} {make : α → Value} {read : Bytes → Except Error α}
    (h : ReadsKind make read) {b : UInt8} {a : α} (hlead : (make a).OfLead (Lead.of b))
    {data : Bytes} (hhead : data.head? = some b) :
    (∀ e, read data = .error e ↔ decode data = .error e) ∧
      ∀ v, decode data = .ok v → ∃ a, v = make a := by
  obtain ⟨w, rfl⟩ := List.head?_eq_some_iff.mp hhead
  rw [← h.map_read b w a hlead]
  refine ⟨fun e => map_eq_error_iff.symm, fun v hv => ?_⟩
  obtain ⟨a', -, rfl⟩ := map_eq_ok_iff.mp hv
  exact ⟨a', rfl⟩

/-- Reading an input as an integer, a byte string, a list or a dictionary comes to a value exactly
if reading it as any value comes to that value. An input that begins as a list or a dictionary does
is refused for what any value is refused for, and no value of another kind is ever found in it. -/
theorem decode_by_kind (data : Bytes) :
    (∀ n, Integer.decode data = .ok n ↔ decode data = .ok (.integer n)) ∧
    (∀ b, ByteString.decode data = .ok b ↔ decode data = .ok (.bytes b)) ∧
    (∀ items, decodeList data = .ok items ↔ decode data = .ok (.list items)) ∧
    (∀ d, decodeDict data = .ok d ↔ decode data = .ok (.dict d)) ∧
    (data.head? = some 0x6c → (∀ e, decodeList data = .error e ↔ decode data = .error e) ∧
      ∀ v, decode data = .ok v → ∃ items, v = .list items) ∧
    (data.head? = some 0x64 → (∀ e, decodeDict data = .error e ↔ decode data = .error e) ∧
      ∀ v, decode data = .ok v → ∃ d, v = .dict d) :=
  ⟨readsKind_integer.eq_ok_iff data, readsKind_bytes.eq_ok_iff data, readsKind_list.eq_ok_iff data,
    readsKind_dict.eq_ok_iff data, readsKind_list.of_head? (.list []),
    readsKind_dict.of_head? (.dict .empty)⟩

/-- A list with a byte after it, and a dictionary that ends after a key. -/
theorem decode_by_kind_of_refused :
    decodeList (Bytes.ofText "li-1eei") = .error (.unterminatedContainer 6) ∧
      decodeDict (Bytes.ofText "d1:ae") = .error (.unterminatedContainer 4) ∧
      decodeDict (Bytes.ofText "d1:alee") = .ok ⟨[(Bytes.ofText "a", .list [])]⟩ := by
  obtain ⟨-, -, -, -, hlist, -⟩ := decode_by_kind (Bytes.ofText "li-1eei")
  obtain ⟨-, -, -, -, -, hdict⟩ := decode_by_kind (Bytes.ofText "d1:ae")
  obtain ⟨-, -, -, hvalue, -, -⟩ := decode_by_kind (Bytes.ofText "d1:alee")
  refine ⟨((hlist (by decide)).1 _).mpr ?_, ((hdict (by decide)).1 _).mpr ?_, (hvalue _).mpr ?_⟩
  all_goals decide +kernel

end BitTorrent.Bencode
