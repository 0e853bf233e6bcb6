import BitTorrent.Bencode.ByteString
import BitTorrent.Bencode.Integer
import BitTorrent.Bencode.Lead
import BitTorrent.Proofs.Bencode.Grammar
import BitTorrent.Proofs.Except

/-! Integers and byte strings are read as the grammar derives them: what is read is a
leaf of the grammar, and every leaf is read, whatever comes after a byte string. -/

namespace BitTorrent.Bencode

/-! ### First and last bytes -/

theorem Lead.of_isDigit {b : UInt8} (h : Decimal.isDigit b) :
    Lead.of b = .digit (Decimal.digitValue b) := by
  have hne : ∀ c : UInt8, Decimal.isDigit c = false → b ≠ c := by
    rintro c hc rfl
    simp [h] at hc
  unfold Lead.of
  rw [if_neg (hne _ rfl), if_neg (hne _ rfl), if_neg (hne _ rfl), if_neg (hne _ rfl),
    if_neg (hne _ rfl), if_pos h]

@[simp] theorem Lead.of_i : Lead.of 0x69 = .integer := rfl

@[simp] theorem Lead.of_l : Lead.of 0x6c = .list := rfl

@[simp] theorem Lead.of_d : Lead.of 0x64 = .dict := rfl

theorem Lead.of_eq_list_iff {b : UInt8} : Lead.of b = .list ↔ b = 0x6c := by
  grind [Lead.of]

theorem Lead.of_eq_dict_iff {b : UInt8} : Lead.of b = .dict ↔ b = 0x64 := by
  grind [Lead.of]

theorem Lead.of_eq_close_iff {b : UInt8} : Lead.of b = .close ↔ b = 0x65 := by
  grind [Lead.of]

/-- A byte string begins with a digit. -/
theorem StringForm.exists_text_eq_cons (s : StringForm) :
    ∃ b tail d, s.text = b :: tail ∧ Lead.of b = .digit d := by
  obtain ⟨b, ds, hds⟩ := List.exists_cons_of_ne_nil s.length.ne_nil
  have hb := Lead.of_isDigit (s.length.isDigit b (by simp [hds]))
  exact ⟨b, _, _, by rw [text, hds, List.cons_append], hb⟩

/-- What stands between the first and the last byte of a value, unless it is a byte string. -/
def ParseTree.inner : ParseTree → Bytes
  | .integer i => i.body
  | .string s => s.text
  | .list items => textOfItems items
  | .dict entries => textOfEntries entries

/-- A value that is not a byte string stands between an opening byte and an `e`. -/
theorem ParseTree.exists_text_eq_cons {t : ParseTree} (h : ∀ s, t ≠ .string s) :
    ∃ b, t.text = b :: (t.inner ++ [0x65]) ∧
      (Lead.of b = .integer ∨ Lead.of b = .list ∨ Lead.of b = .dict) := by
  cases t with
  | integer i => exact ⟨0x69, rfl, .inl rfl⟩
  | string s => exact absurd rfl (h s)
  | list items => exact ⟨0x6c, rfl, .inr (.inl rfl)⟩
  | dict entries => exact ⟨0x64, rfl, .inr (.inr rfl)⟩

/-- A value is a byte string or stands between an opening byte and an `e`. -/
theorem ParseTree.string_or_bracketed (t : ParseTree) :
    (∃ s, t = .string s) ∨ (∀ s, t ≠ .string s) ∧ ∃ b, t.text = b :: (t.inner ++ [0x65]) ∧
      (Lead.of b = .integer ∨ Lead.of b = .list ∨ Lead.of b = .dict) := by
  by_cases hs : ∃ s, t = .string s
  · exact .inl hs
  · have hs : ∀ s, t ≠ .string s := fun s h => hs ⟨s, h⟩
    exact .inr ⟨hs, exists_text_eq_cons hs⟩

theorem ParseTree.exists_text_eq (t : ParseTree) : ∃ b w, t.text = b :: w := by
  rcases t.string_or_bracketed with ⟨s, rfl⟩ | ⟨-, b, h, -⟩
  · obtain ⟨b, w, d, h, -⟩ := s.exists_text_eq_cons
    exact ⟨b, w, h⟩
  · exact ⟨b, _, h⟩

/-! ### Byte strings -/

namespace ByteString

theorem takeWhile_digits {digits after : Bytes} (h : ∀ b ∈ digits, Decimal.isDigit b) :
    (digits ++ 0x3a :: after).takeWhile Decimal.isDigit = digits := by
  rw [List.takeWhile_append_of_pos h]
  simp [Decimal.isDigit]

theorem dropWhile_digits {digits after : Bytes} (h : ∀ b ∈ digits, Decimal.isDigit b) :
    (digits ++ 0x3a :: after).dropWhile Decimal.isDigit = 0x3a :: after := by
  rw [List.dropWhile_append_of_pos h]
  simp [Decimal.isDigit]

theorem lengthPrefix_eq_ok_iff {pos n read : Nat} {rest after : Bytes} :
    lengthPrefix pos rest = .ok (n, read, after) ↔
      ∃ l : Numeral, rest = l.digits ++ 0x3a :: after ∧ l.value = n ∧ n < 2 ^ 64 ∧
        read = l.digits.length + 1 := by
  constructor
  · intro h
    have hrest := List.takeWhile_append_dropWhile (p := Decimal.isDigit) (l := rest)
    have hdigits : ∀ b ∈ rest.takeWhile Decimal.isDigit, Decimal.isDigit b :=
      List.all_eq_true.mp List.all_takeWhile
    simp only [lengthPrefix] at h
    split at h
    · cases h
    · rename_i b tail hd
      split at h
      · rename_i hb
        obtain ⟨rfl, hne⟩ := hb
        split at h
        · rename_i v hv
          obtain ⟨rfl, rfl, rfl⟩ : v = n ∧ _ = read ∧ tail = after := by simpa using h
          obtain ⟨hn, hlt⟩ := (Decimal.readBelow_eq_some_iff (by decide)).mp hv
          exact ⟨⟨_, hne, hdigits⟩, hd ▸ hrest.symm, hn, hlt, rfl⟩
        · cases h
      · cases h
  · rintro ⟨l, rfl, rfl, hlt, rfl⟩
    have hread : Decimal.readBelow lengthLimit l.digits = some l.value :=
      (Decimal.readBelow_eq_some_iff (by decide)).mpr ⟨rfl, hlt⟩
    simp only [lengthPrefix, takeWhile_digits l.isDigit, dropWhile_digits l.isDigit]
    rw [if_pos ⟨trivial, l.ne_nil⟩, hread]

/-- A byte string is read whatever comes after it. -/
theorem token_text (pos : Nat) (s : StringForm) (rest : Bytes) :
    token pos (s.text ++ rest) = .ok ⟨s.payload, s.text.length, rest⟩ := by
  have hl : lengthPrefix pos (s.text ++ rest) =
      .ok (s.length.value, s.length.digits.length + 1, s.payload ++ rest) := by
    rw [lengthPrefix_eq_ok_iff]
    exact ⟨s.length, by simp [StringForm.text], rfl, s.inRange, rfl⟩
  have hs : Bytes.splitAt? s.length.value (s.payload ++ rest) = some (s.payload, rest) := by
    simp [Bytes.splitAt?, s.declared]
  simp only [token, hl, ok_bind, hs]
  rw [s.declared, StringForm.text, List.length_append, List.length_cons, Nat.add_right_comm,
    Nat.add_assoc]

/-- What is read is a byte string of the grammar at the head of the input. -/
theorem exists_of_token {pos : Nat} {input : Bytes} {t : Token} (h : token pos input = .ok t) :
    ∃ s : StringForm, input = s.text ++ t.rest ∧ s.payload = t.payload ∧
      s.text.length = t.size := by
  obtain ⟨⟨n, read, after⟩, hl, h⟩ := bind_eq_ok_iff.mp h
  obtain ⟨l, rfl, hn, hlt, rfl⟩ := lengthPrefix_eq_ok_iff.mp hl
  dsimp only at h
  split at h
  · rename_i payload rest hs
    cases h
    obtain ⟨hle, rfl, rfl⟩ := Bytes.splitAt?_eq_some hs
    have hlen : (after.take n).length = n := by rw [List.length_take]; omega
    refine ⟨⟨l, after.take n, hn.trans hlen.symm, hn ▸ hlt⟩, ?_, rfl, ?_⟩
    · simp [StringForm.text]
    · simp only [StringForm.text, List.length_append, List.length_cons, hlen]; omega
  · cases h

/-- A byte string is accepted as a whole input, whether or not its length must be exact. -/
theorem payload_text (exact : Bool) (s : StringForm) : payload exact s.text = .ok s.payload := by
  have hl : lengthPrefix 0 s.text =
      .ok (s.length.value, s.length.digits.length + 1, s.payload) :=
    lengthPrefix_eq_ok_iff.mpr ⟨s.length, rfl, rfl, s.inRange, rfl⟩
  simp [payload, hl, s.declared]

theorem decode_eq_ok_iff {data b : Bytes} :
    decode data = .ok b ↔ ∃ s : StringForm, s.text = data ∧ s.payload = b := by
  constructor
  · intro h
    obtain ⟨⟨n, read, after⟩, hl, h⟩ := bind_eq_ok_iff.mp h
    obtain ⟨l, rfl, hn, hlt, rfl⟩ := lengthPrefix_eq_ok_iff.mp hl
    dsimp only at h
    split at h
    · cases h
    · rename_i hlen
      cases h
      have hb : b.length = n := by simpa using fun h => hlen (.inr ⟨rfl, h⟩)
      exact ⟨⟨l, b, hn.trans hb.symm, hn ▸ hlt⟩, rfl, rfl⟩
  · rintro ⟨s, rfl, rfl⟩
    exact payload_text true s

end ByteString

/-! ### Integers -/

namespace Integer

theorem body?_eq_some_iff {data body : Bytes} :
    body? data = some body ↔ data = 0x69 :: body ++ [0x65] := by
  constructor
  · intro h
    unfold body? at h
    split at h
    · rename_i b rest
      split at h
      · rename_i hb
        cases h
        obtain ⟨rfl, hlast⟩ := hb
        obtain ⟨body, rfl⟩ := List.getLast?_eq_some_iff.mp hlast
        rw [List.dropLast_concat, List.cons_append]
      · cases h
    · cases h
  · rintro rfl
    simp [body?]

theorem head?_digits_ne_minus (n : Numeral) : n.digits.head? ≠ some 0x2d := by
  intro h
  have := n.isDigit 0x2d (List.mem_of_mem_head? h)
  simp [Decimal.isDigit] at this

/-- A minus sign in front tells whether an integer is negative; the rest are its digits. -/
theorem body_eq_iff {body digits : Bytes} {negative : Bool} (h : digits.head? ≠ some 0x2d) :
    body = (if negative then 0x2d :: digits else digits) ↔
      (body.head? == some 0x2d) = negative ∧
        (if negative then body.tail else body) = digits := by
  cases negative with
  | false => simp; rintro rfl; exact h
  | true =>
    cases body with
    | nil => simp
    | cons b tail => simp

theorem magnitudeLimit_pos (negative : Bool) : 0 < magnitudeLimit negative := by
  cases negative <;> decide

/-- With one spelling for the digits and the sign, only the range is left to be checked. -/
theorem ofBody_of_plain {negative : Bool} {l : Numeral} (hplain : l.Plain)
    (hzero : ¬(negative = true ∧ l.digits = [0x30])) {body : Bytes}
    (hbody : body = if negative then 0x2d :: l.digits else l.digits) :
    ofBody body =
      match Decimal.readBelow (magnitudeLimit negative) l.digits with
      | some n => .ok (Int64.ofInt (if negative then -n else n))
      | none => .error (.malformedInteger (.outOfRange body)) := by
  obtain ⟨hneg, hds⟩ := (body_eq_iff (head?_digits_ne_minus l)).mp hbody
  have hdigits : ¬(l.digits = [] ∨ ¬l.digits.all Decimal.isDigit) := by
    simpa using ⟨l.ne_nil, l.isDigit⟩
  simp only [ofBody, hneg, hds]
  rw [if_neg hdigits, if_neg (l.plain_iff.mp hplain)]
  exact if_neg hzero

/-- The bytes between `i` and `e` are read exactly when they are those of an integer of the
grammar. -/
theorem ofBody_eq_ok_iff {body : Bytes} {n : Int64} :
    ofBody body = .ok n ↔ ∃ i : IntegerForm, i.body = body ∧ i.value = n := by
  constructor
  · intro h
    simp only [ofBody] at h
    generalize hneg : (body.head? == some 0x2d) = negative at h
    generalize hds : (if negative then body.tail else body) = digits at h
    split at h
    · cases h
    rename_i hdec
    obtain ⟨hne, hall⟩ : digits ≠ [] ∧ ∀ b ∈ digits, Decimal.isDigit b := by simpa using hdec
    split at h
    · cases h
    rename_i hzero
    split at h
    · cases h
    rename_i hminus
    split at h
    · rename_i m hm
      cases h
      obtain ⟨hvalue, hlt⟩ :=
        (Decimal.readBelow_eq_some_iff (magnitudeLimit_pos negative)).mp hm
      let magnitude : Numeral := ⟨digits, hne, hall⟩
      refine ⟨⟨negative, magnitude, magnitude.plain_iff.mpr hzero, fun h hd => hminus ⟨h, hd⟩, ?_⟩,
        ?_, ?_⟩
      · have : magnitude.value = m := hvalue
        cases negative <;> simp [magnitudeLimit] at hlt ⊢ <;> omega
      · exact ((body_eq_iff (head?_digits_ne_minus magnitude)).mpr ⟨hneg, hds⟩).symm
      · cases negative <;>
          simp [IntegerForm.value, IntegerForm.number, Numeral.value, magnitude, hvalue]
    · cases h
  · rintro ⟨i, rfl, rfl⟩
    have hlimit : Decimal.readBelow (magnitudeLimit i.negative) i.magnitude.digits =
        some i.magnitude.value := by
      rw [Decimal.readBelow_eq_some_iff (magnitudeLimit_pos i.negative)]
      have := i.inRange
      refine ⟨rfl, ?_⟩
      unfold magnitudeLimit
      split at this <;> simp_all
      omega
    have hzero : ¬(i.negative = true ∧ i.magnitude.digits = [0x30]) :=
      fun h => i.not_negative_zero h.1 h.2
    have hbody : i.body =
        if i.negative then 0x2d :: i.magnitude.digits else i.magnitude.digits := rfl
    rw [ofBody_of_plain i.plain hzero hbody, hlimit]
    rfl

theorem decode_eq_ok_iff {data : Bytes} {n : Int64} :
    decode data = .ok n ↔ ∃ i : IntegerForm, i.text = data ∧ i.value = n := by
  constructor
  · intro h
    unfold decode at h
    split at h
    · rename_i body hb
      obtain ⟨i, rfl, rfl⟩ := ofBody_eq_ok_iff.mp h
      exact ⟨i, (body?_eq_some_iff.mp hb).symm, rfl⟩
    · cases h
  · rintro ⟨i, rfl, rfl⟩
    rw [decode, body?_eq_some_iff.mpr (show i.text = 0x69 :: i.body ++ [0x65] from rfl)]
    exact ofBody_eq_ok_iff.mpr ⟨i, rfl, rfl⟩

end Integer

end BitTorrent.Bencode
