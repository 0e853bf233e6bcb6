import BitTorrent.Proofs.Bencode.Locality
import BitTorrent.Proofs.Bencode.Offsets

/-! Bodies that the bracket scan passes over to their last byte. The scan has seen that such a
body holds everything that the reader may look for: the payload of a byte string at its
head, the closing byte of a container, the `e` of an integer. So an element is read or
refused for a byte that is there, and what remains after it is a body of the same kind. -/

namespace BitTorrent.Bencode

/-- The scan from `pos` on with no bracket open stops at the last byte of the body. -/
def Closed (pos : Nat) (body : Bytes) : Prop :=
  ∃ stop, Scan.run 0 (.payload 0) pos body = .ok stop ∧ stop + 1 = pos + body.length

/-! ### Payloads -/

/-- What the scan has passed over as a payload was there, and the byte after it. -/
theorem Scan.lt_length_of_run_payload {level pos stop n : Nat} {rest : Bytes}
    (h : run level (.payload n) pos rest = .ok stop) : n < rest.length := by
  induction n generalizing pos rest with
  | zero =>
    obtain ⟨i, -, hi⟩ := exists_of_run h
    obtain ⟨hlt, -⟩ := List.getElem?_eq_some_iff.mp hi
    exact Nat.zero_lt_of_lt hlt
  | succ n ih =>
    cases rest with
    | nil => cases h
    | cons b rest => exact Nat.succ_lt_succ (ih h)

theorem Lead.isDigit_of_eq_digit {b : UInt8} {d : Nat} (h : Lead.of b = .digit d) :
    Decimal.isDigit b := by
  grind [Lead.of]

/-- Digits mean nothing to the scan if no colon follows them. -/
theorem Scan.run_stray {level pos : Nat} {c : UInt8} (hc : Decimal.isDigit c = false)
    (hcolon : c ≠ 0x3a) (v : Option Nat) (after : Bytes) :
    run level (.digits v) pos (c :: after) = run level (.payload 0) pos (c :: after) := by
  have hstep : step level (.digits v) c = step level (.payload 0) c := by
    simp only [step]
    split
    · rename_i hlead
      rw [Lead.isDigit_of_eq_digit hlead] at hc
      cases hc
    · rw [if_neg hcolon]
  rw [run, run, hstep]

/-- Digits with another byte than a colon after them are no length. -/
theorem ByteString.token_stray (pos : Nat) (l : Numeral) {c : UInt8}
    (hc : Decimal.isDigit c = false) (hcolon : c ≠ 0x3a) (after : Bytes) :
    token pos (l.digits ++ c :: after) = .error (.unexpectedByte c (pos + l.digits.length)) := by
  have hdigits : (l.digits ++ c :: after).takeWhile Decimal.isDigit = l.digits := by
    rw [List.takeWhile_append_of_pos l.isDigit, List.takeWhile_cons_of_neg (by simp [hc]),
      List.append_nil]
  have hafter : (l.digits ++ c :: after).dropWhile Decimal.isDigit = c :: after := by
    rw [List.dropWhile_append_of_pos l.isDigit, List.dropWhile_cons_of_neg (by simp [hc])]
  have hprefix : lengthPrefix pos (l.digits ++ c :: after) =
      .error (.unexpectedByte c (pos + l.digits.length)) := by
    simp only [lengthPrefix, hdigits, hafter]
    rw [if_neg fun h => hcolon h.1]
  rw [token, hprefix, error_bind]

theorem exists_findIdx? {tail : Bytes} {i : Nat} (h : tail[i]? = some 0x65) :
    ∃ k ≤ i, tail.findIdx? (· = 0x65) = some k := by
  obtain ⟨hlt, hi⟩ := List.getElem?_eq_some_iff.mp h
  cases hk : tail.findIdx? (· = 0x65) with
  | none =>
    rw [List.findIdx?_eq_none_iff] at hk
    simpa using hk _ (List.mem_of_getElem? h)
  | some k =>
    obtain ⟨hlt', -, hbefore⟩ := List.findIdx?_eq_some_iff_getElem.mp hk
    exact ⟨k, Nat.not_lt.mp fun hik => by simpa [hi] using hbefore i hik, rfl⟩

theorem elementSize_of_closing {pos i : Nat} {b : UInt8} {tail : Bytes}
    (hlead : Lead.of b = .list ∨ Lead.of b = .dict)
    (h : closing pos (b :: tail) = .ok (pos + 1 + i)) : elementSize pos b tail = .ok (i + 1) := by
  have hsub : pos + 1 + i - pos = i + 1 := by omega
  rw [← hsub]
  rcases hlead with hlead | hlead <;> simp only [elementSize, hlead, h] <;> rfl

namespace Closed

variable {pos n : Nat} {b : UInt8} {tail body rest : Bytes}

theorem ne_nil (h : Closed pos body) : body ≠ [] := by
  rintro rfl
  obtain ⟨stop, hrun, -⟩ := h
  cases hrun

theorem getLast? (h : Closed pos body) : body.getLast? = some 0x65 := by
  obtain ⟨stop, hrun, hstop⟩ := h
  obtain ⟨i, rfl, hi⟩ := Scan.exists_of_run hrun
  have hlast : body.length - 1 = i := by omega
  rwa [List.getLast?_eq_getElem?, hlast]

theorem eq_close (h : Closed pos [b]) : b = 0x65 := by
  simpa using h.getLast?

/-- After a derived value at the head of the body. -/
theorem after_text {t : ParseTree} (h : Closed pos (t.text ++ rest)) :
    Closed (pos + t.text.length) rest := by
  obtain ⟨stop, hrun, hstop⟩ := h
  rw [Scan.passes_text t 0] at hrun
  rw [List.length_append] at hstop
  exact ⟨stop, hrun, by omega⟩

/-! ### Brackets -/

/-- A container or an integer at the head closes before the body does, and what it encloses
is closed. -/
theorem exists_closing (h : Closed pos (b :: tail))
    (hlead : Lead.of b = .integer ∨ Lead.of b = .list ∨ Lead.of b = .dict) :
    ∃ i, closing pos (b :: tail) = .ok (pos + 1 + i) ∧ i + 1 < tail.length ∧
      tail[i]? = some 0x65 ∧ Closed (pos + 1) (tail.take (i + 1)) := by
  obtain ⟨stop, hrun, hstop⟩ := h
  have hopen : Scan.step 0 (.payload 0) b = .more 1 (.payload 0) := by
    rcases hlead with hlead | hlead | hlead <;> simp only [Scan.step, Scan.between, hlead]
  rw [Scan.run_cons hopen] at hrun
  obtain ⟨i, hinner, houter⟩ := Scan.exists_of_run_succ hrun
  obtain ⟨j, rfl, -⟩ := Scan.exists_of_run houter
  obtain ⟨i', hi', hget⟩ := Scan.exists_of_run hinner
  obtain rfl : i = i' := by omega
  rw [List.length_cons] at hstop
  have hlen : (tail.take (i + 1)).length = i + 1 := by
    rw [List.length_take]
    omega
  refine ⟨i, closing_cons hlead pos tail ▸ hinner, by omega, hget, pos + 1 + i, ?_, ?_⟩
  · rw [Scan.run_of_isPrefix hinner (List.take_prefix (i + 1) tail), hlen, if_pos (by omega)]
  · rw [hlen]
    omega

/-! ### Digits -/

/-- Digits at the head are the length of a byte string that is there, with something after it,
or something else than a colon follows them. -/
theorem string_or_stray {d : Nat} (h : Closed pos (b :: tail)) (hlead : Lead.of b = .digit d) :
    (∃ (s : StringForm) (w more : Bytes), s.text = b :: w ∧ more ≠ [] ∧ tail = w ++ more) ∨
      ∃ (l : Numeral) (c : UInt8) (after : Bytes), Decimal.isDigit c = false ∧ c ≠ 0x3a ∧
        b :: tail = l.digits ++ c :: after := by
  have hb : Decimal.isDigit b := Lead.isDigit_of_eq_digit hlead
  let l : Numeral :=
    ⟨(b :: tail).takeWhile Decimal.isDigit, by simp [hb], List.all_eq_true.mp List.all_takeWhile⟩
  have hbody : b :: tail = l.digits ++ (b :: tail).dropWhile Decimal.isDigit :=
    List.takeWhile_append_dropWhile.symm
  obtain ⟨stop, hrun, -⟩ := h
  rw [hbody, Scan.run_numeral] at hrun
  cases hafter : (b :: tail).dropWhile Decimal.isDigit with
  | nil =>
    rw [hafter] at hrun
    cases hrun
  | cons c after =>
    have hc : Decimal.isDigit c = false := by
      simpa [hafter] using List.head?_dropWhile_not Decimal.isDigit (b :: tail)
    rw [hafter] at hrun hbody
    by_cases hcolon : c = 0x3a
    · subst hcolon
      cases hread : Decimal.readBelow ByteString.lengthLimit l.digits with
      | none =>
        rw [hread] at hrun
        cases hrun
      | some n =>
        rw [hread] at hrun
        have hlt : n < after.length := Scan.lt_length_of_run_payload hrun
        obtain ⟨hn, hlimit⟩ := (Decimal.readBelow_eq_some_iff (by decide)).mp hread
        have hlen : (after.take n).length = n := by
          rw [List.length_take]
          omega
        let s : StringForm :=
          ⟨l, after.take n, hn.trans hlen.symm, by rw [Numeral.value, hn]; exact hlimit⟩
        have hs : b :: tail = s.text ++ after.drop n := by
          rw [hbody, StringForm.text, List.append_assoc, List.cons_append, List.take_append_drop]
        obtain ⟨b', w, -, htext, -⟩ := s.exists_text_eq_cons
        rw [htext, List.cons_append] at hs
        obtain ⟨rfl, htail⟩ := List.cons.inj hs
        exact .inl ⟨s, w, after.drop n, htext, by simpa using hlt, htail⟩
    · exact .inr ⟨l, c, after, hc, hcolon, hbody⟩

/-! ### Reading at the head -/

/-- Where the element at the head ends is found inside of the body, or a byte in the element is
refused. -/
theorem elementSize_cases (h : Closed pos (b :: tail)) :
    (∃ n, elementSize pos b tail = .ok n ∧ n < tail.length) ∨
      ∃ c o, elementSize pos b tail = .error (.unexpectedByte c o) := by
  have hbracket (hlead : Lead.of b = .list ∨ Lead.of b = .dict) :
      ∃ n, elementSize pos b tail = .ok n ∧ n < tail.length := by
    obtain ⟨i, hclosing, hlt, -, -⟩ := h.exists_closing (.inr hlead)
    exact ⟨i + 1, elementSize_of_closing hlead hclosing, hlt⟩
  cases hlead : Lead.of b with
  | integer =>
    obtain ⟨i, -, hlt, hi, -⟩ := h.exists_closing (.inl hlead)
    obtain ⟨k, hk, hfind⟩ := exists_findIdx? hi
    exact .inl ⟨k + 1, by simp only [elementSize, hlead, hfind], by omega⟩
  | list => exact .inl (hbracket (.inl hlead))
  | dict => exact .inl (hbracket (.inr hlead))
  | digit d =>
    rcases h.string_or_stray hlead with
      ⟨s, w, more, htext, hmore, rfl⟩ | ⟨l, c, after, hc, hcolon, hbody⟩
    · have hpos : 0 < more.length := List.length_pos_iff.mpr hmore
      rw [List.length_append]
      exact .inl ⟨w.length, elementSize_text (t := .string s) htext pos, by omega⟩
    · refine .inr ⟨c, pos + l.digits.length, ?_⟩
      simp only [elementSize, hlead, hbody, ByteString.token_stray pos l hc hcolon after]
      rfl
  | _ => exact .inr ⟨b, pos, by simp only [elementSize, hlead]⟩

theorem elementTail_cases (h : Closed pos (b :: tail)) :
    (∃ n, elementTail pos (b :: tail) = .ok n) ∨
      ∃ c o, elementTail pos (b :: tail) = .error (.unexpectedByte c o) := by
  rcases h.elementSize_cases with ⟨n, hn⟩ | ⟨c, o, hunexpected⟩
  · exact .inl ⟨n, elementTail_eq_ok_iff.mpr hn⟩
  · refine .inr ⟨c, o, ?_⟩
    rw [elementTail, hunexpected, error_bind]

/-- A key is read with something after it, or it is refused for its first byte or for the one
after its digits. -/
theorem key_cases (h : Closed pos (b :: tail)) :
    (∃ k n, key pos (b :: tail) = .ok (k, n)) ∨ key pos (b :: tail) = .error .invalidKeyType ∨
      ∃ c o, key pos (b :: tail) = .error (.unexpectedByte c o) := by
  cases hlead : Lead.of b with
  | integer => exact .inr (.inl (by simp only [key, hlead]))
  | list => exact .inr (.inl (by simp only [key, hlead]))
  | dict => exact .inr (.inl (by simp only [key, hlead]))
  | digit d =>
    rcases h.string_or_stray hlead with
      ⟨s, w, more, htext, hmore, rfl⟩ | ⟨l, c, after, hc, hcolon, hbody⟩
    · exact .inl ⟨s.payload, w.length, key_text htext hmore pos⟩
    · refine .inr (.inr ⟨c, pos + l.digits.length, ?_⟩)
      simp only [key, hlead, hbody, ByteString.token_stray pos l hc hcolon after]
      rfl
  | _ => exact .inr (.inr ⟨b, pos, by simp only [key, hlead]⟩)

/-! ### After what was read -/

theorem after_key {k : Bytes} (h : Closed pos (b :: tail)) (hk : key pos (b :: tail) = .ok (k, n)) :
    ∃ s : StringForm, b :: tail = s.text ++ tail.drop n ∧ s.text.length = n + 1 ∧
      Closed (pos + n + 1) (tail.drop n) := by
  obtain ⟨s, -, hs⟩ := exists_of_key hk
  have hrest : Closed (pos + s.text.length) (tail.drop n) := after_text (t := .string s) (hs ▸ h)
  have hlt : n < tail.length := by simpa using hrest.ne_nil
  have hlen : s.text.length = n + 1 := by
    have := congrArg List.length hs
    rw [List.length_cons, List.length_append, List.length_drop] at this
    omega
  exact ⟨s, hs, hlen, by rwa [hlen] at hrest⟩

theorem after_element {k : Nat} {v : Value} (h : Closed pos (b :: tail))
    (hn : elementTail pos (b :: tail) = .ok n) (hv : value k pos (b :: tail.take n) = .ok v) :
    ∃ t : ParseTree, b :: tail = t.text ++ tail.drop n ∧ t.text.length = n + 1 ∧
      Closed (pos + n + 1) (tail.drop n) := by
  obtain ⟨hlt, hclose⟩ := of_elementTail hn
  obtain ⟨t, htext, -⟩ := readsDerived_value k hv hclose
  have hbody : b :: tail = t.text ++ tail.drop n := by
    rw [htext, List.cons_append, List.take_append_drop]
  have hlen : t.text.length = n + 1 := by
    rw [htext, List.length_cons, List.length_take]
    omega
  have hrest : Closed (pos + t.text.length) (tail.drop n) := after_text (hbody ▸ h)
  exact ⟨t, hbody, hlen, by rwa [hlen] at hrest⟩

/-- Inside of a container. -/
theorem inner (h : Closed pos (b :: tail)) (hn : elementTail pos (b :: tail) = .ok n)
    (hlead : Lead.of b = .list ∨ Lead.of b = .dict) : Closed (pos + 1) (tail.take n) := by
  obtain ⟨i, hclosing, -, -, hinner⟩ := h.exists_closing (.inr hlead)
  obtain ⟨hsize, -⟩ := elementTail_eq_ok_iff.mp hn
  rw [elementSize_of_closing hlead hclosing] at hsize
  cases hsize
  exact hinner

end Closed

end BitTorrent.Bencode
