import BitTorrent.Proofs.Bencode.Acceptance

/-! An unexpected byte is told with its offset. Whatever stops at a byte of its input, be it the
bracket scan, the walk over a dictionary or the reader of one element, counts its bytes
from where the input starts, so the offset in the error leads back to the byte. -/

namespace BitTorrent.Bencode

/-- If the error names a byte, that byte is in `rest`, which starts at `pos`, at the offset that
the error names. -/
def Error.Points (pos : Nat) (rest : Bytes) (e : Error) : Prop :=
  ∀ b o, e = .unexpectedByte b o → ∃ i, o = pos + i ∧ rest[i]? = some b

namespace Error.Points

variable {pos n : Nat} {b : UInt8} {rest tail : Bytes} {e : Error}

theorem head (pos : Nat) (b : UInt8) (tail : Bytes) :
    (Error.unexpectedByte b pos).Points pos (b :: tail) := by
  intro c o h
  cases h
  exact ⟨0, rfl, rfl⟩

theorem of_drop (h : e.Points (pos + n) (rest.drop n)) : e.Points pos rest := by
  intro b o he
  obtain ⟨i, rfl, hi⟩ := h b o he
  exact ⟨n + i, Nat.add_assoc pos n i, by rwa [List.getElem?_drop] at hi⟩

theorem of_cons (h : e.Points (pos + 1) tail) : e.Points pos (b :: tail) := of_drop (n := 1) h

end Error.Points

variable {pos : Nat} {rest : Bytes} {e : Error}

/-! ### Tokens -/

namespace ByteString

theorem points_of_lengthPrefix (h : lengthPrefix pos rest = .error e) : e.Points pos rest := by
  have hrest := List.takeWhile_append_dropWhile (p := Decimal.isDigit) (l := rest)
  simp only [lengthPrefix] at h
  generalize rest.takeWhile Decimal.isDigit = digits at h hrest
  generalize rest.dropWhile Decimal.isDigit = after at h hrest
  subst hrest
  split at h
  · cases h
    rintro _ _ ⟨⟩
  · rename_i b after
    split at h
    · split at h
      · cases h
      · cases h
        rintro _ _ ⟨⟩
    · cases h
      refine .of_drop (n := digits.length) ?_
      rw [List.drop_left]
      exact .head _ b after

theorem points_of_token (h : token pos rest = .error e) : e.Points pos rest := by
  rcases bind_eq_error_iff.mp h with hprefix | ⟨⟨n, read, after⟩, -, h⟩
  · exact points_of_lengthPrefix hprefix
  · dsimp only at h
    split at h
    · cases h
    · cases h
      rintro _ _ ⟨⟩

theorem points_of_payload {exact : Bool} (h : payload exact rest = .error e) :
    e.Points 0 rest := by
  rcases bind_eq_error_iff.mp h with hprefix | ⟨⟨n, read, after⟩, -, h⟩
  · exact points_of_lengthPrefix hprefix
  · dsimp only at h
    split at h
    · cases h
      rintro _ _ ⟨⟩
    · cases h

theorem ne_unterminated_of_payload {exact : Bool} (h : payload exact rest = .error e) (o : Nat) :
    e ≠ .unterminatedContainer o := by
  rintro rfl
  rcases bind_eq_error_iff.mp h with hprefix | ⟨⟨n, read, after⟩, -, h⟩
  · simp only [lengthPrefix] at hprefix
    repeat' split at hprefix
    all_goals cases hprefix
  · dsimp only at h
    split at h <;> cases h

end ByteString

theorem Integer.malformed_of_decode {data : Bytes} (h : Integer.decode data = .error e) :
    ∃ f, e = .malformedInteger f := by
  have hbody {body : Bytes} (h : Integer.ofBody body = .error e) :
      ∃ f, e = .malformedInteger f := by
    simp only [Integer.ofBody] at h
    repeat' split at h
    all_goals cases h
    all_goals exact ⟨_, rfl⟩
  unfold Integer.decode at h
  split at h
  · exact hbody h
  · cases h
    exact ⟨_, rfl⟩

/-! ### The bracket scan -/

theorem Scan.points_of_run {level : Nat} {within : Within}
    (h : run level within pos rest = .error e) :
    e.Points pos rest := by
  induction rest generalizing level within pos with
  | nil =>
    cases h
    rintro _ _ ⟨⟩
  | cons b rest ih =>
    rw [run] at h
    split at h
    · cases h
    · exact .of_cons (ih h)
    · cases h
      exact .head pos b rest
    · cases h
      rintro _ _ ⟨⟩

theorem points_of_closing (h : closing pos rest = .error e) : e.Points pos rest := by
  cases rest with
  | nil =>
    cases h
    rintro _ _ ⟨⟩
  | cons b tail =>
    simp only [closing] at h
    split at h
    · exact .of_cons (Scan.points_of_run h)
    · exact .of_cons (Scan.points_of_run h)
    · exact .of_cons (Scan.points_of_run h)
    · cases h
      exact .head pos b tail

/-- The scan runs out of input or comes to a byte that it does not know. -/
theorem Scan.error_cases {level : Nat} {within : Within}
    (h : run level within pos rest = .error e) :
    e = .truncatedInput ∨ ∃ b o, e = .unexpectedByte b o := by
  induction rest generalizing level within pos with
  | nil =>
    cases h
    exact .inl rfl
  | cons b rest ih =>
    rw [run] at h
    split at h
    · cases h
    · exact ih h
    · cases h
      exact .inr ⟨b, pos, rfl⟩
    · cases h
      exact .inl rfl

theorem closing_error_cases (h : closing pos rest = .error e) :
    e = .truncatedInput ∨ ∃ b o, e = .unexpectedByte b o := by
  cases rest with
  | nil =>
    cases h
    exact .inl rfl
  | cons b tail =>
    simp only [closing] at h
    split at h
    · exact Scan.error_cases h
    · exact Scan.error_cases h
    · exact Scan.error_cases h
    · cases h
      exact .inr ⟨b, pos, rfl⟩

/-! ### The walk over a dictionary -/

theorem points_of_valueSize (h : valueSize pos rest = .error e) : e.Points pos rest := by
  cases rest with
  | nil =>
    cases h
    rintro _ _ ⟨⟩
  | cons b tail =>
    simp only [valueSize] at h
    split at h
    · exact points_of_closing (bind_pure_eq_error_iff.mp h)
    · exact points_of_closing (bind_pure_eq_error_iff.mp h)
    · exact points_of_closing (bind_pure_eq_error_iff.mp h)
    · exact ByteString.points_of_token (bind_pure_eq_error_iff.mp h)
    · cases h
      exact .head pos b tail

theorem points_of_lastSpan {key : Bytes} {found : Option Span}
    (h : lastSpan key found pos rest = .error e) : e.Points pos rest := by
  fun_induction lastSpan key found pos rest with
  | case1 =>
    cases h
    rintro _ _ ⟨⟩
  | case2 => cases h
  | case3 =>
    cases h
    rintro _ _ ⟨⟩
  | case4 =>
    cases h
    rintro _ _ ⟨⟩
  | case5 =>
    cases h
    rintro _ _ ⟨⟩
  | case6 found pos b tail d hlead ih =>
    rcases bind_eq_error_iff.mp h with h | ⟨token, htoken, h⟩
    · exact ByteString.points_of_token h
    obtain ⟨s, hs, -, hsize⟩ := ByteString.exists_of_token htoken
    have hrest : token.rest = (b :: tail).drop token.size := by
      rw [hs, ← hsize, List.drop_left]
    rcases bind_eq_error_iff.mp h with h | ⟨size, -, h⟩
    · refine .of_drop (n := token.size) ?_
      rw [← hrest]
      exact points_of_valueSize h
    · have hpos : 0 < token.size := by
        obtain ⟨c, w, -, hc, -⟩ := s.exists_text_eq_cons
        rw [← hsize, hc]
        exact Nat.succ_pos _
      have hnext : token.size + size = token.size + size - 1 + 1 := by omega
      refine .of_drop (n := token.size + size) ?_
      rw [hnext, List.drop_succ_cons, ← hnext, ← Nat.add_assoc]
      exact ih token size h
  | case7 _ pos b tail =>
    cases h
    exact .head pos b tail

theorem points_of_spanOf {data key : Bytes} (h : spanOf data key = .error e) : e.Points 0 data := by
  cases data with
  | nil =>
    cases h
    rintro _ _ ⟨⟩
  | cons b tail =>
    simp only [spanOf] at h
    split at h
    · exact .of_cons (points_of_lastSpan h)
    · cases h
      exact .head 0 b tail

/-! ### One element -/

theorem points_of_elementSize {b : UInt8} {tail : Bytes} (h : elementSize pos b tail = .error e) :
    e.Points pos (b :: tail) := by
  simp only [elementSize] at h
  split at h
  · split at h
    · cases h
    · cases h
      rintro _ _ ⟨⟩
  · exact points_of_closing (bind_pure_eq_error_iff.mp h)
  · exact points_of_closing (bind_pure_eq_error_iff.mp h)
  · exact ByteString.points_of_token (bind_pure_eq_error_iff.mp h)
  · cases h
    exact .head pos b tail

theorem points_of_elementTail (h : elementTail pos rest = .error e) : e.Points pos rest := by
  cases rest with
  | nil =>
    cases h
    rintro _ _ ⟨⟩
  | cons b tail =>
    rcases bind_eq_error_iff.mp h with h | ⟨n, -, h⟩
    · exact points_of_elementSize h
    · split at h
      · cases h
        rintro _ _ ⟨⟩
      · cases h

theorem points_of_key (h : key pos rest = .error e) : e.Points pos rest := by
  cases rest with
  | nil =>
    cases h
    rintro _ _ ⟨⟩
  | cons b tail =>
    simp only [key] at h
    split at h
    · rcases bind_eq_error_iff.mp h with h | ⟨token, -, h⟩
      · exact ByteString.points_of_token h
      · split at h
        · cases h
          rintro _ _ ⟨⟩
        · cases h
    · cases h
      rintro _ _ ⟨⟩
    · cases h
      rintro _ _ ⟨⟩
    · cases h
      rintro _ _ ⟨⟩
    · cases h
      exact .head pos b tail

end BitTorrent.Bencode
