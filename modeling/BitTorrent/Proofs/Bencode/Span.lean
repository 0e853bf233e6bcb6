import BitTorrent.Proofs.Bencode.Extent

/-! The walk over the entries of a dictionary. On a derived dictionary it answers exactly
where the value of the last entry with the key stands, and nothing if no entry has the
key; what comes before that entry and after it does not matter. -/

namespace BitTorrent.Bencode

open ParseTree

variable {key : Bytes} {t : ParseTree}

theorem valueSize_text (t : ParseTree) (pos : Nat) (rest : Bytes) :
    valueSize pos (t.text ++ rest) = .ok t.text.length := by
  rcases t.string_or_bracketed with ⟨s, rfl⟩ | ⟨hs, b, htext, hlead⟩
  · obtain ⟨b, w, d, htext, hlead⟩ := s.exists_text_eq_cons
    have htoken := ByteString.token_text pos s rest
    have hs : (string s).text = s.text := rfl
    rw [hs]
    rw [htext, List.cons_append] at htoken ⊢
    simp only [valueSize, hlead, htoken, ok_bind]
    rfl
  · have hclosing := closing_text hs pos rest
    have hlen : 0 < t.text.length := by simp [htext]
    have hsize : valueSize pos (t.text ++ rest) =
        (closing pos (t.text ++ rest) >>= fun stop => pure (stop + 1 - pos)) := by
      rw [htext, List.cons_append]
      rcases hlead with hlead | hlead | hlead <;> simp only [valueSize, hlead]
    rw [hsize, hclosing, ok_bind]
    show Except.ok (pos + t.text.length - 1 + 1 - pos) = _
    congr 1
    omega

/-! ### Entries one after the other -/

section Entries

variable (found : Option Span) (pos : Nat) (rest : Bytes)

/-- One entry is passed over, and its value kept if it has the key. -/
theorem lastSpan_cons (key : Bytes) (k : StringForm) (t : ParseTree) :
    lastSpan key found pos (k.text ++ t.text ++ rest) =
      lastSpan key
        (if k.payload = key then
          some ⟨pos + k.text.length, pos + k.text.length + t.text.length⟩ else found)
        (pos + k.text.length + t.text.length) rest := by
  obtain ⟨b, w, d, htext, hlead⟩ := k.exists_text_eq_cons
  have htoken := ByteString.token_text pos k (t.text ++ rest)
  have hsize := valueSize_text t (pos + k.text.length) rest
  have hdrop : (w ++ (t.text ++ rest)).drop (k.text.length + t.text.length - 1) = rest := by
    have hlen : k.text.length + t.text.length - 1 = (w ++ t.text).length := by
      rw [htext, List.length_cons, List.length_append]
      omega
    rw [← List.append_assoc, hlen, List.drop_left]
  have hinput : k.text ++ t.text ++ rest = b :: (w ++ (t.text ++ rest)) := by
    rw [htext, List.append_assoc, List.cons_append]
  rw [htext, List.cons_append, ← htext] at htoken
  rw [hinput, lastSpan]
  simp only [hlead, htoken, hsize, ok_bind, hdrop]

/-- Where the entries end, what was found last is the answer. -/
theorem lastSpan_close (key : Bytes) : lastSpan key found pos (0x65 :: rest) = .ok found := by
  rw [lastSpan]
  rfl

theorem exists_lastSpan_entries (key : Bytes) (es : List (StringForm × ParseTree)) :
    ∃ found', lastSpan key found pos (textOfEntries es ++ rest) =
      lastSpan key found' (pos + (textOfEntries es).length) rest := by
  induction es generalizing found pos with
  | nil => exact ⟨found, rfl⟩
  | cons e es ih =>
    obtain ⟨k, t⟩ := e
    obtain ⟨found', h⟩ := ih (if k.payload = key then
      some ⟨pos + k.text.length, pos + k.text.length + t.text.length⟩ else found)
      (pos + k.text.length + t.text.length)
    refine ⟨found', ?_⟩
    rw [textOfEntries, List.append_assoc, lastSpan_cons, h]
    simp only [List.length_append, Nat.add_assoc]

variable {found pos rest} in
/-- Entries with other keys change nothing. -/
theorem lastSpan_of_ne {es : List (StringForm × ParseTree)} (h : ∀ e ∈ es, e.1.payload ≠ key) :
    lastSpan key found pos (textOfEntries es ++ rest) =
      lastSpan key found (pos + (textOfEntries es).length) rest := by
  induction es generalizing pos with
  | nil => rfl
  | cons e es ih =>
    obtain ⟨k, t⟩ := e
    obtain ⟨hk, hes⟩ := List.forall_mem_cons.mp h
    rw [textOfEntries, List.append_assoc, lastSpan_cons, if_neg hk, ih hes]
    simp only [List.length_append, Nat.add_assoc]

end Entries

/-! ### The last entry with a key -/

/-- The value of the last `key` in the dictionary that `data` is has the bytes `raw`. -/
def LastValue (data key raw : Bytes) : Prop :=
  ∃ (before after : List (StringForm × ParseTree)) (k : StringForm) (t : ParseTree),
    data = 0x64 :: textOfEntries before ++ k.text ++ raw ++ textOfEntries after ++ [0x65] ∧
      k.payload = key ∧ t.text = raw ∧ ∀ e ∈ after, e.1.payload ≠ key

theorem text_dict_append_cons (before after : List (StringForm × ParseTree)) (k : StringForm)
    (t : ParseTree) : (dict (before ++ (k, t) :: after)).text =
      0x64 :: textOfEntries before ++ k.text ++ t.text ++ textOfEntries after ++ [0x65] := by
  rw [text, textOfEntries_append, textOfEntries]
  simp only [List.cons_append, List.append_assoc]

/-- Some entry has the key last, or none has it. -/
theorem exists_last_or_forall_ne (key : Bytes) (es : List (StringForm × ParseTree)) :
    (∃ before k t after, es = before ++ (k, t) :: after ∧ k.payload = key ∧
      ∀ e ∈ after, e.1.payload ≠ key) ∨ ∀ e ∈ es, e.1.payload ≠ key := by
  induction es with
  | nil => exact .inr nofun
  | cons e es ih =>
    rcases ih with ⟨before, k, t, after, rfl, hk, hafter⟩ | hes
    · exact .inl ⟨e :: before, k, t, after, rfl, hk, hafter⟩
    · by_cases he : e.1.payload = key
      · exact .inl ⟨[], e.1, e.2, es, rfl, he, hes⟩
      · exact .inr (List.forall_mem_cons.mpr ⟨he, hes⟩)

theorem Span.of_append {span : Span} (front mid back : Bytes) (hstart : span.start = front.length)
    (hstop : span.stop = span.start + mid.length) : span.of (front ++ mid ++ back) = mid := by
  rw [Span.of, hstop, Nat.add_sub_cancel_left, hstart, List.append_assoc, List.drop_left,
    List.take_left]

/-- The value of the last `key` in the dictionary that `data` is stands at `span`. -/
def LastSpan (data key : Bytes) (span : Span) : Prop :=
  ∃ (before after : List (StringForm × ParseTree)) (k : StringForm) (t : ParseTree),
    data = 0x64 :: textOfEntries before ++ k.text ++ t.text ++ textOfEntries after ++ [0x65] ∧
      k.payload = key ∧ (∀ e ∈ after, e.1.payload ≠ key) ∧
      span.start = (0x64 :: textOfEntries before ++ k.text).length ∧
      span.stop = span.start + t.text.length

theorem LastSpan.lastValue {data : Bytes} {span : Span} (h : LastSpan data key span) :
    LastValue data key (span.of data) := by
  obtain ⟨before, after, k, t, rfl, hk, hafter, hstart, hstop⟩ := h
  have hraw := Span.of_append (0x64 :: textOfEntries before ++ k.text) t.text
    (textOfEntries after ++ [0x65]) hstart hstop
  rw [← List.append_assoc] at hraw
  exact ⟨before, after, k, t, by rw [hraw], hk, hraw.symm, hafter⟩

/-- The span lies within the brackets of the dictionary and is not empty. -/
theorem LastSpan.bounds {data : Bytes} {span : Span} (h : LastSpan data key span) :
    1 ≤ span.start ∧ span.start < span.stop ∧ span.stop < data.length := by
  obtain ⟨before, after, k, t, rfl, -, -, hstart, hstop⟩ := h
  obtain ⟨b, w, ht⟩ := t.exists_text_eq
  have hpos : 0 < t.text.length := by simp [ht]
  simp only [List.length_append, List.length_cons, List.length_nil] at hstart ⊢
  omega

theorem LastValue.exists_lastSpan {data raw : Bytes} (h : LastValue data key raw) :
    ∃ span, LastSpan data key span ∧ span.of data = raw := by
  obtain ⟨before, after, k, t, rfl, hk, rfl, hafter⟩ := h
  refine ⟨⟨(0x64 :: textOfEntries before ++ k.text).length,
    (0x64 :: textOfEntries before ++ k.text).length + t.text.length⟩,
    ⟨before, after, k, t, rfl, hk, hafter, rfl, rfl⟩, ?_⟩
  rw [List.append_assoc _ (textOfEntries after) [0x65]]
  exact Span.of_append _ t.text _ rfl rfl

/-- The walk finds where the last value stands, and no other place. -/
theorem spanOf_of_lastSpan {data : Bytes} {span : Span} (h : LastSpan data key span) :
    spanOf data key = .ok (some span) := by
  obtain ⟨before, after, k, t, rfl, rfl, hafter, hstart, hstop⟩ := h
  obtain ⟨found, hbefore⟩ := exists_lastSpan_entries none 1
    (k.text ++ t.text ++ (textOfEntries after ++ [0x65])) k.payload before
  have hinput : 0x64 :: textOfEntries before ++ k.text ++ t.text ++ textOfEntries after ++ [0x65] =
      0x64 :: (textOfEntries before ++ (k.text ++ t.text ++ (textOfEntries after ++ [0x65]))) := by
    simp only [List.cons_append, List.append_assoc]
  have hstart' : 1 + (textOfEntries before).length + k.text.length = span.start := by
    simp only [List.length_append, List.length_cons] at hstart
    omega
  rw [hinput]
  simp only [spanOf, Lead.of_d]
  rw [hbefore, lastSpan_cons, if_pos rfl, lastSpan_of_ne hafter, lastSpan_close, hstart', ← hstop]

theorem spanOf_of_lastValue {data raw : Bytes} (h : LastValue data key raw) :
    ∃ span, spanOf data key = .ok (some span) ∧ span.of data = raw := by
  obtain ⟨span, hspan, hraw⟩ := h.exists_lastSpan
  exact ⟨span, spanOf_of_lastSpan hspan, hraw⟩

theorem spanOf_of_forall_ne {es : List (StringForm × ParseTree)}
    (h : ∀ e ∈ es, e.1.payload ≠ key) : spanOf (dict es).text key = .ok none := by
  rw [text, List.cons_append]
  simp only [spanOf, Lead.of_d]
  rw [lastSpan_of_ne h, lastSpan_close]

/-- The value of a key has the same bytes in whatever way the dictionary is derived. -/
theorem LastValue.unique {data raw raw' : Bytes} (h : LastValue data key raw)
    (h' : LastValue data key raw') : raw = raw' := by
  obtain ⟨span, hspan, rfl⟩ := spanOf_of_lastValue h
  obtain ⟨span', hspan', rfl⟩ := spanOf_of_lastValue h'
  have hsame : span = span' := by simpa [hspan] using hspan'
  rw [hsame]

end BitTorrent.Bencode
