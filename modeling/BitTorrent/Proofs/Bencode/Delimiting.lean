import BitTorrent.Proofs.Bencode.Acceptance
import BitTorrent.Proofs.Bencode.Locality
import BitTorrent.Proofs.Bencode.Span

/-! A value tells where it ends. No value of the grammar is a proper prefix of another, so
of all inputs that begin alike at most one is accepted. A container that is cut short
is refused as truncated, wherever the cut is, and one with bytes after it as not ending
where the input does, whatever these bytes are. -/

namespace BitTorrent.Bencode

/-! ### The grammar -/

/-- No derived value goes on after another derived value. -/
theorem ParseTree.eq_nil_of_text_append {t u : ParseTree} {more : Bytes}
    (h : t.text ++ more = u.text) : more = [] := by
  -- One reader answers where both values end.
  have ht := valueSize_text t 0 more
  have hu := valueSize_text u 0 []
  rw [List.append_nil, ← h, ht] at hu
  have hlen : t.text.length = (t.text ++ more).length := Except.ok.inj hu
  rw [List.length_append] at hlen
  exact List.eq_nil_of_length_eq_zero (by omega)

/-- Of two inputs, one of them a prefix of the other, at most one is accepted. -/
theorem eq_of_decode_of_isPrefix {options : Options} (hexact : options.exactLength = true)
    {short long : Bytes} {v w : Value} (hv : options.decode short = .ok v)
    (hw : options.decode long = .ok w) (h : short <+: long) : short = long := by
  obtain ⟨t, rfl, -⟩ := exists_of_decode hexact hv
  obtain ⟨u, rfl, -⟩ := exists_of_decode hexact hw
  obtain ⟨more, hmore⟩ := h
  rw [← hmore, ParseTree.eq_nil_of_text_append hmore, List.append_nil]

/-! ### Containers -/

section Containers

variable {options : Options} {b : UInt8} {w : Bytes} {v : Value}

theorem Lead.of_head? (h : (b :: w).head? = some 0x6c ∨ (b :: w).head? = some 0x64) :
    Lead.of b = .list ∨ Lead.of b = .dict := by
  simpa only [Lead.of_eq_list_iff, Lead.of_eq_dict_iff, List.head?_cons, Option.some_inj] using h

theorem decode_container (hlead : Lead.of b = .list ∨ Lead.of b = .dict) (options : Options)
    (w : Bytes) :
    options.decode (b :: w) = (do
      let stop ← closingAt (b :: w) 0
      if stop + 1 ≠ (b :: w).length then .error (.unterminatedContainer (stop + 1))
      else value (options.maxDepth + 1) 0 (b :: w)) := by
  rcases hlead with hlead | hlead <;> simp only [Options.decode, hlead]

/-- A container that is cut short is refused as truncated. -/
theorem decode_of_isPrefix (h : options.decode (b :: w) = .ok v)
    (hlead : Lead.of b = .list ∨ Lead.of b = .dict) {cut : Bytes} (hcut : cut <+: b :: w)
    (hne : cut ≠ b :: w) : options.decode cut = .error .truncatedInput := by
  have hlen : cut.length < (b :: w).length :=
    Nat.lt_of_le_of_ne hcut.length_le fun hlen => hne (hcut.eq_of_length hlen)
  cases cut with
  | nil => rfl
  | cons c cut =>
    obtain ⟨rfl, -⟩ := List.cons_prefix_cons.mp hcut
    have hclosing : closingAt (c :: cut) 0 = .error .truncatedInput :=
      closing_of_isPrefix (closingAt_of_decode h hlead) hcut (by simp at hlen ⊢; omega)
    rw [decode_container hlead, hclosing]
    rfl

/-- A container with bytes after it is refused at the first of them. -/
theorem decode_append (h : options.decode (b :: w) = .ok v)
    (hlead : Lead.of b = .list ∨ Lead.of b = .dict) {more : Bytes} (hmore : more ≠ []) :
    options.decode (b :: w ++ more) = .error (.unterminatedContainer (b :: w).length) := by
  have hclosing : closingAt (b :: (w ++ more)) 0 = .ok w.length :=
    closing_append (closingAt_of_decode h hlead) more
  have hlen : 0 < more.length := List.length_pos_iff.mpr hmore
  rw [List.cons_append, decode_container hlead, hclosing, ok_bind, if_pos]
  · rfl
  · rw [List.length_cons, List.length_append]
    omega

end Containers

/-! ### Accepted inputs -/

/-- An accepted input is a prefix of no other accepted input and has none as a prefix. If it is
a container, whatever is cut off its end leaves it truncated, and whatever is put after it is
found to be there. -/
theorem decode_delimits_itself (data : Bytes) (v : Value) (h : decode data = .ok v) :
    (data.head? = some 0x6c ∨ data.head? = some 0x64 →
      (∀ cut, cut <+: data → cut ≠ data → decode cut = .error .truncatedInput) ∧
        ∀ more, more ≠ [] → decode (data ++ more) = .error (.unterminatedContainer data.length)) ∧
    (∀ cut, cut <+: data → cut ≠ data → ∀ w, decode cut ≠ .ok w) ∧
      ∀ more, more ≠ [] → ∀ w, decode (data ++ more) ≠ .ok w := by
  refine ⟨fun hhead => ?_, fun cut hcut hne w hw => ?_, fun more hmore w hw => ?_⟩
  · cases data with
    | nil => simp at hhead
    | cons b tail =>
      have hlead := Lead.of_head? hhead
      exact ⟨fun cut hcut hne => decode_of_isPrefix h hlead hcut hne,
        fun more hmore => decode_append h hlead hmore⟩
  · exact hne (eq_of_decode_of_isPrefix rfl hw h hcut)
  · have hsame := eq_of_decode_of_isPrefix rfl h hw (List.prefix_append data more)
    exact hmore (List.append_right_eq_self.mp hsame.symm)

/-- A list whose string holds brackets, cut inside of the string and followed by an empty list. -/
theorem decode_delimits_itself_of_brackets :
    decode [0x6c, 0x32, 0x3a, 0x65, 0x6c, 0x65] = .ok (.list [.bytes [0x65, 0x6c]]) ∧
      decode [0x6c, 0x32, 0x3a, 0x65] = .error .truncatedInput ∧
      decode [0x6c, 0x32, 0x3a, 0x65, 0x6c, 0x65, 0x6c, 0x65] =
        .error (.unterminatedContainer 6) := by
  let t : ParseTree := .list [.string (.ofPayload [0x65, 0x6c] (by decide))]
  have h : decode [0x6c, 0x32, 0x3a, 0x65, 0x6c, 0x65] = .ok (.list [.bytes [0x65, 0x6c]]) :=
    (decode_text .standard t).trans (if_pos (by decide))
  have hall := decode_delimits_itself _ _ h
  obtain ⟨hcut, hmore⟩ := hall.1 (.inl rfl)
  exact ⟨h, hcut _ (by decide) (by decide), hmore [0x6c, 0x65] (by decide)⟩

end BitTorrent.Bencode
