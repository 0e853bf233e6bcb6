import BitTorrent.Proofs.Bencode.Parser

/-! What the reader accepts is derived by the grammar. An element is cut off the input before it
is read, so every reading of exact bytes is a statement about these bytes alone, and
only containers need to know more of them: that the last one is an `e`. Main statement:
a whole input is accepted with a value exactly when the grammar derives it with that
value and no more containers open at once than the options allow. -/

namespace BitTorrent.Bencode

open ParseTree

/-! ### One element -/

/-- A container ends at an `e`. -/
theorem exists_of_elementSize {pos n : Nat} {b : UInt8} {tail : Bytes}
    (hlead : Lead.of b = .list ∨ Lead.of b = .dict) (h : elementSize pos b tail = .ok n) :
    ∃ i, n = i + 1 ∧ tail[i]? = some 0x65 := by
  have hclosing : (closing pos (b :: tail) >>= fun stop => pure (stop - pos)) = .ok n := by
    rcases hlead with hlead | hlead <;> simpa only [elementSize, hlead] using h
  obtain ⟨stop, hstop, hn⟩ := bind_eq_ok_iff.mp hclosing
  obtain ⟨i, rfl, hi⟩ := exists_of_closing hstop
  cases hn
  exact ⟨i, by omega, hi⟩

theorem elementTail_eq_ok_iff {pos n : Nat} {b : UInt8} {tail : Bytes} :
    elementTail pos (b :: tail) = .ok n ↔ elementSize pos b tail = .ok n ∧ n < tail.length := by
  constructor
  · intro h
    obtain ⟨m, hm, h⟩ := bind_eq_ok_iff.mp h
    split at h
    · cases h
    · cases h
      exact ⟨hm, by simpa using ‹¬(tail.drop n).isEmpty = true›⟩
  · rintro ⟨hn, hlt⟩
    rw [elementTail, hn, ok_bind, if_neg (by simpa using hlt)]

/-- An element ends within the body, and a container at an `e`. -/
theorem of_elementTail {pos n : Nat} {b : UInt8} {tail : Bytes}
    (h : elementTail pos (b :: tail) = .ok n) :
    n < tail.length ∧
      (Lead.of b = .list ∨ Lead.of b = .dict → (b :: tail.take n).getLast? = some 0x65) := by
  obtain ⟨hn, hlt⟩ := elementTail_eq_ok_iff.mp h
  refine ⟨hlt, fun hlead => ?_⟩
  obtain ⟨i, rfl, hi⟩ := exists_of_elementSize hlead hn
  have hlen : (tail.take (i + 1)).length = i + 1 := by rw [List.length_take]; omega
  rw [List.getLast?_eq_getElem?, List.length_cons, hlen]
  simpa using hi

/-- A key is a byte string of the grammar at the head of the body. -/
theorem exists_of_key {pos n : Nat} {b : UInt8} {tail k : Bytes}
    (h : key pos (b :: tail) = .ok (k, n)) :
    ∃ s : StringForm, s.payload = k ∧ b :: tail = s.text ++ tail.drop n := by
  simp only [key] at h
  split at h
  · obtain ⟨token, htoken, h⟩ := bind_eq_ok_iff.mp h
    split at h
    · cases h
    · cases h
      obtain ⟨s, hs, hpayload, hsize⟩ := ByteString.exists_of_token htoken
      refine ⟨s, hpayload, ?_⟩
      obtain ⟨c, w, -, hc, -⟩ := s.exists_text_eq_cons
      rw [hc, List.cons_append] at hs
      obtain ⟨rfl, rfl⟩ := List.cons.inj hs
      rw [← hsize, hc, List.length_cons, Nat.add_sub_cancel, List.drop_left, List.cons_append]
  all_goals cases h

/-! ### Containers -/

section Containers

variable {k : Nat} {f : Nat → Bytes → Except Error Value}

/-- Whatever `f` reads from exact bytes has a derivation with at most `k` open containers. -/
def ReadsDerived (k : Nat) (f : Nat → Bytes → Except Error Value) : Prop :=
  ∀ ⦃pos : Nat⦄ ⦃b : UInt8⦄ ⦃w : Bytes⦄ ⦃v : Value⦄, f pos (b :: w) = .ok v →
    (Lead.of b = .list ∨ Lead.of b = .dict → (b :: w).getLast? = some 0x65) →
    ∃ t : ParseTree, t.text = b :: w ∧ t.value = v ∧ t.depth ≤ k

theorem exists_of_items (hf : ReadsDerived k f) {pos : Nat} {body : Bytes} {vs : List Value}
    (h : items f pos body = .ok vs) (hlast : body.getLast? = some 0x65) :
    ∃ ts : List ParseTree, textOfItems ts ++ [0x65] = body ∧ valuesOfItems ts = vs ∧
      depthOfItems ts ≤ k := by
  fun_induction items f pos body generalizing vs with
  | case1 => cases hlast
  | case2 =>
    cases h
    exact ⟨[], by simpa [textOfItems, eq_comm] using hlast, rfl, Nat.zero_le k⟩
  | case3 pos b tail hne ih =>
    obtain ⟨n, hn, h⟩ := bind_eq_ok_iff.mp h
    obtain ⟨v, hv, h⟩ := bind_eq_ok_iff.mp h
    obtain ⟨vs', hvs, h⟩ := bind_eq_ok_iff.mp h
    cases h
    obtain ⟨hlt, hclose⟩ := of_elementTail hn
    obtain ⟨t, htext, rfl, hdepth⟩ := hf hv hclose
    have hrest : (tail.drop n).getLast? = some 0x65 := by
      rwa [List.getLast?_drop, if_neg (by omega), ← List.getLast?_cons_of_ne_nil hne]
    obtain ⟨ts, htexts, rfl, hdepths⟩ := ih n hvs hrest
    refine ⟨t :: ts, ?_, rfl, by simp only [depthOfItems]; omega⟩
    rw [textOfItems, htext, List.append_assoc, htexts, List.cons_append, List.take_append_drop]

theorem exists_of_entries (hf : ReadsDerived k f) {pos : Nat} {body : Bytes}
    {es : List (Bytes × Value)} (h : entries f pos body = .ok es)
    (hlast : body.getLast? = some 0x65) :
    ∃ ts : List (StringForm × ParseTree), textOfEntries ts ++ [0x65] = body ∧
      valuesOfEntries ts = es ∧ depthOfEntries ts ≤ k := by
  fun_induction entries f pos body generalizing es with
  | case1 => cases hlast
  | case2 =>
    cases h
    exact ⟨[], by simpa [textOfEntries, eq_comm] using hlast, rfl, Nat.zero_le k⟩
  | case3 pos b tail hne ih =>
    obtain ⟨⟨key', n⟩, hkey, h⟩ := bind_eq_ok_iff.mp h
    obtain ⟨s, rfl, hbody⟩ := exists_of_key hkey
    dsimp only at h
    split at h
    · cases h
    · cases h
    · rename_i c more hmore hdrop
      obtain ⟨m, hm, h⟩ := bind_eq_ok_iff.mp h
      obtain ⟨v, hv, h⟩ := bind_eq_ok_iff.mp h
      obtain ⟨es', hes, h⟩ := bind_eq_ok_iff.mp h
      cases h
      obtain ⟨hlt, hclose⟩ := of_elementTail hm
      obtain ⟨t, htext, rfl, hdepth⟩ := hf hv hclose
      have hrest : (more.drop m).getLast? = some 0x65 := by
        have htail : tail.length = n + (more.length + 1) := by
          have := congrArg List.length hdrop
          rw [List.length_drop, List.length_cons] at this
          omega
        rw [List.getLast?_drop, if_neg (by omega), ← List.getLast?_cons_of_ne_nil hmore, ← hdrop,
          List.getLast?_drop, if_neg (by omega), ← List.getLast?_cons_of_ne_nil hne, hlast]
      obtain ⟨ts, htexts, rfl, hdepths⟩ := ih n c more hdrop m hes hrest
      refine ⟨(s, t) :: ts, ?_, rfl, by simp only [depthOfEntries]; omega⟩
      rw [hbody, hdrop, textOfEntries, htext, List.append_assoc, htexts, List.append_assoc,
        List.cons_append, List.take_append_drop]

end Containers

/-! ### Whole values -/

theorem exists_of_value_leaf {k pos : Nat} {b : UInt8} {w : Bytes} {v : Value}
    (h : value k pos (b :: w) = .ok v) (hlead : ¬(Lead.of b = .list ∨ Lead.of b = .dict)) :
    ∃ t : ParseTree, t.text = b :: w ∧ t.value = v ∧ t.depth ≤ k := by
  unfold value at h
  split at h
  · obtain ⟨n, hn, rfl⟩ := map_eq_ok_iff.mp h
    obtain ⟨i, htext, rfl⟩ := Integer.decode_eq_ok_iff.mp hn
    exact ⟨.integer i, htext, rfl, Nat.zero_le k⟩
  · obtain ⟨p, hp, rfl⟩ := map_eq_ok_iff.mp h
    obtain ⟨s, htext, rfl⟩ := ByteString.decode_eq_ok_iff.mp hp
    exact ⟨.string s, htext, rfl, Nat.zero_le k⟩
  · exact absurd (.inl ‹_›) hlead
  · exact absurd (.inr ‹_›) hlead
  · cases h

/-- What is read from exact bytes has a derivation, if a container is known to end in `e`. -/
theorem readsDerived_value (k : Nat) : ReadsDerived k (value k) := by
  induction k with
  | zero =>
    intro pos b w v h hclose
    by_cases hlead : Lead.of b = .list ∨ Lead.of b = .dict
    · rcases hlead with hlead | hlead <;> simp only [value, hlead] at h <;> cases h
    · exact exists_of_value_leaf h hlead
  | succ k ih =>
    intro pos b w v h hclose
    by_cases hlead : Lead.of b = .list ∨ Lead.of b = .dict
    · have hlast : w.getLast? = some 0x65 := by
        have hw : w ≠ [] := by
          rintro rfl
          obtain rfl : b = 0x65 := by simpa using hclose hlead
          exact absurd hlead (by decide)
        rw [← hclose hlead, List.getLast?_cons_of_ne_nil hw]
      rcases hlead with hlead | hlead
      · simp only [value, hlead] at h
        obtain ⟨vs, hvs, rfl⟩ := map_eq_ok_iff.mp h
        obtain ⟨ts, rfl, rfl, hdepth⟩ := exists_of_items ih hvs hlast
        obtain rfl := Lead.of_eq_list_iff.mp hlead
        exact ⟨.list ts, rfl, rfl, by simp only [depth]; omega⟩
      · simp only [value, hlead] at h
        obtain ⟨es, hes, rfl⟩ := map_eq_ok_iff.mp h
        obtain ⟨ts, rfl, rfl, hdepth⟩ := exists_of_entries ih hes hlast
        obtain rfl := Lead.of_eq_dict_iff.mp hlead
        exact ⟨.dict ts, rfl, rfl, by simp only [depth]; omega⟩
    · exact exists_of_value_leaf h hlead

/-! ### Whole inputs -/

/-- Once the closing byte of a container is known to be the last, only reading is left. -/
theorem decode_eq_value {options : Options} {b : UInt8} {w : Bytes}
    (hexact : ∀ d, Lead.of b = .digit d → options.exactLength = true)
    (hclose : Lead.of b = .list ∨ Lead.of b = .dict →
      closingAt (b :: w) 0 = .ok w.length) :
    options.decode (b :: w) = value (options.maxDepth + 1) 0 (b :: w) := by
  cases hlead : Lead.of b with
  | integer => simp only [Options.decode, value, hlead]
  | digit d =>
    simp only [Options.decode, value, hlead, hexact d hlead]
    rfl
  | list =>
    simp only [Options.decode, hlead, hclose (.inl hlead), ok_bind]
    rw [if_neg (by simp)]
  | dict =>
    simp only [Options.decode, hlead, hclose (.inr hlead), ok_bind]
    rw [if_neg (by simp)]
  | _ => simp only [Options.decode, value, hlead]

/-- A container is accepted only when its closing byte is the last of the input. -/
theorem closingAt_of_decode {options : Options} {b : UInt8} {w : Bytes} {v : Value}
    (h : options.decode (b :: w) = .ok v) (hlead : Lead.of b = .list ∨ Lead.of b = .dict) :
    closingAt (b :: w) 0 = .ok w.length := by
  have hstop : ∃ stop, closingAt (b :: w) 0 = .ok stop ∧ stop + 1 = (b :: w).length := by
    unfold Options.decode at h
    rcases hlead with hlead | hlead
    all_goals
      simp only [hlead] at h
      obtain ⟨stop, hstop, h⟩ := bind_eq_ok_iff.mp h
      split at h
      · cases h
      · exact ⟨stop, hstop, by omega⟩
  obtain ⟨stop, hstop, hlen⟩ := hstop
  rw [hstop, Nat.add_right_cancel (hlen.trans List.length_cons)]

/-- The bytes of a derived value are accepted under any options, unless it is nested too deep. -/
theorem decode_text (options : Options) (t : ParseTree) :
    options.decode t.text = withinDepth (options.maxDepth + 1) t.depth t.value := by
  rcases t.string_or_bracketed with ⟨s, rfl⟩ | ⟨hs, b, htext, hlead⟩
  · obtain ⟨b, w, d, htext, hlead⟩ := s.exists_text_eq_cons
    have hpayload := ByteString.payload_text options.exactLength s
    have hs : (string s).text = b :: w := htext
    rw [htext] at hpayload
    rw [hs]
    simp only [Options.decode, hlead, hpayload]
    rfl
  · have hclosing := closing_text hs 0 []
    rw [List.append_nil, htext, List.length_cons, Nat.zero_add, Nat.add_sub_cancel] at hclosing
    rw [htext, decode_eq_value _ fun _ => hclosing, ← htext, value_text]
    intro d hd
    simp [hd] at hlead

/-- An accepted input has a derivation with its value. -/
theorem exists_of_decode {options : Options} (hexact : options.exactLength = true) {data : Bytes}
    {v : Value} (h : options.decode data = .ok v) :
    ∃ t : ParseTree, t.text = data ∧ t.value = v ∧ t.depth ≤ options.maxDepth + 1 := by
  cases data with
  | nil => cases h
  | cons b w =>
    have hclose := closingAt_of_decode h
    rw [decode_eq_value (fun _ _ => hexact) hclose] at h
    refine readsDerived_value (options.maxDepth + 1) h fun hlead => ?_
    obtain ⟨i, hi, hget⟩ := exists_of_closing (hclose hlead)
    rw [List.getLast?_eq_getElem?, List.length_cons, Nat.add_sub_cancel, hi, Nat.zero_add,
      Nat.add_comm]
    exact hget

/-- A whole input is accepted exactly when the grammar derives it, with the value that the
derivation gives and at most one more container open at once than may enclose one. -/
theorem decode_eq_ok_iff_parseTree (maxDepth : Nat) (data : Bytes) (v : Value) :
    (Options.mk true maxDepth).decode data = .ok v ↔
      ∃ t : ParseTree, t.text = data ∧ t.value = v ∧ t.depth ≤ maxDepth + 1 := by
  constructor
  · intro h
    exact exists_of_decode rfl h
  · rintro ⟨t, rfl, rfl, hdepth⟩
    rw [decode_text, withinDepth, if_pos hdepth]

end BitTorrent.Bencode
