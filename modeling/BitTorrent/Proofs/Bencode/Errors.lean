import BitTorrent.Proofs.Bencode.Delimiting
import BitTorrent.Proofs.Bencode.Reading

/-! Errors tell the truth. An unexpected byte stands at the offset that is told. A container
runs out of input only if its closing byte is missing: once that has been found, nothing
that the reader looks for in the container is cut off or lies beyond the end of what it is
in. So a container that is told not to be terminated either has bytes after it or holds a
dictionary that ends after a key. -/

namespace BitTorrent.Bencode

open Reading ParseTree

/-- At offset `o` stands the `e` that closes a dictionary of `data` whose last key has no value. -/
def EndsAfterKey (data : Bytes) (o : Nat) : Prop :=
  ∃ (front back : Bytes) (es : List (StringForm × ParseTree)) (s : StringForm), Before front ∧
    data = front ++ (0x64 :: textOfEntries es ++ s.text) ++ 0x65 :: back ∧
    o = (front ++ (0x64 :: textOfEntries es ++ s.text)).length ∧
    closingAt data front.length = .ok o

theorem endsAfterKey_of_passed {front back : Bytes} (h : Passed .value front) :
    EndsAfterKey (front ++ 0x65 :: back) front.length := by
  obtain ⟨outer, es, s, houter, rfl⟩ := h
  refine ⟨outer, back, es, s, houter, rfl, rfl, ?_⟩
  have hpasses : Scan.Passes (textOfEntries es ++ s.text) :=
    (Scan.passes_entries fun e _ => Scan.passes_text e.2).append (Scan.passes_string s)
  have hclose (p : Nat) : Scan.run 0 (.payload 0) p (0x65 :: back) = .ok p := rfl
  rw [closingAt, List.append_assoc, List.drop_left, List.cons_append, List.cons_append,
    closing_cons (.inr (.inr rfl)), hpasses 0, hclose]
  simp only [List.length_append, List.length_cons]
  congr 1
  omega

/-- An error that comes from inside of a container says only what is so. -/
inductive Error.Truthful (data : Bytes) : Error → Prop
  | malformedInteger (f : IntegerFault) : Truthful data (.malformedInteger f)
  | unexpectedByte {b : UInt8} {o : Nat} : data[o]? = some b → Truthful data (.unexpectedByte b o)
  | unterminatedContainer {o : Nat} : EndsAfterKey data o → Truthful data (.unterminatedContainer o)
  | invalidKeyType : Truthful data .invalidKeyType
  | nestingTooDeep : Truthful data .nestingTooDeep

/-! ### One place -/

/-- A byte string that has been cut off is one of the grammar. -/
theorem exists_string_of_elementSize {pos n d : Nat} {b : UInt8} {tail : Bytes}
    (hlead : Lead.of b = .digit d) (hn : elementSize pos b tail = .ok n) :
    ∃ s : StringForm, s.text = b :: tail.take n := by
  simp only [elementSize, hlead] at hn
  obtain ⟨token, htoken, hn⟩ := bind_eq_ok_iff.mp hn
  cases hn
  obtain ⟨s, hs, -, hsize⟩ := ByteString.exists_of_token htoken
  obtain ⟨c, w, -, htext, -⟩ := s.exists_text_eq_cons
  rw [htext, List.cons_append] at hs
  obtain ⟨rfl, rfl⟩ := List.cons.inj hs
  refine ⟨s, ?_⟩
  rw [← hsize, htext, List.length_cons, Nat.add_sub_cancel, List.take_left]

/-- A leaf that has been cut off is refused only as an integer. -/
theorem malformed_of_value_leaf {k pos n : Nat} {b : UInt8} {tail : Bytes} {e : Error}
    (hn : elementTail pos (b :: tail) = .ok n) (hleaf : ¬(Lead.of b = .list ∨ Lead.of b = .dict))
    (he : value k pos (b :: tail.take n) = .error e) : ∃ f, e = .malformedInteger f := by
  obtain ⟨hsize, -⟩ := elementTail_eq_ok_iff.mp hn
  cases hlead : Lead.of b with
  | integer =>
    have hvalue : value k pos (b :: tail.take n) =
        Value.integer <$> Integer.decode (b :: tail.take n) := by
      cases k <;> simp only [value, hlead]
    rw [hvalue] at he
    exact Integer.malformed_of_decode (map_eq_error_iff.mp he)
  | digit d =>
    obtain ⟨s, hs⟩ := exists_string_of_elementSize hlead hsize
    have hvalue : value k pos s.text = .ok (.bytes s.payload) :=
      (value_text (.string s) k pos).trans (if_pos (Nat.zero_le k))
    rw [← hs, hvalue] at he
    cases he
  | list => exact absurd (.inl hlead) hleaf
  | dict => exact absurd (.inr hlead) hleaf
  | _ =>
    simp only [elementSize, hlead] at hsize
    cases hsize

section Places

variable {data rest : Bytes} {place : Place} {k pos : Nat} {e : Error}

/-- An unexpected byte at a place is one of the whole input. -/
theorem truthful_of_points {front back : Bytes} (h : e.Points front.length rest)
    (he : ∃ b o, e = .unexpectedByte b o) : e.Truthful (front ++ rest ++ back) := by
  obtain ⟨b, o, rfl⟩ := he
  obtain ⟨i, rfl, hi⟩ := h b o rfl
  obtain ⟨hlt, -⟩ := List.getElem?_eq_some_iff.mp hi
  refine .unexpectedByte ?_
  rw [List.append_assoc, List.getElem?_append_right (Nat.le_add_right _ i), Nat.add_sub_cancel_left,
    List.getElem?_append_left hlt, hi]

/-- What the reader stops with at a place is so. -/
theorem truthful_of_stops (h : Placed data place pos rest) (hstop : Stops place k pos rest e) :
    e.Truthful data := by
  obtain ⟨⟨front, back, rfl, rfl, hpassed⟩, hscanned⟩ := h
  cases hstop with
  | tooDeep => exact .nestingTooDeep
  | key hne he =>
    rename_i b tail
    have hclosed : Closed front.length (b :: tail) := hscanned
    rcases hclosed.key_cases with ⟨name, n, hok⟩ | hkind | ⟨c, o, hunexpected⟩
    · rw [hok] at he
      cases he
    · rw [hkind] at he
      cases he
      exact .invalidKeyType
    · have hpoints := points_of_key he
      rw [hunexpected] at he
      cases he
      exact truthful_of_points hpoints ⟨c, o, rfl⟩
  | noValue =>
    rename_i c
    have hclosed : Closed front.length [c] := hscanned
    obtain rfl := hclosed.eq_close
    rw [List.append_assoc]
    exact .unterminatedContainer (endsAfterKey_of_passed hpassed)
  | extent hnext hne he =>
    have hclosed := (scanned_iff_closed hnext.ne_container.1).mp hscanned
    rcases hclosed.elementTail_cases with ⟨n, hok⟩ | ⟨c, o, hunexpected⟩
    · rw [hok] at he
      cases he
    · have hpoints := points_of_elementTail he
      rw [hunexpected] at he
      cases he
      exact truthful_of_points hpoints ⟨c, o, rfl⟩
  | leaf hnext hne hn hlead he =>
    obtain ⟨f, rfl⟩ := malformed_of_value_leaf hn hlead he
    exact .malformedInteger f

end Places

/-! ### Whole inputs -/

/-- A container is refused because its closing byte is not found or is not the last, or for
something in it. -/
theorem decode_error_cases {options : Options} {b : UInt8} {w : Bytes} {e : Error}
    (hlead : Lead.of b = .list ∨ Lead.of b = .dict) (h : options.decode (b :: w) = .error e) :
    closingAt (b :: w) 0 = .error e ∨
      (∃ stop, closingAt (b :: w) 0 = .ok stop ∧ stop + 1 < (b :: w).length ∧
        e = .unterminatedContainer (stop + 1)) ∨
      closingAt (b :: w) 0 = .ok w.length ∧ e.Truthful (b :: w) := by
  rw [decode_container hlead] at h
  rcases bind_eq_error_iff.mp h with h | ⟨stop, hstop, h⟩
  · exact .inl h
  · have hclosing : closing 0 (b :: w) = .ok stop := hstop
    obtain ⟨i, rfl, hi⟩ := exists_of_closing hclosing
    obtain ⟨hlt, -⟩ := List.getElem?_eq_some_iff.mp hi
    split at h
    · cases h
      exact .inr (.inl ⟨_, hstop, by omega, rfl⟩)
    · rename_i hlen
      have hlast : 0 + 1 + i = w.length := by
        rw [List.length_cons] at hlen
        omega
      rw [hlast] at hstop
      obtain ⟨place, k, pos, rest, hreached, hstops⟩ :=
        sourced_of_value (.outermost rfl hlead hstop) h
      exact .inr (.inr ⟨hstop, truthful_of_stops hreached.placed hstops⟩)

/-- A leaf that is the whole input is refused for what it is. -/
theorem decode_leaf_cases {options : Options} {b : UInt8} {w : Bytes} {e : Error}
    (hleaf : ¬(Lead.of b = .list ∨ Lead.of b = .dict)) (h : options.decode (b :: w) = .error e) :
    e.Points 0 (b :: w) ∧ ∀ o, e ≠ .unterminatedContainer o := by
  cases hlead : Lead.of b with
  | integer =>
    simp only [Options.decode, hlead] at h
    obtain ⟨f, rfl⟩ := Integer.malformed_of_decode (map_eq_error_iff.mp h)
    exact ⟨by rintro _ _ ⟨⟩, by rintro _ ⟨⟩⟩
  | digit d =>
    simp only [Options.decode, hlead] at h
    have hpayload := map_eq_error_iff.mp h
    exact ⟨ByteString.points_of_payload hpayload, ByteString.ne_unterminated_of_payload hpayload⟩
  | list => exact absurd (.inl hlead) hleaf
  | dict => exact absurd (.inr hlead) hleaf
  | _ =>
    simp only [Options.decode, hlead] at h
    cases h
    exact ⟨.head 0 b w, by rintro _ ⟨⟩⟩

theorem points_of_decode {options : Options} {data : Bytes} {e : Error}
    (h : options.decode data = .error e) : e.Points 0 data := by
  cases data with
  | nil =>
    cases h
    rintro _ _ ⟨⟩
  | cons b w =>
    by_cases hlead : Lead.of b = .list ∨ Lead.of b = .dict
    · rcases decode_error_cases hlead h with h | ⟨stop, -, -, rfl⟩ | ⟨-, h⟩
      · exact points_of_closing h
      · rintro _ _ ⟨⟩
      · rintro c o rfl
        cases h with
        | unexpectedByte hget => exact ⟨o, (Nat.zero_add o).symm, hget⟩
    · exact (decode_leaf_cases hlead h).1

/-- An input is refused as not terminated only if bytes follow a container or a dictionary ends
after a key. -/
theorem unterminated_of_decode {options : Options} {data : Bytes} {o : Nat}
    (h : options.decode data = .error (.unterminatedContainer o)) :
    (∃ stop, closingAt data 0 = .ok stop ∧ o = stop + 1 ∧ o < data.length) ∨
      EndsAfterKey data o := by
  cases data with
  | nil => cases h
  | cons b w =>
    by_cases hlead : Lead.of b = .list ∨ Lead.of b = .dict
    · rcases decode_error_cases hlead h with h | ⟨stop, hstop, hlt, he⟩ | ⟨-, h⟩
      · rcases closing_error_cases h with he | ⟨c, i, he⟩ <;> cases he
      · cases he
        exact .inl ⟨stop, hstop, rfl, hlt⟩
      · cases h with
        | unterminatedContainer hends => exact .inr hends
    · exact absurd rfl ((decode_leaf_cases hlead h).2 o)

/-- The `e` of a dictionary with a key and no value is told. -/
example : decode [0x64, 0x31, 0x3a, 0x61, 0x65] = .error (.unterminatedContainer 4) := by
  decide +kernel

theorem truncated_iff_closingAt {options : Options} {b : UInt8} {w : Bytes}
    (hlead : Lead.of b = .list ∨ Lead.of b = .dict) :
    options.decode (b :: w) = .error .truncatedInput ↔
      closingAt (b :: w) 0 = .error .truncatedInput := by
  constructor
  · intro h
    rcases decode_error_cases hlead h with h | ⟨stop, -, -, he⟩ | ⟨-, h⟩
    · exact h
    · cases he
    · cases h
  · intro h
    rw [decode_container hlead, h]
    rfl

/-- Whatever the reader looks for at `pos` ends before the bracket at `stop` that closes the
container there. -/
structure NoOverrun (data : Bytes) (pos stop : Nat) : Prop where
  /-- A byte string whose length can be read is there. -/
  string : (∃ b d, data[pos]? = some b ∧ Lead.of b = .digit d) →
    ByteString.token pos (data.drop pos) ≠ .error .truncatedInput ∧
      ∀ token, ByteString.token pos (data.drop pos) = .ok token → pos + token.size ≤ stop
  container : data[pos]? = some 0x6c ∨ data[pos]? = some 0x64 →
    ∃ close, closingAt data pos = .ok close ∧ close < stop
  integer : data[pos]? = some 0x69 → ∃ close, pos < close ∧ close < stop ∧ data[close]? = some 0x65

theorem Closed.noOverrun {front body back : Bytes} {stop : Nat} (h : Closed front.length body)
    (hstop : stop + 1 = front.length + body.length) :
    NoOverrun (front ++ body ++ back) front.length stop := by
  obtain ⟨b, tail, rfl⟩ := List.exists_cons_of_ne_nil h.ne_nil
  have hdrop : (front ++ b :: tail ++ back).drop front.length = b :: tail ++ back := by
    rw [List.append_assoc, List.drop_left]
  have hhead : (front ++ b :: tail ++ back)[front.length]? = some b := by
    rw [← List.head?_drop, hdrop, List.cons_append, List.head?_cons]
  rw [List.length_cons] at hstop
  constructor
  · rintro ⟨c, d, hc, hlead⟩
    rw [hhead] at hc
    cases hc
    rw [hdrop]
    rcases h.string_or_stray hlead with
      ⟨s, w, more, htext, hmore, rfl⟩ | ⟨l, c, after, hc, hcolon, hbody⟩
    · have hpos : 0 < more.length := List.length_pos_iff.mpr hmore
      have htoken := ByteString.token_text front.length s (more ++ back)
      rw [htext, List.length_cons, List.cons_append, ← List.append_assoc,
        ← List.cons_append] at htoken
      rw [htoken]
      refine ⟨by rintro ⟨⟩, fun token h => ?_⟩
      cases h
      rw [List.length_append] at hstop
      dsimp only
      omega
    · rw [hbody, List.append_assoc, List.cons_append, ByteString.token_stray _ l hc hcolon]
      exact ⟨by rintro ⟨⟩, by rintro _ ⟨⟩⟩
  · intro hlead
    rw [hhead, Option.some_inj, Option.some_inj, ← Lead.of_eq_list_iff,
      ← Lead.of_eq_dict_iff] at hlead
    obtain ⟨i, hclosing, hlt, -, -⟩ := h.exists_closing (.inr hlead)
    refine ⟨front.length + 1 + i, ?_, by omega⟩
    rw [closingAt, hdrop]
    exact closing_append hclosing back
  · intro hlead
    rw [hhead] at hlead
    cases hlead
    obtain ⟨i, -, hlt, hi, -⟩ := h.exists_closing (.inl rfl)
    refine ⟨front.length + (i + 1), by omega, by omega, ?_⟩
    rw [← List.getElem?_drop, hdrop, List.cons_append, List.getElem?_cons_succ,
      List.getElem?_append_left (by omega), hi]

/-- A key or an element of a closed body is never refused for where it ends. -/
theorem Closed.fits {pos : Nat} {body : Bytes} {e : Error} (h : Closed pos body)
    (he : key pos body = .error e ∨ elementTail pos body = .error e) :
    e ≠ .truncatedInput ∧ ∀ o, e ≠ .unterminatedContainer o := by
  obtain ⟨b, tail, rfl⟩ := List.exists_cons_of_ne_nil h.ne_nil
  rcases he with he | he
  · rcases h.key_cases with ⟨k, n, hkey⟩ | hkey | ⟨c, o, hkey⟩ <;> rw [hkey] at he <;> cases he
    · exact ⟨by rintro ⟨⟩, by rintro _ ⟨⟩⟩
    · exact ⟨by rintro ⟨⟩, by rintro _ ⟨⟩⟩
  · rcases h.elementTail_cases with ⟨n, hn⟩ | ⟨c, o, hn⟩ <;> rw [hn] at he <;> cases he
    exact ⟨by rintro ⟨⟩, by rintro _ ⟨⟩⟩

/-- Errors of the reader, of the bracket scan and of the walk over a dictionary tell the truth.
An unexpected byte is where they say. A container whose closing byte is found never runs
out of input, and is told not to be terminated only if bytes follow it or a dictionary ends
after a key. For nowhere that the reader comes to does what it looks for there lie beyond the
end of what it is in. -/
theorem errors_truthful (options : Options) (data : Bytes) :
    ((∀ b o, options.decode data = .error (.unexpectedByte b o) → data[o]? = some b) ∧
      (∀ start b o, closingAt data start = .error (.unexpectedByte b o) → data[o]? = some b) ∧
      ∀ key b o, spanOf data key = .error (.unexpectedByte b o) → data[o]? = some b) ∧
    (data.head? = some 0x6c ∨ data.head? = some 0x64 →
      (options.decode data = .error .truncatedInput ↔
        closingAt data 0 = .error .truncatedInput)) ∧
    (∀ o, options.decode data = .error (.unterminatedContainer o) →
      (∃ stop, closingAt data 0 = .ok stop ∧ o = stop + 1 ∧ o < data.length) ∨
        EndsAfterKey data o) ∧
    ∀ place k pos rest, Reached options data place k pos rest → place ≠ .container →
      ∃ stop, stop + 1 = pos + rest.length ∧ rest <+: data.drop pos ∧ NoOverrun data pos stop ∧
        ∀ e, key pos rest = .error e ∨ elementTail pos rest = .error e →
          e ≠ .truncatedInput ∧ ∀ o, e ≠ .unterminatedContainer o := by
  have hget (pos : Nat) {b : UInt8} {o : Nat}
      (h : (Error.unexpectedByte b o).Points pos (data.drop pos)) : data[o]? = some b := by
    obtain ⟨i, rfl, hi⟩ := h b o rfl
    rwa [List.getElem?_drop] at hi
  refine ⟨⟨?_, ?_, ?_⟩, ?_, fun o h => unterminated_of_decode h, ?_⟩
  · intro b o h
    exact hget 0 (points_of_decode h)
  · intro start b o h
    exact hget start (points_of_closing h)
  · intro key b o h
    exact hget 0 (points_of_spanOf h)
  · intro hhead
    obtain ⟨b, w, rfl⟩ := List.exists_cons_of_ne_nil (l := data) (by rintro rfl; simp at hhead)
    rw [List.head?_cons, Option.some_inj, Option.some_inj, ← Lead.of_eq_list_iff,
      ← Lead.of_eq_dict_iff] at hhead
    exact truncated_iff_closingAt hhead
  · intro place k pos rest hreached hplace
    obtain ⟨⟨front, back, rfl, rfl, -⟩, hscanned⟩ := hreached.placed
    have hclosed := (scanned_iff_closed hplace).mp hscanned
    obtain ⟨stop, -, hstop⟩ := id hclosed
    refine ⟨stop, hstop, ?_, hclosed.noOverrun hstop, ?_⟩
    · rw [List.append_assoc, List.drop_left]
      exact List.prefix_append rest back
    · exact fun e he => hclosed.fits he

end BitTorrent.Bencode
