import BitTorrent.Proofs.Bencode.ByOffset.Closing
import BitTorrent.Proofs.Bencode.ByOffset.Inside

/-! Elements of a container that are read by offsets. What an element needs stands in front of the
closing byte of its container, since the bracket scan has passed over it; an element that is a
container is read by what reads the containers inside of this one. -/

namespace BitTorrent.Bencode.ByOffset

variable {options : Options} {data : Bytes} {depth k pos stop : Nat} {b : UInt8}

/-- Inner containers are read by offsets as `value` reads them, with `k` more open at most. -/
def ReadsInner (options : Options) (data : Bytes) (depth k : Nat) : Prop :=
  ∀ ⦃start stop b⦄, data[start]? = some b → (Lead.of b = .list ∨ Lead.of b = .dict) →
    closingAt data start = .ok stop → depth ≤ start →
    (container options data start stop depth).Gives (Event.Sound options data)
      (value k start (within data start stop))

variable (hdata : data.length < 2 ^ 63)
include hdata

variable (options) in
/-- A byte string whose length can be read is there, with something after it. -/
theorem string_cases {d : Nat} (h : Inside data depth pos stop) (hget : data[pos]? = some b)
    (hlead : Lead.of b = .digit d) :
    (∃ (s : StringForm) (more : Bytes), more ≠ [] ∧ within data pos stop = s.text ++ more ∧
      (string data pos stop).Gives (Event.Sound options data)
        (.ok (s.payload, pos + s.text.length))) ∨
    ∃ c o, ByteString.token pos (within data pos stop) = .error (.unexpectedByte c o) ∧
      (string data pos stop).Gives (Event.Sound options data) (.error (.unexpectedByte c o)) := by
  have hdrop : data.drop pos = within data pos stop ++ data.drop (stop + 1) :=
    drop_eq_within_append (Nat.le_succ_of_le h.le_stop)
  have hlen := length_within pos h.stop_lt
  have hclosed := h.closed
  have hread : (token data pos).Gives (Event.Sound options data) _ := gives_token hdata pos
  rw [within_eq_cons hget h.le_stop] at hclosed
  rcases hclosed.string_or_stray hlead with
    ⟨s, w, more, htext, hmore, htail⟩ | ⟨l, c, after, hc, hcolon, hbody⟩
  · have hbody : within data pos stop = s.text ++ more := by
      rw [within_eq_cons hget h.le_stop, htail, htext, List.cons_append]
    have htoken := ByteString.token_text pos s (more ++ data.drop (stop + 1))
    rw [← List.append_assoc, ← hbody, ← hdrop] at htoken
    obtain ⟨hstart, hpayload, hle, htake, -⟩ := of_token htoken
    rw [htoken] at hread
    dsimp only at hstart hpayload hle htake
    have hmore' := List.length_pos_iff.mpr hmore
    rw [hbody, List.length_append] at hlen
    have hsub : pos + s.text.length - (pos + s.text.length - s.payload.length) =
        s.payload.length := by omega
    refine .inl ⟨s, more, hmore, hbody, hread.ok_bind ?_⟩
    dsimp only
    rw [if_neg (by omega)]
    refine (gives_slice (Nat.sub_le _ _) hle).ok_bind ((gives_pure _).ends ?_)
    rw [hsub, htake]
  · have hwithin : within data pos stop = l.digits ++ c :: after := by
      rw [within_eq_cons hget h.le_stop, hbody]
    have htoken := ByteString.token_stray pos l hc hcolon (after ++ data.drop (stop + 1))
    rw [← List.cons_append, ← List.append_assoc, ← hwithin, ← hdrop] at htoken
    rw [htoken] at hread
    refine .inr ⟨c, pos + l.digits.length, ?_, hread.error_bind⟩
    rw [hwithin, ByteString.token_stray pos l hc hcolon after]

theorem gives_element_integer (h : Inside data depth pos stop) (hget : data[pos]? = some b)
    (hlead : Lead.of b = .integer) :
    (element options data stop depth pos).Gives (Event.Sound options data)
      (elementIn data k pos stop) := by
  have hbody := within_eq_cons hget h.le_stop
  have hclosed := h.closed
  have hstop := h.stop_lt
  have hlen := length_within (pos + 1) hstop
  rw [hbody] at hclosed
  obtain ⟨i, -, hlt, hi, -⟩ := hclosed.exists_closing (.inl hlead)
  obtain ⟨j, hj, hfind⟩ := exists_findIdx? hi
  have htail : elementTail pos (within data pos stop) = .ok (j + 1) := by
    rw [hbody]
    exact elementTail_eq_ok_iff.mpr ⟨by simp only [elementSize, hlead, hfind], by omega⟩
  have hb : b ≠ 0x65 := by
    rintro rfl
    cases hlead
  have hinside : ((data.drop pos).take (stop - pos)).findIdx? (· = 0x65) = some (j + 1) := by
    have htake : (data.drop pos).take (stop - pos) = (within data pos stop).take (stop - pos) := by
      rw [within, List.take_take, Nat.min_eq_left (by omega)]
    rw [htake, hbody, List.findIdx?_take, List.findIdx?_cons, hfind]
    simp [hb]
    omega
  have hvalue : value k pos (within data pos (pos + (j + 1))) =
      Value.integer <$> Integer.decode (within data pos (pos + (j + 1))) := by
    rw [within_eq_cons hget (by omega)]
    exact value_integer hlead k pos _
  rw [elementIn, htail, ok_bind, hvalue, bind_map_left, element]
  refine (gives_index hget).ok_bind ?_
  rw [hlead]
  refine (gives_slice h.le_stop (Nat.le_of_lt hstop)).ok_bind ?_
  rw [hinside]
  refine (gives_add (by omega)).ok_bind ((gives_add (by omega)).ok_bind ?_)
  refine (gives_slice (by omega) (by omega)).ok_bind ?_
  exact (gives_integer _).bind fun n _ => gives_pure _

theorem gives_element_string {d : Nat} (h : Inside data depth pos stop) (hget : data[pos]? = some b)
    (hlead : Lead.of b = .digit d) :
    (element options data stop depth pos).Gives (Event.Sound options data)
      (elementIn data k pos stop) := by
  have hlen := length_within pos h.stop_lt
  rw [element]
  refine (gives_index hget).ok_bind ?_
  rw [hlead]
  rcases string_cases options hdata h hget hlead with
    ⟨s, more, hmore, hbody, hstring⟩ | ⟨c, o, htoken, hstring⟩
  · obtain ⟨c, w, htext⟩ : ∃ c w, s.text = c :: w := (ParseTree.string s).exists_text_eq
    have htail : elementTail pos (within data pos stop) = .ok w.length := by
      rw [hbody, htext, List.cons_append]
      exact elementTail_text (t := .string s) htext hmore pos
    have hvalue : value k pos (within data pos (pos + w.length)) = .ok (.bytes s.payload) := by
      have htake : within data pos (pos + w.length) = s.text := by
        rw [hbody, htext, List.length_append, List.length_cons] at hlen
        rw [← take_within data (show _ ≤ stop by omega), hbody, htext, ← List.length_cons,
          List.take_left]
      rw [htake]
      exact (value_text (.string s) k pos).trans (if_pos (Nat.zero_le k))
    rw [elementIn, htail, ok_bind, hvalue, ok_bind]
    refine hstring.ok_bind ((gives_pure _).ends ?_)
    rw [htext]
    rfl
  · have htail : elementTail pos (within data pos stop) = .error (.unexpectedByte c o) := by
      rw [within_eq_cons hget h.le_stop] at htoken ⊢
      simp only [elementTail, elementSize, hlead, htoken]
      rfl
    rw [elementIn, htail]
    exact hstring.error_bind

theorem gives_element_container (hinner : ReadsInner options data (depth + 1) k)
    (h : Inside data depth pos stop) (hget : data[pos]? = some b)
    (hlead : Lead.of b = .list ∨ Lead.of b = .dict) :
    (element options data stop depth pos).Gives (Event.Sound options data)
      (elementIn data k pos stop) := by
  have hbody := within_eq_cons hget h.le_stop
  have hlen := length_within (pos + 1) h.stop_lt
  have hstop := h.stop_lt
  have hdepth := h.depth_lt
  have hclosed := h.closed
  rw [hbody] at hclosed
  obtain ⟨i, hclosing, hlt, -, -⟩ := hclosed.exists_closing (.inr hlead)
  have htail : elementTail pos (within data pos stop) = .ok (i + 1) := by
    rw [hbody]
    exact elementTail_eq_ok_iff.mpr ⟨elementSize_of_closing hlead hclosing, by omega⟩
  have hclose : closingAt data pos = .ok (pos + (i + 1)) := by
    rw [closingAt, drop_eq_within_append (Nat.le_succ_of_le h.le_stop), hbody,
      Nat.add_comm i, ← Nat.add_assoc]
    exact closing_append hclosing _
  have hread : (closing data pos).Gives (Event.Sound options data) _ := gives_closing hdata pos
  rw [hclose] at hread
  have hvalue := hinner hget hlead hclose (by omega)
  rw [elementIn, htail, ok_bind, element]
  refine (gives_index hget).ok_bind ?_
  rcases hlead with hlead | hlead
  all_goals
    rw [hlead]
    refine hread.ok_bind ?_
    rw [if_neg (by omega)]
    refine (gives_add (by omega)).ok_bind (hvalue.bind fun v _ => ?_)
    exact (gives_add (by omega)).ok_bind (gives_pure _)

theorem gives_element (hinner : ReadsInner options data (depth + 1) k)
    (h : Inside data depth pos stop) :
    (element options data stop depth pos).Gives (Event.Sound options data)
      (elementIn data k pos stop) := by
  obtain ⟨b, hget, hbody⟩ := h.exists_head
  cases hlead : Lead.of b with
  | integer => exact gives_element_integer hdata h hget hlead
  | digit d => exact gives_element_string hdata h hget hlead
  | list => exact gives_element_container hdata hinner h hget (.inl hlead)
  | dict => exact gives_element_container hdata hinner h hget (.inr hlead)
  | _ =>
    have htail : elementTail pos (within data pos stop) = .error (.unexpectedByte b pos) := by
      rw [hbody]
      simp only [elementTail, elementSize, hlead]
      rfl
    rw [elementIn, htail, element]
    refine (gives_index hget).ok_bind ?_
    rw [hlead]
    exact gives_refuse _

end BitTorrent.Bencode.ByOffset
