import BitTorrent.Proofs.Bencode.ByOffset.Element
import BitTorrent.Proofs.Bencode.Dict

/-! Loops over what is in a container. A turn takes one element of a list, or one key and its
value, and leads to a place inside of the container that is further on; there the loop is the
reader of the exact bytes that are left. -/

namespace BitTorrent.Bencode.ByOffset

variable {options : Options} {data : Bytes} {depth k pos stop : Nat} (hdata : data.length < 2 ^ 63)

/-! ### Lists -/

theorem items_within (h : Inside data depth pos stop) (hlt : pos < stop) :
    Bencode.items (value k) pos (within data pos stop) = (do
      let (v, next) ← elementIn data k pos stop
      (v :: ·) <$> Bencode.items (value k) next (within data next stop)) := by
  obtain ⟨b, hget, hbody⟩ := h.exists_head
  have hlen := length_within (pos + 1) h.stop_lt
  have hne : within data (pos + 1) stop ≠ [] := List.length_pos_iff.mp (by omega)
  rw [elementIn_eq h hbody, hbody, items_cons hne]
  simp only [bind_assoc, pure_bind, drop_within_succ, map_eq_pure_bind]

include hdata in
theorem gives_items (hinner : ReadsInner options data (depth + 1) k)
    (h : Inside data depth pos stop) (done : List Value) :
    (items options data stop depth done pos).Gives (Event.Sound options data)
      ((fun vs => (done ++ vs, stop)) <$> Bencode.items (value k) pos (within data pos stop)) := by
  -- Every element takes bytes, so fewer are left in front of the closing one.
  induction hleft : stop - pos using Nat.strongRecOn generalizing pos done with
  | _ n ih =>
    rw [items]
    split
    · rename_i hlt
      rw [items_within h hlt, map_bind]
      refine (gives_element hdata hinner h).bind ?_
      rintro ⟨v, next⟩ he
      obtain ⟨hnext, hle, hinside⟩ := of_elementIn h he
      have hcons : (fun vs => (done ++ vs, stop)) <$> (v :: ·) <$>
            Bencode.items (value k) next (within data next stop) =
          (fun vs => (done ++ [v] ++ vs, stop)) <$>
            Bencode.items (value k) next (within data next stop) := by
        rw [Functor.map_map]
        simp
      dsimp only
      rw [hcons]
      refine (gives_turned ⟨hnext, hle, Nat.le_of_lt h.stop_lt⟩).ok_bind ?_
      rw [if_pos hnext]
      exact ih (stop - next) (by omega) hinside (done ++ [v]) rfl
    · rename_i hlt
      obtain rfl : pos = stop := Nat.le_antisymm h.le_stop (Nat.le_of_not_lt hlt)
      obtain ⟨b, hbody⟩ := h.exists_last
      have hitems : Bencode.items (value k) pos (within data pos pos) = .ok [] := by
        rw [hbody, Bencode.items]
      rw [hitems, map_ok, List.append_nil]
      exact gives_pure (done, pos)

/-! ### Dictionaries -/

include hdata in
theorem gives_key (h : Inside data depth pos stop) :
    (key data pos stop).Gives (Event.Sound options data)
      ((fun r => (r.1, pos + r.2 + 1)) <$> Bencode.key pos (within data pos stop)) := by
  obtain ⟨b, hget, hbody⟩ := h.exists_head
  rw [key]
  refine (gives_index hget).ok_bind ?_
  cases hlead : Lead.of b with
  | digit d =>
    rcases string_cases options hdata h hget hlead with
      ⟨s, more, hmore, hwithin, hstring⟩ | ⟨c, o, htoken, hstring⟩
    · obtain ⟨c, w, htext⟩ : ∃ c w, s.text = c :: w := (ParseTree.string s).exists_text_eq
      have hkey : Bencode.key pos (within data pos stop) = .ok (s.payload, w.length) := by
        rw [hwithin, htext, List.cons_append]
        exact key_text htext hmore pos
      rw [hkey, map_ok]
      rw [htext] at hstring
      exact hstring
    · have hkey : Bencode.key pos (within data pos stop) = .error (.unexpectedByte c o) := by
        rw [hbody] at htoken ⊢
        simp only [Bencode.key, hlead, htoken]
        rfl
      rw [hkey, map_error]
      exact hstring
  | _ =>
    rw [hbody]
    simp only [Bencode.key, hlead]
    exact gives_refuse _

theorem after_key (h : Inside data depth pos stop) {name : Bytes} {n : Nat}
    (hkey : Bencode.key pos (within data pos stop) = .ok (name, n)) :
    Inside data depth (pos + n + 1) stop := by
  obtain ⟨b, hget, hbody⟩ := h.exists_head
  have hclosed := h.closed
  have hdepth := h.depth_lt
  rw [hbody] at hkey hclosed
  obtain ⟨s, -, -, hrest⟩ := hclosed.after_key hkey
  rw [drop_within_succ] at hrest
  exact ⟨hrest, h.stop_lt, by omega⟩

theorem entries_within (h : Inside data depth pos stop) (hlt : pos < stop) :
    Bencode.entries (value k) pos (within data pos stop) = (do
      let (name, n) ← Bencode.key pos (within data pos stop)
      if stop ≤ pos + n + 1 then .error (.unterminatedContainer stop)
      else do
        let (v, next) ← elementIn data k (pos + n + 1) stop
        ((name, v) :: ·) <$> Bencode.entries (value k) next (within data next stop)) := by
  obtain ⟨b, hget, hbody⟩ := h.exists_head
  have hlen := length_within (pos + 1) h.stop_lt
  have hne : within data (pos + 1) stop ≠ [] := List.length_pos_iff.mp (by omega)
  cases hkey : Bencode.key pos (within data pos stop) with
  | error e =>
    rw [hbody] at hkey ⊢
    rw [Bencode.entries, hkey]
    · rfl
    · exact hne
  | ok r =>
    obtain ⟨name, n⟩ := r
    have hafter := after_key h hkey
    rw [ok_bind]
    dsimp only
    split
    · rename_i hend
      obtain rfl : pos + n + 1 = stop := Nat.le_antisymm hafter.le_stop hend
      obtain ⟨c, hlast⟩ := hafter.exists_last
      rw [← drop_within_succ] at hlast
      have hstop : pos + (within data (pos + 1) (pos + n + 1)).length = pos + n + 1 := by omega
      rw [hbody] at hkey ⊢
      rw [entries_key_last hkey hlast, hstop]
    · rename_i hmid
      obtain ⟨c, -, hrest⟩ := hafter.exists_head
      have hlen' := length_within (pos + n + 1 + 1) h.stop_lt
      have hmore : within data (pos + n + 1 + 1) stop ≠ [] := List.length_pos_iff.mp (by omega)
      have hdrop :
          (within data (pos + 1) stop).drop n = c :: within data (pos + n + 1 + 1) stop := by
        rw [drop_within_succ, hrest]
      rw [hbody] at hkey ⊢
      rw [entries_cons hkey hmore hdrop, elementIn_eq hafter hrest, hrest]
      have hnext (m : Nat) : pos + n + m + 2 = pos + n + 1 + m + 1 := by omega
      simp only [bind_assoc, pure_bind, drop_within_succ, map_eq_pure_bind, hnext]

include hdata in
theorem gives_entries (hinner : ReadsInner options data (depth + 1) k)
    (h : Inside data depth pos stop) (done : Dict Value) :
    (entries options data stop depth done pos).Gives (Event.Sound options data)
      ((fun es => (done.insertAll es, stop)) <$>
        Bencode.entries (value k) pos (within data pos stop)) := by
  -- As for a list; here a turn takes a key and a value.
  induction hleft : stop - pos using Nat.strongRecOn generalizing pos done with
  | _ n ih =>
    rw [entries]
    split
    · rename_i hlt
      rw [entries_within h hlt, map_bind]
      refine (gives_key hdata h).map_bind ?_
      rintro ⟨name, m⟩ hkey
      have hafter := after_key h hkey
      dsimp only
      split
      · exact gives_refuse _
      · rw [map_bind]
        refine (gives_element hdata hinner hafter).bind ?_
        rintro ⟨v, next⟩ he
        obtain ⟨hnext, hle, hinside⟩ := of_elementIn hafter he
        have hcons : (fun es => (done.insertAll es, stop)) <$> ((name, v) :: ·) <$>
              Bencode.entries (value k) next (within data next stop) =
            (fun es => ((done.insert name v).2.insertAll es, stop)) <$>
              Bencode.entries (value k) next (within data next stop) := by
          rw [Functor.map_map]
          rfl
        have hpos : pos < next := by omega
        dsimp only
        rw [hcons]
        refine (gives_turned ⟨hpos, hle, Nat.le_of_lt h.stop_lt⟩).ok_bind ?_
        rw [if_pos hpos]
        exact ih (stop - next) (by omega) hinside (done.insert name v).2 rfl
    · rename_i hlt
      obtain rfl : pos = stop := Nat.le_antisymm h.le_stop (Nat.le_of_not_lt hlt)
      obtain ⟨b, hbody⟩ := h.exists_last
      have hentries : Bencode.entries (value k) pos (within data pos pos) = .ok [] := by
        rw [hbody, Bencode.entries]
      rw [hentries, map_ok]
      exact gives_pure (done, pos)

end BitTorrent.Bencode.ByOffset
