import BitTorrent.Proofs.Bencode.ByOffset.Container
import BitTorrent.Proofs.Bencode.ByOffset.Span

/-! Values read by offsets. The loop over what is in a container stays inside of it and stops at
its closing byte exactly, and what it reads is what the reader of the exact bytes reads. Main
statement: no run over less than `2 ^ 63` bytes is trapped. -/

namespace BitTorrent.Bencode.ByOffset

section Buffer

variable {options : Options} {data : Bytes} (hdata : data.length < 2 ^ 63)
include hdata

/-- Every container is read as the reader of exact bytes reads it, and entered at a depth that is
one more than the limit at most. -/
theorem readsInner {depth k : Nat} (h : depth + k = options.maxDepth + 1) :
    ReadsInner options data depth k := by
  induction k generalizing depth with
  | zero =>
    intro start stop b hget hlead hclosing hdepth
    obtain ⟨hstart, -, -⟩ := exists_of_closingAt hclosing
    -- The depth is one more than the limit, which is looked at only after the container is entered.
    rw [container, within_eq_cons hget (Nat.le_of_lt hstart), value_zero hlead]
    refine gives_enclosed (Event.sound_entered hget hlead hclosing (by omega)) rfl ?_
    rw [if_pos (by omega)]
    exact gives_refuse _
  | succ k ih =>
    intro start stop b hget hlead hclosing hdepth
    obtain ⟨hstart, hstop, -⟩ := exists_of_closingAt hclosing
    have hinner : ReadsInner options data (depth + 1) k := ih (by omega)
    have hinside := inside_of_closingAt hget hclosing hdepth
    rw [container, within_eq_cons hget (Nat.le_of_lt hstart)]
    refine gives_enclosed (Event.sound_entered hget hlead hclosing (by omega)) rfl ?_
    rw [if_neg (by omega)]
    refine (gives_add (by omega)).ok_bind ((gives_index hget).ok_bind ?_)
    rcases hlead with hlead | hlead
    · rw [if_pos (Lead.of_eq_list_iff.mp hlead), value_list hlead, Functor.map_map,
        map_eq_pure_bind]
      exact (gives_items hdata hinner hinside []).map_bind fun vs _ => gives_pure _
    · have hb : b ≠ 0x6c := by
        rintro rfl
        cases hlead
      rw [if_neg hb, value_dict hlead, Functor.map_map, map_eq_pure_bind]
      exact (gives_entries hdata hinner hinside .empty).map_bind fun es _ => gives_pure _

theorem gives_decode :
    (decode options data).Gives (Event.Sound options data) (options.decode data) := by
  cases data with
  | nil => exact gives_refuse _
  | cons b tail =>
    simp only [decode, List.getElem?_cons_zero, Options.decode]
    cases hlead : Lead.of b with
    | integer =>
      rw [map_eq_pure_bind]
      exact (gives_integer (b :: tail)).bind fun n _ => gives_pure _
    | digit d =>
      rw [map_eq_pure_bind]
      exact (gives_payload hdata options.exactLength).bind fun w _ => gives_pure _
    | list | dict =>
      have hcontainer : Lead.of b = .list ∨ Lead.of b = .dict := by simp [hlead]
      refine (gives_closing hdata 0).bind fun stop hclosing => ?_
      obtain ⟨-, hstop, -⟩ := exists_of_closingAt hclosing
      refine (gives_add (by omega)).ok_bind ?_
      split
      · exact gives_refuse _
      · rename_i hend
        have hend : stop + 1 = (b :: tail).length := Decidable.not_not.mp hend
        have hwhole : within (b :: tail) 0 stop = b :: tail := by
          rw [within, List.drop_zero, Nat.sub_zero, hend, List.take_length]
        have hinner : ReadsInner options (b :: tail) 0 (options.maxDepth + 1) :=
          readsInner hdata (Nat.zero_add _)
        have hread := hinner rfl hcontainer hclosing (Nat.le_refl 0)
        rwa [hwhole] at hread
    | _ => exact gives_refuse _

end Buffer

/-- Reading stays within bounds on any buffer of less than `2 ^ 63` bytes. Each reader by offsets
ends with the answer of the one of exact bytes and is never trapped: every byte and slice that it
asks for is there, no offset overflows, no counter falls below zero and no loop stalls. A container
is entered at its opening bracket only, with the offset of its closing byte, inside of at most one
more container than the options allow. Each turn of a loop leads further on and not beyond the end
of the loop. The loop over what is in a container ends at the closing byte exactly, and a run that
has a value has come to the end of each that it began. -/
theorem reading_within_bounds {data : Bytes} (hdata : data.length < 2 ^ 63) (options : Options) :
    (decode options data).Gives (Event.Sound options data) (options.decode data) ∧
    (∀ start, (closing data start).Gives (Event.Sound options data) (closingAt data start)) ∧
    ∀ key, (spanOf data key).Gives (Event.Sound options data) (Bencode.spanOf data key) :=
  ⟨gives_decode hdata, gives_closing hdata, gives_spanOf hdata⟩

/-- A list inside of a dictionary. Where no container may be inside of another, the list is entered
all the same, and refused for its depth. Its bytes end with a payload that looks like two closing
brackets. -/
theorem reading_within_bounds_at_limits :
    let data := Bytes.ofText "d1:ali-1e2:eeee"
    let v := Value.dict ⟨[([0x61], .list [.integer (-1), .bytes [0x65, 0x65]])]⟩
    data.length < 2 ^ 63 ∧
      (decode ⟨true, 1⟩ data).Gives (Event.Sound ⟨true, 1⟩ data) (.ok v) ∧
      (decode ⟨true, 0⟩ data).Gives (Event.Sound ⟨true, 0⟩ data) (.error .nestingTooDeep) ∧
      (closing data 4).Gives (Event.Sound ⟨true, 0⟩ data) (.ok 13) ∧
      (spanOf data [0x61]).Gives (Event.Sound ⟨true, 0⟩ data) (.ok (some ⟨4, 14⟩)) := by
  intro data v
  have hdata : data.length < 2 ^ 63 := by decide
  obtain ⟨hread, -⟩ := reading_within_bounds hdata ⟨true, 1⟩
  obtain ⟨hdeep, hclosing, hspan⟩ := reading_within_bounds hdata ⟨true, 0⟩
  have hv : (Options.mk true 1).decode data = .ok v := by decide +kernel
  have he : (Options.mk true 0).decode data = .error .nestingTooDeep := by decide +kernel
  have hclose : closingAt data 4 = .ok 13 := by decide +kernel
  have hfound : Bencode.spanOf data [0x61] = .ok (some ⟨4, 14⟩) := by decide +kernel
  exact ⟨hdata, hv ▸ hread, he ▸ hdeep, hclose ▸ hclosing 4, hfound ▸ hspan [0x61]⟩

example : (decode ⟨true, 1⟩ (Bytes.ofText "llee")).exec [] =
    (.ok (.list [.list []]),
      [.turned 1 2 4, .turned 2 3 4, .entered 0 3 0, .entered 1 2 1, .left 2 2, .turned 1 3 3,
        .left 3 3]) := by
  cbv

end BitTorrent.Bencode.ByOffset
