import BitTorrent.Proofs.Bencode.ByOffset.Closing

/-! Values of a dictionary that are found by offsets. A turn of the walk passes one entry and
leaves its answer as it was, so the walk comes to an end within the buffer and has the answer of
`spanOf`. -/

namespace BitTorrent.Bencode.ByOffset

/-- What the walk answers from an offset on with what it has found so far. -/
def walkAnswer (data key : Bytes) : Option Span × Nat → Except Error (Option Span)
  | (found, pos) => lastSpan key found pos (data.drop pos)

/-- What a turn of the walk from `s` comes to. -/
abbrev WalkTurned (data key : Bytes) (s : Option Span × Nat) :
    Except Error (Option Span ⊕ Option Span × Nat) → Prop :=
  Turned (walkAnswer data key) (fun next => True ∧ s.2 < next.2 ∧ next.2 ≤ data.length) s

section Buffer

variable {options : Options} {data : Bytes}

theorem add_valueSize_le {pos size : Nat} (h : valueSize pos (data.drop pos) = .ok size) :
    pos + size ≤ data.length := by
  cases hrest : data.drop pos with
  | nil =>
    rw [hrest] at h
    cases h
  | cons b rest =>
    have hclosing (h : (Bencode.closing pos (data.drop pos) >>= fun stop => pure (stop + 1 - pos)) =
        .ok size) : pos + size ≤ data.length := by
      obtain ⟨stop, hstop, h⟩ := bind_eq_ok_iff.mp h
      cases h
      obtain ⟨hstart, hlt, -⟩ := exists_of_closingAt hstop
      omega
    have htoken (h : (ByteString.token pos (data.drop pos) >>= fun t => pure t.size) = .ok size) :
        pos + size ≤ data.length := by
      obtain ⟨t, ht, h⟩ := bind_eq_ok_iff.mp h
      cases h
      exact (of_token ht).2.2.1
    rw [hrest] at h hclosing htoken
    simp only [valueSize] at h
    cases hlead : Lead.of b with
    | integer | list | dict =>
      rw [hlead] at h
      exact hclosing h
    | digit d =>
      rw [hlead] at h
      exact htoken h
    | _ =>
      rw [hlead] at h
      cases h

variable (hdata : data.length < 2 ^ 63)
include hdata

theorem gives_valueEnd (pos : Nat) : (valueEnd data pos).Gives (Event.Sound options data)
    ((pos + ·) <$> valueSize pos (data.drop pos)) := by
  rw [valueEnd]
  cases hget : data[pos]? with
  | none =>
    rw [drop_of_getElem?_eq_none hget]
    exact gives_refuse _
  | some b =>
    have hdrop := drop_of_getElem? hget
    have hclosing : (closing data pos >>= fun stop => add stop 1).Gives (Event.Sound options data)
        ((pos + ·) <$>
          (Bencode.closing pos (data.drop pos) >>= fun stop => pure (stop + 1 - pos))) := by
      rw [map_bind]
      refine (gives_closing hdata pos).bind fun stop h => ?_
      obtain ⟨hstart, hstop, -⟩ := exists_of_closingAt h
      have hsub : pos + (stop + 1 - pos) = stop + 1 := by omega
      refine (gives_add (by omega)).ends ?_
      show Except.ok (stop + 1) = .ok (pos + (stop + 1 - pos))
      rw [hsub]
    have htoken : (token data pos >>= fun r => pure r.2).Gives (Event.Sound options data)
        ((pos + ·) <$> (ByteString.token pos (data.drop pos) >>= fun t => pure t.size)) := by
      rw [map_bind]
      exact (gives_token hdata pos).map_bind fun t _ => gives_pure _
    rw [hdrop] at hclosing htoken ⊢
    simp only [valueSize]
    cases hlead : Lead.of b with
    | integer | list | dict => exact hclosing
    | digit d => exact htoken
    | _ => exact gives_refuse _

/-- An entry is passed in one turn. -/
theorem walkTurn_entry (key : Bytes) (found : Option Span) {pos : Nat} {b : UInt8} {d : Nat}
    (hget : data[pos]? = some b) (hlead : Lead.of b = .digit d) :
    (walkTurn data key found pos).Ends (Event.Sound options data)
      (WalkTurned data key (found, pos)) := by
  have hanswer : walkAnswer data key (found, pos) = (do
      let t ← ByteString.token pos (data.drop pos)
      let size ← valueSize (pos + t.size) t.rest
      lastSpan key (if t.payload = key then some ⟨pos + t.size, pos + t.size + size⟩ else found)
        (pos + t.size + size) ((data.drop (pos + 1)).drop (t.size + size - 1))) := by
    simp only [walkAnswer, drop_of_getElem? hget, lastSpan, hlead]
  have hread : (token data pos).Gives (Event.Sound options data) _ := gives_token hdata pos
  simp only [walkTurn, hget, hlead]
  cases ht : ByteString.token pos (data.drop pos) with
  | error e =>
    rw [ht] at hread hanswer
    exact hread.error_bind.ends (.refused hanswer)
  | ok t =>
    obtain ⟨hstart, hpayload, hstop, htake, hrest⟩ := of_token ht
    have hvalue : (valueEnd data (pos + t.size)).Gives (Event.Sound options data) _ :=
      gives_valueEnd hdata (pos + t.size)
    rw [ht] at hread
    rw [ht, ok_bind] at hanswer
    rw [hrest] at hvalue
    refine hread.ok_bind ?_
    cases hsize : valueSize (pos + t.size) t.rest with
    | error e =>
      rw [hsize] at hvalue hanswer
      exact hvalue.error_bind.ends (.refused hanswer)
    | ok size =>
      have hle := add_valueSize_le (hrest ▸ hsize)
      have hname : pos + t.size - (pos + t.size - t.payload.length) = t.payload.length := by omega
      have hnext : pos + 1 + (t.size + size - 1) = pos + t.size + size := by omega
      rw [hsize] at hvalue
      rw [hsize, ok_bind, List.drop_drop, hnext] at hanswer
      refine hvalue.ok_bind ((gives_slice (Nat.sub_le _ _) hstop).ok_bind ?_)
      dsimp only
      rw [hname, htake]
      refine (gives_pure _).ends (.on hanswer ⟨trivial, ?_, hle⟩)
      show pos < pos + t.size + size
      omega

theorem walkTurn_turned (key : Bytes) (s : Option Span × Nat) :
    (walkTurn data key s.1 s.2).Ends (Event.Sound options data) (WalkTurned data key s) := by
  obtain ⟨found, pos⟩ := s
  cases hget : data[pos]? with
  | none =>
    simp only [walkTurn, hget]
    refine (gives_refuse _).ends (.refused ?_)
    rw [walkAnswer, drop_of_getElem?_eq_none hget, lastSpan]
  | some b =>
    cases hlead : Lead.of b with
    | digit d => exact walkTurn_entry hdata key found hget hlead
    | close =>
      simp only [walkTurn, hget, hlead]
      refine (gives_pure _).ends (.done ?_)
      simp only [walkAnswer, drop_of_getElem? hget, lastSpan, hlead]
    | integer | list | dict | minus | other =>
      simp only [walkTurn, hget, hlead]
      refine (gives_refuse _).ends (.refused ?_)
      simp only [walkAnswer, drop_of_getElem? hget, lastSpan, hlead]

theorem gives_spanOf (key : Bytes) : (spanOf data key).Gives (Event.Sound options data)
    (Bencode.spanOf data key) := by
  rw [spanOf]
  cases data with
  | nil => exact gives_refuse _
  | cons b tail =>
    simp only [List.getElem?_cons_zero, Bencode.spanOf]
    cases hlead : Lead.of b with
    | dict =>
      exact gives_loop (walkAnswer (b :: tail) key) (fun _ => True) Event.sound_turned
        (fun s _ => walkTurn_turned hdata key s) (s := (none, 1)) trivial
    | _ => exact gives_refuse _

end Buffer

end BitTorrent.Bencode.ByOffset
