import BitTorrent.Proofs.Bencode.ByOffset.Token

/-! Closing bytes that are found by offsets. Each turn of the scan leaves the answer of the bracket
scan as it was, also where it passes a run of digits or a payload as a whole. So the scan comes to
an end within the buffer and has the answer of `closingAt`. -/

namespace BitTorrent.Bencode.ByOffset

/-! ### Answers -/

/-- What the bracket scan answers from an offset on, with this many brackets open in all. -/
def scanAnswer (data : Bytes) : Nat × Nat → Except Error Nat
  | (level, pos) => Scan.run (level - 1) (.payload 0) pos (data.drop pos)

/-- Some bracket is open, and there is a byte in front of the offset for each that is. -/
def ScanState (s : Nat × Nat) : Prop := 0 < s.1 ∧ s.1 ≤ s.2

/-- What a turn of the scan from `s` comes to. -/
abbrev ScanTurned (data : Bytes) (s : Nat × Nat) : Except Error (Nat ⊕ Nat × Nat) → Prop :=
  Turned (scanAnswer data) (fun next => ScanState next ∧ s.2 < next.2 ∧ next.2 ≤ data.length) s

variable {options : Options} {data : Bytes} {n pos : Nat}

theorem scanTurned_on {m next : Nat}
    (h : scanAnswer data (n + 1, pos) = scanAnswer data (m + 1, next)) (hlevel : m + 1 ≤ next)
    (hlt : pos < next) (hle : next ≤ data.length) :
    ScanTurned data (n + 1, pos) (.ok (.inr (m + 1, next))) :=
  .on h ⟨⟨Nat.succ_pos m, hlevel⟩, hlt, hle⟩

variable {l : Numeral} {after : Bytes}

theorem scanAnswer_numeral (hl : data.drop pos = l.digits ++ after) :
    scanAnswer data (n + 1, pos) =
      Scan.run n (.digits (Decimal.readBelow ByteString.lengthLimit l.digits))
        (pos + l.digits.length) after := by
  rw [scanAnswer, hl, Nat.add_sub_cancel, Scan.run_numeral]

/-- Digits that are no length are passed alone. -/
theorem scanAnswer_stray (hl : data.drop pos = l.digits ++ after)
    (hafter : ∀ c, after.head? = some c → Decimal.isDigit c = false ∧ c ≠ 0x3a) :
    scanAnswer data (n + 1, pos) = scanAnswer data (n + 1, pos + l.digits.length) := by
  rw [scanAnswer_numeral hl, scanAnswer, drop_add_of_eq_append hl]
  cases after with
  | nil => rfl
  | cons c after =>
    obtain ⟨hc, hcolon⟩ := hafter c rfl
    rw [Scan.run_stray hc hcolon]
    rfl

/-! ### Turns -/

variable (hdata : data.length < 2 ^ 63)
include hdata

/-- A length is passed together with its payload. -/
theorem stringEnd_turned (hl : data.drop pos = l.digits ++ 0x3a :: after) (hle : n + 1 ≤ pos)
    (hpos : pos < data.length) :
    (do
      let next ← stringEnd data pos (pos + l.digits.length)
      return .inr (n + 1, next) : Run (Nat ⊕ Nat × Nat)).Ends (Event.Sound options data)
        (ScanTurned data (n + 1, pos)) := by
  have hlen := add_length_of_eq_append (Nat.le_of_lt hpos) hl
  rw [List.length_cons] at hlen
  have hslice : (data.drop pos).take (pos + l.digits.length - pos) = l.digits := by
    rw [hl, Nat.add_sub_cancel_left, List.take_left]
  have hanswer : scanAnswer data (n + 1, pos) = _ := scanAnswer_numeral hl
  simp only [stringEnd, bind_assoc]
  refine (gives_slice (Nat.le_add_right _ _) (by omega)).ok_bind ?_
  rw [hslice]
  cases hread : Decimal.readBelow ByteString.lengthLimit l.digits with
  | none =>
    rw [hread] at hanswer
    exact (refuses_lengthOf hread).error_bind.ends (.refused hanswer)
  | some v =>
    have hpayload : scanAnswer data (n + 1, pos) =
        Scan.run n (.payload v) (pos + l.digits.length + 1) after := by
      rw [hanswer, hread]
      rfl
    refine (gives_lengthOf hread).ok_bind ((gives_add (by omega)).ok_bind ?_)
    by_cases hv : v ≤ after.length
    · have hrest : data.drop (pos + l.digits.length + 1 + v) = after.drop v := by
        rw [← List.drop_drop, ← List.drop_drop, drop_add_of_eq_append hl, List.drop_succ_cons,
          List.drop_zero]
      refine (gives_payloadEnd hdata (by omega)).ok_bind ((gives_pure _).ends ?_)
      refine scanTurned_on ?_ (by omega) (by omega) (by omega)
      rw [hpayload, Scan.run_payload_of_le hv, scanAnswer, hrest]
      rfl
    · refine (refuses_payloadEnd (by omega)).error_bind.ends (.refused ?_)
      rw [hpayload, Scan.run_payload_of_lt (Nat.lt_of_not_le hv)]

/-- A run of digits is passed in one turn, with the payload if it is the length of one. -/
theorem scanTurn_digit {b : UInt8} {d : Nat} (hle : n + 1 ≤ pos) (hget : data[pos]? = some b)
    (hlead : Lead.of b = .digit d) :
    (scanTurn data (n + 1) pos).Ends (Event.Sound options data) (ScanTurned data (n + 1, pos)) := by
  have hpos := lt_length_of_getElem? hget
  obtain ⟨l, hdigits⟩ : ∃ l : Numeral, l.digits = (data.drop pos).takeWhile Decimal.isDigit :=
    ⟨⟨_, by simp [drop_of_getElem? hget, Lead.isDigit_of_eq_digit hlead],
      List.all_eq_true.mp List.all_takeWhile⟩, rfl⟩
  have hl : data.drop pos = l.digits ++ (data.drop pos).dropWhile Decimal.isDigit := by
    rw [hdigits, List.takeWhile_append_dropWhile]
  have hskip : (skipDigits data pos).Gives (Event.Sound options data) _ :=
    gives_skipDigits hdata pos
  have hafter := List.head?_dropWhile_not Decimal.isDigit (data.drop pos)
  have hne : 0 < l.digits.length := List.length_pos_iff.mpr l.ne_nil
  rw [← hdigits] at hskip
  generalize (data.drop pos).dropWhile Decimal.isDigit = after at hl hafter
  have hlen := add_length_of_eq_append (Nat.le_of_lt hpos) hl
  simp only [scanTurn, hget, hlead]
  refine hskip.ok_bind ?_
  rw [← List.head?_drop, drop_add_of_eq_append hl]
  split
  · rename_i hcolon
    obtain ⟨rest, rfl⟩ : ∃ rest, after = 0x3a :: rest := List.head?_eq_some_iff.mp hcolon
    exact stringEnd_turned hdata hl hle hpos
  · rename_i hcolon
    refine (gives_pure _).ends (scanTurned_on (scanAnswer_stray hl fun c hc => ?_) ?_ ?_ ?_)
    · rw [hc] at hafter hcolon
      exact ⟨by simpa using hafter, fun h => hcolon (congrArg some h)⟩
    all_goals omega

/-- A turn of the scan keeps its answer. -/
theorem scanTurn_turned {s : Nat × Nat} (hs : ScanState s) :
    (scanTurn data s.1 s.2).Ends (Event.Sound options data) (ScanTurned data s) := by
  obtain ⟨level, pos⟩ := s
  obtain ⟨n, rfl⟩ : ∃ n, level = n + 1 := ⟨level - 1, by have := hs.1; omega⟩
  have hle : n + 1 ≤ pos := hs.2
  cases hget : data[pos]? with
  | none =>
    simp only [scanTurn, hget]
    refine (gives_refuse _).ends (.refused ?_)
    rw [scanAnswer, drop_of_getElem?_eq_none hget]
    rfl
  | some b =>
    have hlt := lt_length_of_getElem? hget
    have hdrop := drop_of_getElem? hget
    have hrun : scanAnswer data (n + 1, pos) =
        Scan.run n (.payload 0) pos (b :: data.drop (pos + 1)) := by
      rw [scanAnswer, hdrop, Nat.add_sub_cancel]
    -- Every byte but a digit is passed alone.
    have hnext {m : Nat} (hm : m ≤ n + 1) (h : Scan.step n (.payload 0) b = .more m (.payload 0)) :
        (do
          let next ← add pos 1
          return .inr (m + 1, next) : Run (Nat ⊕ Nat × Nat)).Ends (Event.Sound options data)
            (ScanTurned data (n + 1, pos)) := by
      refine (gives_add (by omega)).ok_bind ((gives_pure _).ends ?_)
      refine scanTurned_on ?_ (by omega) (Nat.lt_succ_self pos) hlt
      rw [hrun, Scan.run_cons h]
      rfl
    have hopen (h : Scan.step n (.payload 0) b = .more (n + 1) (.payload 0)) :
        (do
          let level ← add (n + 1) 1
          let next ← add pos 1
          return .inr (level, next) : Run (Nat ⊕ Nat × Nat)).Ends (Event.Sound options data)
            (ScanTurned data (n + 1, pos)) :=
      (gives_add (by omega)).ok_bind (hnext (Nat.le_refl _) h)
    cases hlead : Lead.of b with
    | close =>
      simp only [scanTurn, hget, hlead]
      refine (gives_sub (by omega)).ok_bind ?_
      rw [Nat.add_sub_cancel]
      cases n with
      | zero =>
        have hclosed : Scan.step 0 (.payload 0) b = .closed := by
          simp only [Scan.step, Scan.between, hlead]
        refine (gives_pure _).ends (.done ?_)
        rw [hrun, Scan.run, hclosed]
      | succ m => exact hnext (by omega) (by simp only [Scan.step, Scan.between, hlead])
    | integer | list | dict =>
      simp only [scanTurn, hget, hlead]
      exact hopen (by simp only [Scan.step, Scan.between, hlead])
    | minus =>
      simp only [scanTurn, hget, hlead]
      exact hnext (Nat.le_succ n) (by simp only [Scan.step, Scan.between, hlead])
    | other =>
      have hunexpected : Scan.step n (.payload 0) b = .unexpected := by
        simp only [Scan.step, Scan.between, hlead]
      simp only [scanTurn, hget, hlead]
      refine (gives_refuse _).ends (.refused ?_)
      rw [hrun, Scan.run, hunexpected]
    | digit d => exact scanTurn_digit hdata hle hget hlead

/-! ### The scan -/

theorem gives_closing (start : Nat) :
    (closing data start).Gives (Event.Sound options data) (closingAt data start) := by
  rw [closing, closingAt]
  cases hget : data[start]? with
  | none =>
    rw [drop_of_getElem?_eq_none hget]
    exact gives_refuse _
  | some b =>
    have hlt := lt_length_of_getElem? hget
    have hscan (hlead : Lead.of b = .integer ∨ Lead.of b = .list ∨ Lead.of b = .dict) :
        (do
          let pos ← add start 1
          loop data.length Prod.snd (fun (level, pos) => scanTurn data level pos) (1, pos)).Gives
            (Event.Sound options data) (Bencode.closing start (b :: data.drop (start + 1))) := by
      have hstate : ScanState (1, start + 1) := ⟨Nat.one_pos, Nat.le_add_left 1 start⟩
      rw [closing_cons hlead]
      refine (gives_add (by omega)).ok_bind ?_
      exact gives_loop (scanAnswer data) ScanState Event.sound_turned
        (fun s hs => scanTurn_turned hdata hs) hstate
    rw [drop_of_getElem? hget]
    dsimp only
    cases hlead : Lead.of b with
    | integer => exact hscan (.inl hlead)
    | list => exact hscan (.inr (.inl hlead))
    | dict => exact hscan (.inr (.inr hlead))
    | _ =>
      rw [closing_of_not_bracket (by simp [hlead])]
      exact gives_refuse _

end BitTorrent.Bencode.ByOffset
