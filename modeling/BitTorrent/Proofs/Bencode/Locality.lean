import BitTorrent.Proofs.Bencode.Extent

/-! What the bracket scan depends on. It looks at nothing after the byte where it stops, and an
input that ends sooner runs out; what stands in front of the input only moves the offsets that
it tells. With one more bracket open it takes the same steps, and goes on where the scan with
fewer open brackets has stopped, so the scan of a container finds the end of every container
inside before its own. -/

namespace BitTorrent.Bencode

namespace Scan

variable {level pos stop : Nat} {within : Within} {rest : Bytes}

/-! ### The byte where the scan stops -/

/-- A result that was decided at the byte at this offset. -/
inductive StopsAt : Except Error Nat → Nat → Prop
  | closed (o : Nat) : StopsAt (.ok o) o
  | unexpected (b : UInt8) (o : Nat) : StopsAt (.error (.unexpectedByte b o)) o

theorem exists_eq_cons_of_agree {b : UInt8} {other : Bytes} {i : Nat}
    (h : ∀ j ≤ i, other[j]? = (b :: rest)[j]?) :
    ∃ tail, other = b :: tail ∧ ∀ j < i, tail[j]? = rest[j]? := by
  cases other with
  | nil => cases h 0 (Nat.zero_le i)
  | cons c tail =>
    cases h 0 (Nat.zero_le i)
    exact ⟨tail, rfl, fun j hj => h (j + 1) hj⟩

/-- Input that agrees up to the byte where the scan stops is scanned alike, by induction on what is
in front of that byte. -/
theorem exists_of_stopsAt {o : Nat} (h : StopsAt (run level within pos rest) o) :
    ∃ i < rest.length, o = pos + i ∧ ∀ other : Bytes, (∀ j ≤ i, other[j]? = rest[j]?) →
      run level within pos other = run level within pos rest := by
  induction rest generalizing level within pos with
  | nil => cases h
  | cons b rest ih =>
    rw [run] at h
    cases hstep : step level within b with
    | closed | unexpected =>
      rw [hstep] at h
      cases h
      refine ⟨0, Nat.succ_pos _, rfl, fun other hother => ?_⟩
      obtain ⟨tail, rfl, -⟩ := exists_eq_cons_of_agree hother
      rw [run, run, hstep]
    | more level' within' =>
      rw [hstep] at h
      obtain ⟨i, hi, rfl, hsame⟩ := ih h
      refine ⟨i + 1, Nat.succ_lt_succ hi, by omega, fun other hother => ?_⟩
      obtain ⟨tail, rfl, htail⟩ := exists_eq_cons_of_agree hother
      rw [run, run, hstep]
      exact hsame tail fun j hj => htail j (Nat.lt_succ_of_le hj)
    | truncated =>
      rw [hstep] at h
      cases h

/-! ### The end of the input -/

/-- Bytes after the closing one change nothing. -/
theorem run_append (h : run level within pos rest = .ok stop) (more : Bytes) :
    run level within pos (rest ++ more) = .ok stop := by
  have hstop : StopsAt (run level within pos rest) stop := h ▸ .closed stop
  obtain ⟨i, hi, -, hsame⟩ := exists_of_stopsAt hstop
  rw [← h]
  exact hsame (rest ++ more) fun j hj => List.getElem?_append_left (Nat.lt_of_le_of_lt hj hi)

/-- A cut after the closing byte changes nothing, and without the closing byte the input runs
out. -/
theorem run_of_isPrefix {cut : Bytes} (h : run level within pos rest = .ok stop)
    (hcut : cut <+: rest) : run level within pos cut =
      if stop < pos + cut.length then .ok stop else .error .truncatedInput := by
  induction cut generalizing level within pos rest with
  | nil =>
    obtain ⟨i, rfl, -⟩ := exists_of_run h
    rw [if_neg (by simp)]
    rfl
  | cons b cut ih =>
    obtain ⟨back, rfl⟩ := hcut
    rw [List.cons_append, run] at h
    rw [run, List.length_cons]
    split at h
    · cases h
      rw [if_pos (by omega)]
    · rw [ih h ⟨back, rfl⟩, Nat.add_right_comm, Nat.add_assoc]
    · cases h
    · cases h

/-! ### Where the input starts -/

/-- The same result, told of input that starts `n` bytes later. -/
def moved (n : Nat) : Except Error Nat → Except Error Nat
  | .ok o => .ok (n + o)
  | .error (.unexpectedByte b o) => .error (.unexpectedByte b (n + o))
  | r => r

theorem run_add (n level pos : Nat) (within : Within) (rest : Bytes) :
    run level within (n + pos) rest = moved n (run level within pos rest) := by
  induction rest generalizing level within pos with
  | nil => rfl
  | cons b rest ih =>
    rw [run, run]
    cases step level within b with
    | more level within => exact ih level (pos + 1) within
    | closed | unexpected | truncated => rfl

/-! ### One more open bracket -/

/-- A step of the scan with one more bracket open. -/
def deepen : Step → Step
  | .closed => .more 0 (.payload 0)
  | .more level within => .more (level + 1) within
  | .unexpected => .unexpected
  | .truncated => .truncated

theorem step_succ (level : Nat) (within : Within) (b : UInt8) :
    step (level + 1) within b = deepen (step level within b) := by
  have hbetween : between (level + 1) b = deepen (between level b) := by
    unfold between
    cases Lead.of b with
    | close => cases level <;> rfl
    | _ => rfl
  cases within with
  | payload left =>
    cases left with
    | zero => exact hbetween
    | succ n => rfl
  | digits v =>
    simp only [step]
    split
    · rfl
    · split
      · cases v <;> rfl
      · exact hbetween

/-- The scan with one more bracket open comes past the byte where the other one stops. -/
theorem exists_of_run_succ (h : run (level + 1) within pos rest = .ok stop) :
    ∃ i, run level within pos rest = .ok (pos + i) ∧
      run 0 (.payload 0) (pos + i + 1) (rest.drop (i + 1)) = .ok stop := by
  induction rest generalizing level within pos with
  | nil => cases h
  | cons b rest ih =>
    rw [run, step_succ] at h
    rw [run]
    cases hstep : step level within b with
    | closed =>
      rw [hstep] at h
      exact ⟨0, rfl, h⟩
    | more level' within' =>
      rw [hstep] at h
      obtain ⟨i, hclose, hrest⟩ := ih h
      have hpos : pos + (i + 1) = pos + 1 + i := by omega
      exact ⟨i + 1, by rw [hpos]; exact hclose, by rw [hpos]; exact hrest⟩
    | unexpected =>
      rw [hstep] at h
      cases h
    | truncated =>
      rw [hstep] at h
      cases h

end Scan

/-! ### Closing bytes -/

variable {pos stop : Nat} {rest : Bytes}

theorem closing_cons {b : UInt8}
    (hlead : Lead.of b = .integer ∨ Lead.of b = .list ∨ Lead.of b = .dict) (pos : Nat)
    (tail : Bytes) : closing pos (b :: tail) = Scan.run 0 (.payload 0) (pos + 1) tail := by
  rcases hlead with hlead | hlead | hlead <;> simp only [closing, hlead]

theorem closing_eq_ok_iff :
    closing pos rest = .ok stop ↔ ∃ b tail, rest = b :: tail ∧
      (Lead.of b = .integer ∨ Lead.of b = .list ∨ Lead.of b = .dict) ∧
      Scan.run 0 (.payload 0) (pos + 1) tail = .ok stop := by
  constructor
  · intro h
    cases rest with
    | nil => cases h
    | cons b tail =>
      have hlead : Lead.of b = .integer ∨ Lead.of b = .list ∨ Lead.of b = .dict := by
        cases hb : Lead.of b <;> simp [closing, hb] at h ⊢
      exact ⟨b, tail, rfl, hlead, closing_cons hlead pos tail ▸ h⟩
  · rintro ⟨b, tail, rfl, hlead, h⟩
    rwa [closing_cons hlead]

/-- Where a value closes does not depend on what comes after it. -/
theorem closing_append (h : closing pos rest = .ok stop) (more : Bytes) :
    closing pos (rest ++ more) = .ok stop := by
  obtain ⟨b, tail, rfl, hlead, hrun⟩ := closing_eq_ok_iff.mp h
  exact closing_eq_ok_iff.mpr ⟨b, tail ++ more, rfl, hlead, Scan.run_append hrun more⟩

/-- A value that is cut before its closing byte runs out of input. -/
theorem closing_of_isPrefix {cut : Bytes} (h : closing pos rest = .ok stop) (hcut : cut <+: rest)
    (hlen : pos + cut.length ≤ stop) : closing pos cut = .error .truncatedInput := by
  obtain ⟨b, tail, rfl, hlead, hrun⟩ := closing_eq_ok_iff.mp h
  cases cut with
  | nil => rfl
  | cons c cut =>
    obtain ⟨rfl, htail⟩ := List.cons_prefix_cons.mp hcut
    rw [List.length_cons] at hlen
    rw [closing_cons hlead, Scan.run_of_isPrefix hrun htail, if_neg (by omega)]

theorem closing_of_not_bracket {b : UInt8}
    (hlead : ¬(Lead.of b = .integer ∨ Lead.of b = .list ∨ Lead.of b = .dict)) (pos : Nat)
    (tail : Bytes) : closing pos (b :: tail) = .error (.unexpectedByte b pos) := by
  simp only [not_or] at hlead
  unfold closing
  split <;> simp_all

theorem exists_of_closing_stopsAt {o : Nat} (h : Scan.StopsAt (closing pos rest) o) :
    ∃ i, o = pos + i ∧ ∀ other : Bytes, (∀ j ≤ i, other[j]? = rest[j]?) →
      closing pos other = closing pos rest := by
  cases rest with
  | nil => cases h
  | cons b tail =>
    by_cases hlead : Lead.of b = .integer ∨ Lead.of b = .list ∨ Lead.of b = .dict
    · rw [closing_cons hlead] at h
      obtain ⟨i, -, rfl, hsame⟩ := Scan.exists_of_stopsAt h
      refine ⟨i + 1, by omega, fun other hother => ?_⟩
      obtain ⟨tail', rfl, htail⟩ := Scan.exists_eq_cons_of_agree hother
      rw [closing_cons hlead, closing_cons hlead]
      exact hsame tail' fun j hj => htail j (Nat.lt_succ_of_le hj)
    · rw [closing_of_not_bracket hlead] at h
      cases h
      refine ⟨0, rfl, fun other hother => ?_⟩
      obtain ⟨tail', rfl, -⟩ := Scan.exists_eq_cons_of_agree hother
      rw [closing_of_not_bracket hlead, closing_of_not_bracket hlead]

theorem closing_add (n pos : Nat) (rest : Bytes) :
    closing (n + pos) rest = Scan.moved n (closing pos rest) := by
  cases rest with
  | nil => rfl
  | cons b tail =>
    by_cases hlead : Lead.of b = .integer ∨ Lead.of b = .list ∨ Lead.of b = .dict
    · rw [closing_cons hlead, closing_cons hlead]
      exact Scan.run_add n 0 (pos + 1) (.payload 0) tail
    · rw [closing_of_not_bracket hlead, closing_of_not_bracket hlead]
      rfl

/-! ### Values inside of an input -/

section Inside

variable {data : Bytes} {start o : Nat}

/-- Only the bytes up to the one where the scan stops have been looked at. -/
theorem closingAt_congr (h : Scan.StopsAt (closingAt data start) o) {other : Bytes}
    (hother : ∀ i ≤ o, other[i]? = data[i]?) : closingAt other start = closingAt data start := by
  obtain ⟨i, rfl, hsame⟩ := exists_of_closing_stopsAt h
  refine hsame (other.drop start) fun j hj => ?_
  rw [List.getElem?_drop, List.getElem?_drop, hother (start + j) (Nat.add_le_add_left hj start)]

/-- What stands in front of the input moves the result. -/
theorem closingAt_append_left (front data : Bytes) (start : Nat) :
    closingAt (front ++ data) (front.length + start) =
      Scan.moved front.length (closingAt data start) := by
  rw [closingAt, List.drop_length_add_append, closing_add]
  rfl

theorem exists_of_closingAt {stop : Nat} (h : closingAt data start = .ok stop) :
    start < stop ∧ stop < data.length ∧ data[stop]? = some 0x65 := by
  obtain ⟨i, rfl, hi⟩ := exists_of_closing h
  rw [List.getElem?_drop, ← Nat.add_assoc, Nat.add_right_comm] at hi
  exact ⟨by omega, (List.getElem?_eq_some_iff.mp hi).1, hi⟩

theorem closingAt_take {stop k : Nat} (h : closingAt data start = .ok stop) (hk : k ≤ stop) :
    closingAt (data.take k) start = .error .truncatedInput := by
  obtain ⟨hstart, hstop, -⟩ := exists_of_closingAt h
  rw [closingAt, List.drop_take]
  refine closing_of_isPrefix h (List.take_prefix _ _) ?_
  rw [List.length_take, List.length_drop]
  omega

end Inside

/-- Where a value closes is a matter of its own bytes. The closing byte is an `e` behind the opening
one. It is found at the same place in the value whatever stands in front of the value and whatever
follows it, and a cut in front of it leaves the input truncated. If the scan stops at an unexpected
byte instead, it does so in every input that agrees up to that byte. -/
theorem closingAt_local (data : Bytes) (start : Nat) :
    (∀ stop, closingAt data start = .ok stop →
      (start < stop ∧ stop < data.length ∧ data[stop]? = some 0x65) ∧
      (∀ front back, closingAt (front ++ data.take (stop + 1) ++ back) (front.length + start) =
        .ok (front.length + stop)) ∧
      ∀ k ≤ stop, closingAt (data.take k) start = .error .truncatedInput) ∧
    ∀ b o, closingAt data start = .error (.unexpectedByte b o) →
      ∀ other : Bytes, (∀ i ≤ o, other[i]? = data[i]?) →
        closingAt other start = .error (.unexpectedByte b o) := by
  constructor
  · intro stop h
    obtain ⟨hstart, hstop, hlast⟩ := exists_of_closingAt h
    refine ⟨⟨hstart, hstop, hlast⟩, fun front back => ?_, fun k hk => closingAt_take h hk⟩
    have hclosed : Scan.StopsAt (closingAt data start) stop := h ▸ .closed stop
    have hsame : closingAt (data.take (stop + 1) ++ back) start = closingAt data start := by
      refine closingAt_congr hclosed fun i hi => ?_
      have hlen : i < (data.take (stop + 1)).length := by
        rw [List.length_take]
        omega
      rw [List.getElem?_append_left hlen, List.getElem?_take_of_lt (Nat.lt_succ_of_le hi)]
    rw [List.append_assoc, closingAt_append_left, hsame, h]
    rfl
  · intro b o h other hother
    have hunexpected : Scan.StopsAt (closingAt data start) o := h ▸ .unexpected b o
    rw [← h]
    exact closingAt_congr hunexpected hother

/-- A list whose string holds brackets, with other bytes around it, and digits that are no length.
-/
theorem closingAt_local_of_brackets :
    let data := Bytes.ofText "ql2:lei7eei"
    closingAt data 1 = .ok 9 ∧
      closingAt (Bytes.ofText "9:" ++ data.take 10 ++ Bytes.ofText "e") 3 = .ok 11 ∧
      closingAt (data.take 6) 1 = .error .truncatedInput ∧
      closingAt (Bytes.ofText "ql31xe") 1 = .error (.unexpectedByte 0x78 4) ∧
      closingAt (Bytes.ofText "ql31x5:") 1 = .error (.unexpectedByte 0x78 4) := by
  intro data
  have hdata : closingAt data 1 = .ok 9 := by decide +kernel
  have hstray : closingAt (Bytes.ofText "ql31xe") 1 = .error (.unexpectedByte 0x78 4) := by
    decide +kernel
  obtain ⟨-, haround, hcut⟩ := (closingAt_local data 1).1 9 hdata
  refine ⟨hdata, haround (Bytes.ofText "9:") (Bytes.ofText "e"), hcut 6 (by decide), hstray, ?_⟩
  refine (closingAt_local (Bytes.ofText "ql31xe") 1).2 0x78 4 hstray _ ?_
  decide +kernel

end BitTorrent.Bencode
