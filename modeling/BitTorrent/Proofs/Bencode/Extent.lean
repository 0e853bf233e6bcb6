import BitTorrent.Bencode.Extent
import BitTorrent.Proofs.Bencode.Token

/-! The bracket scan stays on the boundaries of the grammar. It passes over a derived
value and is back at the level where it was, so the closing byte of a derived container
or integer is found whatever its strings hold and whatever comes after. Where it finds
a closing byte in arbitrary input, that byte is an `e`. -/

namespace BitTorrent.Bencode

open ParseTree

namespace Scan

variable (level pos : Nat) (rest : Bytes)

/-! ### Over tokens -/

variable {level pos rest} in
theorem run_cons {within within' : Within} {level' : Nat} {b : UInt8}
    (h : step level within b = .more level' within') :
    run level within pos (b :: rest) = run level' within' (pos + 1) rest := by
  rw [run, h]

theorem run_payload (b : Bytes) :
    run level (.payload b.length) pos (b ++ rest) =
      run level (.payload 0) (pos + b.length) rest := by
  induction b generalizing pos with
  | nil => rfl
  | cons c b ih =>
    have hstep : step level (.payload (c :: b).length) c = .more level (.payload b.length) := rfl
    rw [List.cons_append, run_cons hstep, ih, List.length_cons, Nat.add_right_comm, Nat.add_assoc]

variable {level pos rest} in
theorem run_payload_of_le {n : Nat} (h : n ≤ rest.length) :
    run level (.payload n) pos rest = run level (.payload 0) (pos + n) (rest.drop n) := by
  have hlen : (rest.take n).length = n := by rw [List.length_take, Nat.min_eq_left h]
  have hrun := run_payload level pos (rest.drop n) (rest.take n)
  rwa [List.take_append_drop, hlen] at hrun

variable {level pos rest} in
theorem run_payload_of_lt {n : Nat} (h : rest.length < n) :
    run level (.payload n) pos rest = .error .truncatedInput := by
  induction rest generalizing pos n with
  | nil => rfl
  | cons b rest ih =>
    obtain ⟨m, rfl⟩ : ∃ m, n = m + 1 := ⟨n - 1, by omega⟩
    have hstep : step level (.payload (m + 1)) b = .more level (.payload m) := rfl
    rw [run_cons hstep]
    exact ih (Nat.lt_of_succ_lt_succ h)

theorem run_digits {digits : Bytes} (h : ∀ b ∈ digits, Decimal.isDigit b) (v : Option Nat) :
    run level (.digits v) pos (digits ++ rest) =
      run level (.digits (digits.foldl
        (fun v b => Decimal.push ByteString.lengthLimit v (Decimal.digitValue b)) v))
        (pos + digits.length) rest := by
  induction digits generalizing pos v with
  | nil => rfl
  | cons b digits ih =>
    obtain ⟨hb, hds⟩ := List.forall_mem_cons.mp h
    have hstep : step level (.digits v) b =
        .more level (.digits (Decimal.push ByteString.lengthLimit v (Decimal.digitValue b))) := by
      simp only [step, Lead.of_isDigit hb]
    rw [List.cons_append, run_cons hstep, ih _ hds, List.foldl_cons, List.length_cons,
      Nat.add_right_comm, Nat.add_assoc]

theorem run_numeral (n : Numeral) :
    run level (.payload 0) pos (n.digits ++ rest) =
      run level (.digits (Decimal.readBelow ByteString.lengthLimit n.digits))
        (pos + n.digits.length) rest := by
  obtain ⟨b, ds, hds⟩ := List.exists_cons_of_ne_nil n.ne_nil
  obtain ⟨hb, htail⟩ := List.forall_mem_cons.mp (hds ▸ n.isDigit)
  have hstep : step level (.payload 0) b = .more level
      (.digits (Decimal.push ByteString.lengthLimit (some 0) (Decimal.digitValue b))) := by
    simp only [step, between, Lead.of_isDigit hb]
  rw [hds, List.cons_append, run_cons hstep, run_digits _ _ _ htail, List.length_cons,
    Nat.add_right_comm, Nat.add_assoc]
  rfl

/-- Wherever the bytes stand, the scan passes over them and is back at the level where it was. -/
def Passes (w : Bytes) : Prop :=
  ∀ level pos rest, run level (.payload 0) pos (w ++ rest) =
    run level (.payload 0) (pos + w.length) rest

theorem passes_string (s : StringForm) : Passes s.text := by
  intro level pos rest
  have hread : Decimal.readBelow ByteString.lengthLimit s.length.digits = some s.payload.length :=
    (Decimal.readBelow_eq_some_iff (by decide)).mpr ⟨s.declared, s.declared ▸ s.inRange⟩
  have hcolon (p : Nat) (more : Bytes) :
      run level (.digits (some s.payload.length)) p (0x3a :: more) =
      run level (.payload s.payload.length) (p + 1) more := rfl
  rw [StringForm.text, List.append_assoc, run_numeral, hread, List.cons_append, hcolon, run_payload]
  simp only [List.length_append, List.length_cons]
  congr 1
  omega

/-- The digits of an integer end at its `e`, and so are not taken for a length. -/
theorem run_body (i : IntegerForm) :
    run level (.payload 0) pos (i.body ++ 0x65 :: rest) =
      run level (.payload 0) (pos + i.body.length) (0x65 :: rest) := by
  have hclose (v : Option Nat) (p : Nat) :
      run level (.digits v) p (0x65 :: rest) = run level (.payload 0) p (0x65 :: rest) := rfl
  have hminus (p : Nat) (more : Bytes) :
      run level (.payload 0) p (0x2d :: more) = run level (.payload 0) (p + 1) more := rfl
  unfold IntegerForm.body
  split
  · rw [List.cons_append, hminus, run_numeral, hclose, List.length_cons, Nat.add_right_comm,
      Nat.add_assoc]
  · rw [run_numeral, hclose]

/-! ### Over values -/

theorem Passes.append {v w : Bytes} (hv : Passes v) (hw : Passes w) : Passes (v ++ w) := by
  intro level pos rest
  rw [List.append_assoc, hv level, hw level, List.length_append, Nat.add_assoc]

theorem Passes.flatMap {α : Type} {f : α → Bytes} {es : List α} (h : ∀ e ∈ es, Passes (f e)) :
    Passes (es.flatMap f) := by
  induction es with
  | nil => exact fun _ _ _ => rfl
  | cons e es ih =>
    obtain ⟨he, hes⟩ := List.forall_mem_cons.mp h
    exact he.append (ih hes)

/-- An opening byte and an `e`, and between them bytes that the scan passes over to come from the
one to the other. -/
def Bracketed (w : Bytes) : Prop :=
  ∃ b inner, w = b :: (inner ++ [0x65]) ∧
    (Lead.of b = .integer ∨ Lead.of b = .list ∨ Lead.of b = .dict) ∧
    ∀ level pos rest, run level (.payload 0) pos (inner ++ 0x65 :: rest) =
      run level (.payload 0) (pos + inner.length) (0x65 :: rest)

theorem bracketed_integer (i : IntegerForm) : Bracketed i.text :=
  ⟨0x69, i.body, rfl, .inl rfl, fun level pos rest => run_body level pos rest i⟩

theorem Passes.bracketed {b : UInt8} {w : Bytes} (h : Passes w)
    (hb : Lead.of b = .list ∨ Lead.of b = .dict) : Bracketed (b :: (w ++ [0x65])) :=
  ⟨b, w, rfl, .inr hb, fun level pos rest => h level pos (0x65 :: rest)⟩

/-- A level that is entered at the opening byte is left at the closing one. -/
theorem Bracketed.passes {w : Bytes} (h : Bracketed w) : Passes w := by
  obtain ⟨b, inner, rfl, hb, hinner⟩ := h
  intro level pos rest
  have hopen : step level (.payload 0) b = .more (level + 1) (.payload 0) := by
    rcases hb with hb | hb | hb <;> simp only [step, between, hb]
  have hclose (p : Nat) :
      run (level + 1) (.payload 0) p (0x65 :: rest) = run level (.payload 0) (p + 1) rest := rfl
  rw [List.cons_append, List.append_assoc, List.singleton_append, run_cons hopen, hinner, hclose,
    List.length_cons, List.length_append, List.length_singleton]
  congr 1
  omega

theorem Bracketed.closing {w : Bytes} (h : Bracketed w) (pos : Nat) (rest : Bytes) :
    closing pos (w ++ rest) = .ok (pos + w.length - 1) := by
  obtain ⟨b, inner, rfl, hb, hinner⟩ := h
  have hopen (more : Bytes) :
      Bencode.closing pos (b :: more) = run 0 (.payload 0) (pos + 1) more := by
    rcases hb with hb | hb | hb <;> simp only [Bencode.closing, hb]
  have hclose (p : Nat) : run 0 (.payload 0) p (0x65 :: rest) = .ok p := rfl
  rw [List.cons_append, List.append_assoc, List.singleton_append, hopen, hinner, hclose,
    List.length_cons, List.length_append, List.length_singleton]
  congr 1
  omega

theorem passes_entries {entries : List (StringForm × ParseTree)}
    (h : ∀ e ∈ entries, Passes e.2.text) : Passes (textOfEntries entries) := by
  rw [textOfEntries_eq_flatMap]
  exact Passes.flatMap fun e he => (passes_string e.1).append (h e he)

/-- The scan passes over a derived value, by induction on the derivation. -/
theorem passes_text (t : ParseTree) : Passes t.text := by
  induction t with
  | integer i => exact (bracketed_integer i).passes
  | string s => exact passes_string s
  | list items ih =>
    rw [text, textOfItems_eq_flatMap]
    exact ((Passes.flatMap ih).bracketed (.inl rfl)).passes
  | dict entries ih =>
    rw [text]
    exact ((passes_entries ih).bracketed (.inr rfl)).passes

theorem bracketed_text {t : ParseTree} (h : ∀ s, t ≠ .string s) : Bracketed t.text := by
  cases t with
  | integer i => exact bracketed_integer i
  | string s => exact absurd rfl (h s)
  | list items =>
    rw [text, textOfItems_eq_flatMap]
    exact (Passes.flatMap fun t _ => passes_text t).bracketed (.inl rfl)
  | dict entries =>
    rw [text]
    exact (passes_entries fun e _ => passes_text e.2).bracketed (.inr rfl)

/-! ### Over any input -/

theorem eq_of_step_eq_closed {level : Nat} {within : Within} {b : UInt8}
    (h : step level within b = .closed) : b = 0x65 := by
  have hbetween (h : between level b = .closed) : b = 0x65 := by
    unfold between at h
    split at h
    · exact Lead.of_eq_close_iff.mp ‹_›
    all_goals cases h
  unfold step at h
  split at h
  · cases h
  · exact hbetween h
  · split at h
    · cases h
    · split at h
      · split at h <;> cases h
      · exact hbetween h

/-- The scan stops at an `e`. -/
theorem exists_of_run {level pos stop : Nat} {within : Within} {rest : Bytes}
    (h : run level within pos rest = .ok stop) :
    ∃ i, stop = pos + i ∧ rest[i]? = some 0x65 := by
  induction rest generalizing level within pos with
  | nil => cases h
  | cons b rest ih =>
    rw [run] at h
    split at h
    · rename_i hs
      cases h
      exact ⟨0, rfl, by simp [eq_of_step_eq_closed hs]⟩
    · obtain ⟨i, rfl, hi⟩ := ih h
      exact ⟨i + 1, by omega, hi⟩
    · cases h
    · cases h

end Scan

/-! ### Closing bytes and sizes -/

/-- The closing byte of a derived value that is not a byte string is its last. -/
theorem closing_text {t : ParseTree} (h : ∀ s, t ≠ .string s) (pos : Nat) (rest : Bytes) :
    closing pos (t.text ++ rest) = .ok (pos + t.text.length - 1) :=
  (Scan.bracketed_text h).closing pos rest

/-- A closing byte that is found is an `e`. -/
theorem exists_of_closing {pos stop : Nat} {rest : Bytes} (h : closing pos rest = .ok stop) :
    ∃ i, stop = pos + 1 + i ∧ rest[i + 1]? = some 0x65 := by
  unfold closing at h
  split at h
  · cases h
  · split at h
    · exact Scan.exists_of_run h
    · exact Scan.exists_of_run h
    · exact Scan.exists_of_run h
    · cases h

end BitTorrent.Bencode
