import BitTorrent.Bencode.Value
import BitTorrent.Proofs.Text.Utf8

/-! Values by their kinds: induction over what they hold, and what the entries of a dictionary say.
An entry is asked for as one of the four kinds, as a text or as a number below a bound, and is
either of that kind or counts as none. -/

namespace BitTorrent.Bencode

namespace Value

/-- Induction over values: what holds of the elements of a container holds of it. -/
@[elab_as_elim, induction_eliminator]
theorem ind {motive : Value → Prop} (integer : ∀ n, motive (.integer n))
    (bytes : ∀ b, motive (.bytes b))
    (list : ∀ items, (∀ v ∈ items, motive v) → motive (.list items))
    (dict : ∀ d, (∀ e ∈ d.entries, motive e.2) → motive (.dict d)) (v : Value) : motive v := by
  refine Value.rec (motive_1 := motive) (motive_2 := fun vs => ∀ v ∈ vs, motive v)
    (motive_3 := fun d => ∀ e ∈ d.entries, motive e.2) (motive_4 := fun es => ∀ e ∈ es, motive e.2)
    (motive_5 := fun e => motive e.2) integer bytes list dict ?_ ?_ ?_ ?_ ?_ ?_ v
  · intro v h
    cases h
  · intro v vs hv hvs
    exact List.forall_mem_cons.mpr ⟨hv, hvs⟩
  · intro es h
    exact h
  · intro e h
    cases h
  · intro e es he hes
    exact List.forall_mem_cons.mpr ⟨he, hes⟩
  · intro k v hv
    exact hv

variable {v : Value}

theorem integer?_eq_some_iff {n : Int64} : v.integer? = some n ↔ v = .integer n := by
  cases v <;> simp [integer?]

theorem bytes?_eq_some_iff {b : Bytes} : v.bytes? = some b ↔ v = .bytes b := by
  cases v <;> simp [bytes?]

theorem list?_eq_some_iff {items : List Value} : v.list? = some items ↔ v = .list items := by
  cases v <;> simp [list?]

theorem dict?_eq_some_iff {d : Dict Value} : v.dict? = some d ↔ v = .dict d := by
  cases v <;> simp [dict?]

theorem text?_eq_some_iff {s : String} : v.text? = some s ↔ v = .bytes (Bytes.ofText s) := by
  cases v <;> simp [text?, Utf8.decode?_eq_some_iff]

theorem natBelow?_eq_some_iff {bound n : Nat} :
    v.natBelow? bound = some n ↔ n < bound ∧ ∃ i : Int64, v = .integer i ∧ i.toInt = n := by
  unfold natBelow?
  cases v with
  | integer i =>
    simp only [integer?, Option.bind_some, integer.injEq, exists_eq_left']
    split
    · simp only [Option.some.injEq]
      omega
    · simp only [reduceCtorEq, false_iff]
      omega
  | _ => simp [integer?]

/-- Values are all texts exactly if they are the bytes of these texts. -/
theorem mapM_text?_eq_some_iff {vs : List Value} {ss : List String} :
    vs.mapM text? = some ss ↔ vs = ss.map fun s => .bytes (Bytes.ofText s) := by
  induction vs generalizing ss with
  | nil => cases ss <;> simp
  | cons v vs ih =>
    cases ss <;> simp [List.mapM_cons, Option.bind_eq_some_iff, ih, text?_eq_some_iff]

end Value

namespace Dict

variable {d : Dict Value} {key : String}

/-- The entry under `key` is a byte string. -/
def HasBytes (d : Dict Value) (key : String) (b : Bytes) : Prop :=
  d.get? (Bytes.ofText key) = some (.bytes b)

/-- The entry under `key` is a text, in UTF-8. -/
def HasText (d : Dict Value) (key s : String) : Prop := d.HasBytes key (Bytes.ofText s)

/-- The entry under `key` is a list of texts. -/
def HasTexts (d : Dict Value) (key : String) (ss : List String) : Prop :=
  d.get? (Bytes.ofText key) = some (.list (ss.map fun s => .bytes (Bytes.ofText s)))

/-- The entry under `key` is an integer that is not negative. -/
def HasNat (d : Dict Value) (key : String) (n : Nat) : Prop :=
  ∃ i : Int64, d.get? (Bytes.ofText key) = some (.integer i) ∧ i.toInt = n

theorem bind_bytes?_eq_some_iff {b : Bytes} :
    (d.get? (Bytes.ofText key)).bind Value.bytes? = some b ↔ d.HasBytes key b := by
  simp [Option.bind_eq_some_iff, Value.bytes?_eq_some_iff, HasBytes]

theorem bind_text?_eq_some_iff {s : String} :
    (d.get? (Bytes.ofText key)).bind Value.text? = some s ↔ d.HasText key s := by
  simp [Option.bind_eq_some_iff, Value.text?_eq_some_iff, HasText, HasBytes]

theorem bind_natBelow?_eq_some_iff {bound n : Nat} :
    (d.get? (Bytes.ofText key)).bind (Value.natBelow? bound) = some n ↔
      n < bound ∧ d.HasNat key n := by
  simp only [Option.bind_eq_some_iff, Value.natBelow?_eq_some_iff, HasNat]
  constructor
  · rintro ⟨v, hv, hn, i, rfl, hi⟩
    exact ⟨hn, i, hv, hi⟩
  · rintro ⟨hn, i, hv, hi⟩
    exact ⟨.integer i, hv, hn, i, rfl, hi⟩

theorem bind_text?_eq_none_iff :
    (d.get? (Bytes.ofText key)).bind Value.text? = none ↔ ∀ s, ¬d.HasText key s := by
  simp only [Option.eq_none_iff_forall_ne_some, ne_eq, bind_text?_eq_some_iff]

theorem bind_natBelow?_eq_none_iff {bound : Nat} :
    (d.get? (Bytes.ofText key)).bind (Value.natBelow? bound) = none ↔
      ∀ n < bound, ¬d.HasNat key n := by
  simp only [Option.eq_none_iff_forall_ne_some, ne_eq, bind_natBelow?_eq_some_iff, not_and]

end Dict

end BitTorrent.Bencode
