import BitTorrent.Bencode.Value
import BitTorrent.Proofs.Bytes.Decimal

/-! The grammar of bencoded values, as derivation trees. A tree has the bytes that it
derives, the value that they write, and the number of containers that are open at once.
The side conditions of the grammar are fields of the trees, so every tree is a
derivation; none of it refers to how values are read or written. -/

namespace BitTorrent.Bencode

/-! ### Leaves -/

/-- One or more decimal digits. -/
structure Numeral where
  digits : Bytes
  ne_nil : digits ≠ []
  isDigit : ∀ b ∈ digits, Decimal.isDigit b

namespace Numeral

def value (n : Numeral) : Nat := Decimal.number n.digits

/-- There is no zero in front of other digits. -/
def Plain (n : Numeral) : Prop := n.digits.head? = some 0x30 → n.digits = [0x30]

theorem plain_iff (n : Numeral) :
    n.Plain ↔ ¬(1 < n.digits.length ∧ n.digits.head? = some 0x30) := by
  constructor
  · rintro h ⟨hlen, hhead⟩
    simp [h hhead] at hlen
  · intro h hhead
    have hlen : n.digits.length ≤ 1 := Nat.not_lt.mp fun hlen => h ⟨hlen, hhead⟩
    obtain ⟨b, tail, hb⟩ := List.exists_cons_of_ne_nil n.ne_nil
    simp_all

/-- The digits that are written for a number. -/
def ofNat (n : Nat) : Numeral :=
  ⟨Decimal.ofNat n, Decimal.ofNat_ne_nil n, fun _ h => Decimal.isDigit_of_mem_ofNat h⟩

@[simp] theorem value_ofNat (n : Nat) : (ofNat n).value = n := Decimal.number_ofNat n

theorem plain_ofNat (n : Nat) : (ofNat n).Plain := Decimal.ofNat_eq_zero_of_head?

end Numeral

/-- An integer: `i`, a minus sign or none, a numeral, `e`. It has one spelling only and fits in
64 bits. -/
structure IntegerForm where
  negative : Bool
  magnitude : Numeral
  plain : magnitude.Plain
  not_negative_zero : negative = true → magnitude.digits ≠ [0x30]
  inRange : if negative then magnitude.value ≤ 2 ^ 63 else magnitude.value < 2 ^ 63

namespace IntegerForm

def body (i : IntegerForm) : Bytes :=
  if i.negative then 0x2d :: i.magnitude.digits else i.magnitude.digits

def text (i : IntegerForm) : Bytes := 0x69 :: i.body ++ [0x65]

def number (i : IntegerForm) : Int :=
  if i.negative then -i.magnitude.value else i.magnitude.value

def value (i : IntegerForm) : Int64 := Int64.ofInt i.number

end IntegerForm

/-- A byte string: a numeral, `:`, and as many bytes as the numeral says. -/
structure StringForm where
  length : Numeral
  payload : Bytes
  declared : length.value = payload.length
  inRange : length.value < 2 ^ 64

namespace StringForm

def text (s : StringForm) : Bytes := s.length.digits ++ 0x3a :: s.payload

/-- The form in which a byte string is written. -/
def ofPayload (b : Bytes) (h : b.length < 2 ^ 64) : StringForm :=
  ⟨.ofNat b.length, b, Numeral.value_ofNat b.length, by rwa [Numeral.value_ofNat]⟩

end StringForm

/-! ### Trees -/

inductive ParseTree where
  | integer (i : IntegerForm)
  | string (s : StringForm)
  /-- `l`, any number of values, `e`. -/
  | list (items : List ParseTree)
  /-- `d`, any number of byte strings with a value after each, `e`. -/
  | dict (entries : List (StringForm × ParseTree))

namespace ParseTree

mutual
def text : ParseTree → Bytes
  | .integer i => i.text
  | .string s => s.text
  | .list items => 0x6c :: textOfItems items ++ [0x65]
  | .dict entries => 0x64 :: textOfEntries entries ++ [0x65]
def textOfItems : List ParseTree → Bytes
  | [] => []
  | t :: ts => text t ++ textOfItems ts
def textOfEntries : List (StringForm × ParseTree) → Bytes
  | [] => []
  | (k, t) :: es => k.text ++ text t ++ textOfEntries es
end

mutual
/-- A dictionary holds what its entries leave when they are inserted in order. -/
def value : ParseTree → Value
  | .integer i => .integer i.value
  | .string s => .bytes s.payload
  | .list items => .list (valuesOfItems items)
  | .dict entries => .dict (Dict.ofList (valuesOfEntries entries))
def valuesOfItems : List ParseTree → List Value
  | [] => []
  | t :: ts => value t :: valuesOfItems ts
def valuesOfEntries : List (StringForm × ParseTree) → List (Bytes × Value)
  | [] => []
  | (k, t) :: es => (k.payload, value t) :: valuesOfEntries es
end

mutual
/-- The largest number of containers open at once, those under a key that comes again
included. -/
def depth : ParseTree → Nat
  | .integer _ => 0
  | .string _ => 0
  | .list items => 1 + depthOfItems items
  | .dict entries => 1 + depthOfEntries entries
def depthOfItems : List ParseTree → Nat
  | [] => 0
  | t :: ts => max (depth t) (depthOfItems ts)
def depthOfEntries : List (StringForm × ParseTree) → Nat
  | [] => 0
  | (_, t) :: es => max (depth t) (depthOfEntries es)
end

/-- Induction over trees: what holds of the elements of a container holds of it. -/
@[elab_as_elim, induction_eliminator]
theorem ind {motive : ParseTree → Prop} (integer : ∀ i, motive (.integer i))
    (string : ∀ s, motive (.string s))
    (list : ∀ items, (∀ t ∈ items, motive t) → motive (.list items))
    (dict : ∀ entries, (∀ e ∈ entries, motive e.2) → motive (.dict entries))
    (t : ParseTree) : motive t := by
  refine ParseTree.rec (motive_1 := motive) (motive_2 := fun ts => ∀ t ∈ ts, motive t)
    (motive_3 := fun es => ∀ e ∈ es, motive e.2) (motive_4 := fun e => motive e.2)
    integer string list dict ?_ ?_ ?_ ?_ ?_ t
  · intro t h
    cases h
  · intro t ts ht hts
    exact List.forall_mem_cons.mpr ⟨ht, hts⟩
  · intro e h
    cases h
  · intro e es he hes
    exact List.forall_mem_cons.mpr ⟨he, hes⟩
  · intro k t ht
    exact ht

/-! ### Members -/

theorem textOfItems_eq_flatMap (ts : List ParseTree) : textOfItems ts = ts.flatMap text := by
  induction ts with
  | nil => rfl
  | cons t ts ih => rw [textOfItems, ih, List.flatMap_cons]

theorem textOfEntries_eq_flatMap (es : List (StringForm × ParseTree)) :
    textOfEntries es = es.flatMap fun e => e.1.text ++ e.2.text := by
  induction es with
  | nil => rfl
  | cons e es ih => rw [textOfEntries, ih, List.flatMap_cons]

theorem valuesOfItems_eq_map (ts : List ParseTree) : valuesOfItems ts = ts.map value := by
  induction ts with
  | nil => rfl
  | cons t ts ih => rw [valuesOfItems, ih, List.map_cons]

theorem valuesOfEntries_eq_map (es : List (StringForm × ParseTree)) :
    valuesOfEntries es = es.map fun e => (e.1.payload, e.2.value) := by
  induction es with
  | nil => rfl
  | cons e es ih => rw [valuesOfEntries, ih, List.map_cons]

theorem textOfEntries_append (es fs : List (StringForm × ParseTree)) :
    textOfEntries (es ++ fs) = textOfEntries es ++ textOfEntries fs := by
  simp only [textOfEntries_eq_flatMap, List.flatMap_append]

theorem valuesOfEntries_append (es fs : List (StringForm × ParseTree)) :
    valuesOfEntries (es ++ fs) = valuesOfEntries es ++ valuesOfEntries fs := by
  simp only [valuesOfEntries_eq_map, List.map_append]

theorem keys_valuesOfEntries (es : List (StringForm × ParseTree)) :
    (valuesOfEntries es).map Prod.fst = es.map fun e => e.1.payload := by
  rw [valuesOfEntries_eq_map, List.map_map]
  rfl

theorem depthOfItems_le_iff {ts : List ParseTree} {n : Nat} :
    depthOfItems ts ≤ n ↔ ∀ t ∈ ts, t.depth ≤ n := by
  induction ts with
  | nil => simp [depthOfItems]
  | cons t ts ih => rw [depthOfItems, Nat.max_le, ih, List.forall_mem_cons]

theorem depthOfEntries_le_iff {es : List (StringForm × ParseTree)} {n : Nat} :
    depthOfEntries es ≤ n ↔ ∀ e ∈ es, e.2.depth ≤ n := by
  induction es with
  | nil => simp [depthOfEntries]
  | cons e es ih => rw [depthOfEntries, Nat.max_le, ih, List.forall_mem_cons]

theorem depthOfEntries_append (es fs : List (StringForm × ParseTree)) :
    depthOfEntries (es ++ fs) = max (depthOfEntries es) (depthOfEntries fs) := by
  induction es with
  | nil => exact (Nat.zero_max _).symm
  | cons e es ih => simp only [List.cons_append, depthOfEntries, ih, Nat.max_assoc]

end ParseTree

end BitTorrent.Bencode
