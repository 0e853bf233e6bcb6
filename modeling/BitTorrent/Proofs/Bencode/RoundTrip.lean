import BitTorrent.Bencode.Printer
import BitTorrent.Proofs.Bencode.Acceptance
import BitTorrent.Proofs.Bencode.Dict

/-! What is written for a value is a derivation of it, with numerals as short as they
can be, so it is read back as the same value. A dictionary must not hold a key twice,
since a reader inserts its entries one after the other; dictionaries that are built by
inserting and erasing never do. -/

namespace BitTorrent.Bencode

/-- No dictionary in a value holds a key twice. -/
inductive Value.Distinct : Value → Prop
  | integer (n : Int64) : Distinct (.integer n)
  | bytes (b : Bytes) : Distinct (.bytes b)
  | list {items : List Value} : (∀ v ∈ items, Distinct v) → Distinct (.list items)
  | dict {d : Dict Value} : d.Distinct → (∀ e ∈ d.entries, Distinct e.2) → Distinct (.dict d)

/-! ### Leaves -/

/-- The form in which an integer is written. -/
def IntegerForm.ofInt64 (n : Int64) : IntegerForm where
  negative := n.toInt < 0
  magnitude := .ofNat n.toInt.natAbs
  plain := Numeral.plain_ofNat n.toInt.natAbs
  not_negative_zero := by
    intro hneg hzero
    have hhead : (Decimal.ofNat n.toInt.natAbs).head? = some 0x30 := congrArg List.head? hzero
    have hne : n.toInt.natAbs ≠ 0 := by simp at hneg; omega
    exact Decimal.head?_ofNat hne hhead
  inRange := by
    have hlow := n.le_toInt
    have hhigh := n.toInt_lt
    simp only [Numeral.value_ofNat, decide_eq_true_eq]
    split <;> omega

theorem IntegerForm.text_ofInt64 (n : Int64) : (ofInt64 n).text = Integer.encode n := by
  have hbody : (ofInt64 n).body = Decimal.ofInt n.toInt := by
    unfold body Decimal.ofInt
    by_cases hneg : n.toInt < 0
    · rw [if_pos hneg, if_pos (by simpa [ofInt64] using hneg)]
      rfl
    · rw [if_neg hneg, if_neg (by simpa [ofInt64] using hneg)]
      rfl
  rw [text, hbody, Integer.encode]

theorem IntegerForm.value_ofInt64 (n : Int64) : (ofInt64 n).value = n := by
  have hnumber : (ofInt64 n).number = n.toInt := by
    simp only [number, ofInt64, Numeral.value_ofNat, decide_eq_true_eq]
    split <;> omega
  rw [value, hnumber, Int64.ofInt_toInt]

theorem length_lt_of_encode {b : Bytes} {n : Nat} (h : (ByteString.encode b).length < n) :
    b.length < n := by
  have hlen : (ByteString.encode b).length = (Decimal.ofNat b.length).length + (b.length + 1) := by
    rw [ByteString.encode, List.length_append, List.length_cons]
  omega

/-! ### Members -/

theorem encodeItems_eq_flatMap (vs : List Value) : encodeItems vs = vs.flatMap encode := by
  induction vs with
  | nil => rfl
  | cons v vs ih => rw [encodeItems, ih, List.flatMap_cons]

/-- A key and its value. -/
def encodeEntry (e : Bytes × Value) : Bytes := ByteString.encode e.1 ++ encode e.2

theorem encodeEntry_ne_nil (e : Bytes × Value) : encodeEntry e ≠ [] := by
  simp [encodeEntry, ByteString.encode]

theorem encodeEntries_eq_flatMap (es : List (Bytes × Value)) :
    encodeEntries es = es.flatMap encodeEntry := by
  induction es with
  | nil => rfl
  | cons e es ih =>
    rw [encodeEntries, ih, List.flatMap_cons]
    rfl

theorem length_encode_le_of_mem {v : Value} {vs : List Value} (h : v ∈ vs) :
    (encode v).length ≤ (encodeItems vs).length := by
  rw [encodeItems_eq_flatMap]
  exact (List.sublist_flatten_of_mem (List.mem_map_of_mem h)).length_le

theorem length_encodeEntry_le_of_mem {e : Bytes × Value} {es : List (Bytes × Value)} (h : e ∈ es) :
    (encodeEntry e).length ≤ (encodeEntries es).length := by
  rw [encodeEntries_eq_flatMap]
  exact (List.sublist_flatten_of_mem (List.mem_map_of_mem h)).length_le

/-! ### Trees -/

namespace ParseTree

/-- A tree derives what is written for a value. -/
structure Writes (t : ParseTree) (v : Value) : Prop where
  text : t.text = encode v
  value : t.value = v
  depth : t.depth = v.depth

theorem exists_items {vs : List Value} (h : ∀ v ∈ vs, ∃ t, Writes t v) :
    ∃ ts, textOfItems ts = encodeItems vs ∧ valuesOfItems ts = vs ∧
      depthOfItems ts = Value.depthOfItems vs := by
  induction vs with
  | nil => exact ⟨[], rfl, rfl, rfl⟩
  | cons v vs ih =>
    obtain ⟨⟨t, ht⟩, hvs⟩ := List.forall_mem_cons.mp h
    obtain ⟨ts, htext, hvalue, hdepth⟩ := ih hvs
    refine ⟨t :: ts, ?_, ?_, ?_⟩
    · rw [textOfItems, ht.text, htext, encodeItems]
    · rw [valuesOfItems, ht.value, hvalue]
    · rw [depthOfItems, ht.depth, hdepth, Value.depthOfItems]

theorem exists_entries {es : List (Bytes × Value)}
    (h : ∀ e ∈ es, e.1.length < 2 ^ 64 ∧ ∃ t, Writes t e.2) :
    ∃ ts, textOfEntries ts = encodeEntries es ∧ valuesOfEntries ts = es ∧
      depthOfEntries ts = Value.depthOfEntries es := by
  induction es with
  | nil => exact ⟨[], rfl, rfl, rfl⟩
  | cons e es ih =>
    obtain ⟨k, v⟩ := e
    obtain ⟨⟨hk, t, ht⟩, hes⟩ := List.forall_mem_cons.mp h
    obtain ⟨ts, htext, hvalue, hdepth⟩ := ih hes
    refine ⟨(.ofPayload k hk, t) :: ts, ?_, ?_, ?_⟩
    · rw [textOfEntries, ht.text, htext, encodeEntries]
      rfl
    · rw [valuesOfEntries, ht.value, hvalue]
      rfl
    · rw [depthOfEntries, ht.depth, hdepth, Value.depthOfEntries]

theorem exists_writes_list {vs : List Value} (h : ∀ v ∈ vs, ∃ t, Writes t v) :
    ∃ t, Writes t (.list vs) := by
  obtain ⟨ts, htext, hvalue, hdepth⟩ := exists_items h
  refine ⟨list ts, ?_, ?_, ?_⟩
  · rw [ParseTree.text, htext, encode]
  · rw [ParseTree.value, hvalue]
  · rw [ParseTree.depth, hdepth, Value.depth]

theorem exists_writes_dict {d : Dict Value} (hd : d.Distinct)
    (h : ∀ e ∈ d.entries, e.1.length < 2 ^ 64 ∧ ∃ t, Writes t e.2) : ∃ t, Writes t (.dict d) := by
  obtain ⟨ts, htext, hvalue, hdepth⟩ := exists_entries h
  refine ⟨dict ts, ?_, ?_, ?_⟩
  · rw [ParseTree.text, htext, encode]
  -- The entries of a dictionary without repeated keys are inserted as they stand.
  · rw [ParseTree.value, hvalue, Dict.ofList_entries hd]
  · rw [ParseTree.depth, hdepth, Value.depth]

/-- What is written for a value has a derivation, by induction on the value. -/
theorem exists_writes {v : Value} (hkeys : v.Distinct) (hlen : (encode v).length < 2 ^ 64) :
    ∃ t, Writes t v := by
  induction hkeys with
  | integer n =>
    have hvalue : (integer (.ofInt64 n)).value = .integer n :=
      congrArg Value.integer (IntegerForm.value_ofInt64 n)
    exact ⟨integer (.ofInt64 n), IntegerForm.text_ofInt64 n, hvalue, rfl⟩
  | bytes b =>
    have hb : b.length < 2 ^ 64 := length_lt_of_encode hlen
    exact ⟨string (.ofPayload b hb), rfl, rfl, rfl⟩
  | list _ ih =>
    simp only [encode, List.length_append, List.length_cons] at hlen
    apply exists_writes_list
    intro v hv
    have := length_encode_le_of_mem hv
    exact ih v hv (by omega)
  | dict hd _ ih =>
    simp only [encode, List.length_append, List.length_cons] at hlen
    apply exists_writes_dict hd
    intro e he
    have := length_encodeEntry_le_of_mem he
    rw [encodeEntry, List.length_append] at this
    exact ⟨length_lt_of_encode (by omega), ih e he (by omega)⟩

end ParseTree

/-! ### Whole values -/

/-- What is written for a value is read back under any options as that value, in the same
order of entries, or refused for its depth alone. The standard options admit depth 65. -/
theorem decode_encode_value (v : Value) (hkeys : v.Distinct) (hlen : (encode v).length < 2 ^ 64) :
    (∀ options : Options, options.decode (encode v) =
      if v.depth ≤ options.maxDepth + 1 then .ok v else .error .nestingTooDeep) ∧
      (v.depth ≤ 65 → decode (encode v) = .ok v) := by
  obtain ⟨t, ht⟩ := ParseTree.exists_writes hkeys hlen
  have hdecode : ∀ options : Options, options.decode (encode v) =
      if v.depth ≤ options.maxDepth + 1 then .ok v else .error .nestingTooDeep := by
    intro options
    rw [← ht.text, decode_text, ht.value, ht.depth, withinDepth]
  refine ⟨hdecode, fun hdepth => ?_⟩
  have hmax : Options.standard.maxDepth + 1 = 65 := rfl
  rw [decode, hdecode, hmax, if_pos hdepth]

/-- A dictionary with keys out of order and an empty list inside is read back. -/
theorem decode_encode_nested :
    decode (encode (.dict ⟨[([0x62], .integer (-3)), ([0x61], .list [.list [], .bytes [0x65]])]⟩)) =
      .ok (.dict ⟨[([0x62], .integer (-3)), ([0x61], .list [.list [], .bytes [0x65]])]⟩) := by
  refine (decode_encode_value _ (.dict (by decide) ?_) (by decide)).2 (by decide)
  simp only [List.forall_mem_cons, List.not_mem_nil, false_implies, implies_true, and_true]
  refine ⟨.integer _, .list ?_⟩
  simp only [List.forall_mem_cons, List.not_mem_nil, false_implies, implies_true, and_true]
  exact ⟨.list nofun, .bytes _⟩

end BitTorrent.Bencode
