import BitTorrent.Proofs.Bencode.Acceptance
import BitTorrent.Proofs.Bencode.Dict
import BitTorrent.Proofs.Bencode.Span

/-! Looking a key up in the bytes of a dictionary and in the decoded dictionary. The walk over the
bytes keeps the last entry that it passes, and decoding lets the last value of a key take the
place of the ones before, so both come to the same value: the bytes that the walk finds are
the ones that decode to what the dictionary holds. -/

namespace BitTorrent.Bencode

open ParseTree

/-! ### What a derived dictionary holds -/

section Entries

variable {key : Bytes}

theorem notMem_keys_of_forall_ne {es : List (StringForm × ParseTree)}
    (h : ∀ e ∈ es, e.1.payload ≠ key) : key ∉ (valuesOfEntries es).map Prod.fst := by
  rw [keys_valuesOfEntries, List.mem_map]
  rintro ⟨e, he, hkey⟩
  exact h e he hkey

theorem get?_of_forall_ne {es : List (StringForm × ParseTree)}
    (h : ∀ e ∈ es, e.1.payload ≠ key) : (Dict.ofList (valuesOfEntries es)).get? key = none :=
  Dict.get?_insertAll_of_notMem (notMem_keys_of_forall_ne h)

/-- The value of the last entry with a key is the one that the dictionary holds. -/
theorem get?_append_cons {before after : List (StringForm × ParseTree)} {k : StringForm}
    {t : ParseTree} (hk : k.payload = key) (h : ∀ e ∈ after, e.1.payload ≠ key) :
    (Dict.ofList (valuesOfEntries (before ++ (k, t) :: after))).get? key = some t.value := by
  rw [valuesOfEntries_append, valuesOfEntries, hk]
  exact Dict.get?_ofList_append_cons _ _ key t.value (notMem_keys_of_forall_ne h)

/-- A value in an accepted dictionary is accepted by itself. -/
theorem decode_of_depth_le {before after : List (StringForm × ParseTree)} {k : StringForm}
    {t : ParseTree} {n : Nat} (h : (dict (before ++ (k, t) :: after)).depth ≤ n + 1)
    (options : Options) (hn : n ≤ options.maxDepth) : options.decode t.text = .ok t.value := by
  have ht : t.depth ≤ options.maxDepth + 1 := by
    simp only [depth, depthOfEntries_append, depthOfEntries] at h
    omega
  rw [decode_text, withinDepth, if_pos ht]

end Entries

/-! ### One value, two walks -/

variable {data key : Bytes} {d : Dict Value}

/-- The walk over accepted bytes comes to nothing, and the dictionary has no such entry, or it comes
to the span of the last value, and these bytes decode to the value of the entry. -/
theorem spanOf_cases (h : decode data = .ok (.dict d)) (key : Bytes) :
    (spanOf data key = .ok none ∧ d.get? key = none) ∨
      ∃ span v, spanOf data key = .ok (some span) ∧ LastSpan data key span ∧
        d.get? key = some v ∧ decode (span.of data) = .ok v := by
  obtain ⟨t, rfl, ht, hdepth⟩ := exists_of_decode rfl h
  cases t with
  | dict es =>
    obtain rfl : Dict.ofList (valuesOfEntries es) = d := Value.dict.inj ht
    rcases exists_last_or_forall_ne key es with ⟨before, k, t, after, rfl, hk, hafter⟩ | hne
    · have hvalue : LastValue (dict (before ++ (k, t) :: after)).text key t.text :=
        ⟨before, after, k, t, text_dict_append_cons before after k t, hk, rfl, hafter⟩
      obtain ⟨span, hspan, hraw⟩ := hvalue.exists_lastSpan
      refine .inr ⟨span, t.value, spanOf_of_lastSpan hspan, hspan, get?_append_cons hk hafter, ?_⟩
      rw [hraw]
      exact decode_of_depth_le hdepth _ (Nat.le_refl _)
    · exact .inl ⟨spanOf_of_forall_ne hne, get?_of_forall_ne hne⟩
  | _ => cases ht

/-- The bytes that the walk finds decode to the value that the decoded dictionary holds. -/
theorem of_spanOf {span : Span} (h : decode data = .ok (.dict d))
    (hspan : spanOf data key = .ok (some span)) :
    LastSpan data key span ∧ ∃ v, d.get? key = some v ∧ decode (span.of data) = .ok v := by
  rcases spanOf_cases h key with ⟨hnone, -⟩ | ⟨span', v, hsome, hlast, hget, hv⟩
  · rw [hnone] at hspan
    cases hspan
  · obtain rfl : span = span' := by simpa [hspan] using hsome
    exact ⟨hlast, v, hget, hv⟩

/-- A byte string in an accepted dictionary is no longer than a length prefix can say. -/
theorem length_lt_of_get? {b : Bytes} (h : decode data = .ok (.dict d))
    (hget : d.get? key = some (.bytes b)) : b.length < 2 ^ 64 := by
  rcases spanOf_cases h key with ⟨-, hnone⟩ | ⟨span, v, -, -, hsome, hv⟩
  · rw [hget] at hnone
    cases hnone
  · obtain rfl : Value.bytes b = v := Option.some.inj (hget.symm.trans hsome)
    obtain ⟨t, -, ht, -⟩ := exists_of_decode rfl hv
    cases t with
    | string s =>
      obtain rfl : s.payload = b := Value.bytes.inj ht
      exact s.declared ▸ s.inRange
    | _ => cases ht

/-- On the bytes of a dictionary that decoding accepts the walk never fails. It finds nothing
exactly if the dictionary does not have the key. Otherwise it finds the extent of the value after
the last occurrence of the key, which lies within the brackets and decodes to the value of the
key in the dictionary. -/
theorem spanOf_finds_get? (data key : Bytes) (d : Dict Value) (h : decode data = .ok (.dict d)) :
    ∃ found, spanOf data key = .ok found ∧ (found = none ↔ key ∉ d.keys) ∧
      ∀ span, found = some span →
        1 ≤ span.start ∧ span.start < span.stop ∧ span.stop ≤ data.length - 1 ∧
          (∃ v, d.get? key = some v ∧ decode (span.of data) = .ok v) ∧ LastSpan data key span := by
  rw [← Dict.get?_eq_none_iff]
  rcases spanOf_cases h key with ⟨hnone, hget⟩ | ⟨span, v, hsome, hlast, hget, hv⟩
  · exact ⟨none, hnone, iff_of_true rfl hget, nofun⟩
  · refine ⟨some span, hsome, by simp [hget], ?_⟩
    intro span' hspan'
    obtain rfl := Option.some.inj hspan'
    obtain ⟨hstart, hlt, hstop⟩ := hlast.bounds
    exact ⟨hstart, hlt, by omega, ⟨v, hget, hv⟩, hlast⟩

/-- A key comes twice, the second time with a superfluous zero in its length; the value that counts
has an opening bracket for its payload. -/
theorem spanOf_finds_get?_of_repeated :
    let data := Bytes.ofText "d1:ai1e01:a1:ie"
    let key := Bytes.ofText "a"
    decode data = .ok (.dict ⟨[(key, .bytes [0x69])]⟩) ∧ spanOf data key = .ok (some ⟨11, 14⟩) ∧
      decode (Span.of data ⟨11, 14⟩) = .ok (.bytes [0x69]) ∧ LastSpan data key ⟨11, 14⟩ := by
  intro data key
  have hdata : decode data = .ok (.dict ⟨[(key, .bytes [0x69])]⟩) := by decide +kernel
  have hsome : spanOf data key = .ok (some ⟨11, 14⟩) := by decide +kernel
  obtain ⟨found, hfound, -, hspan⟩ := spanOf_finds_get? data key _ hdata
  obtain rfl : found = some ⟨11, 14⟩ := by simpa [hsome] using hfound.symm
  obtain ⟨-, -, -, ⟨v, hget, hv⟩, hlast⟩ := hspan ⟨11, 14⟩ rfl
  obtain rfl : Value.bytes [0x69] = v := Option.some.inj hget
  exact ⟨hdata, hsome, hv, hlast⟩

end BitTorrent.Bencode
