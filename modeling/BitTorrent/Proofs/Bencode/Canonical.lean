import BitTorrent.Proofs.Bencode.RoundTrip
import BitTorrent.Proofs.Bencode.Span

/-! Writing again what was read. The grammar leaves two things open: the length of a byte string
may have zeros in front, and a dictionary may have several entries with one key. Writing drops the
zeros, and all values of a key but the last. Both make the bytes shorter, at whatever depth, so
the one never makes up for the other, and the same bytes come out exactly if there was nothing to
drop. What comes out is accepted in any case, with the same value. -/

namespace BitTorrent.Bencode

/-! ### Bytes of which something is dropped -/

/-- What is left of `long` is `short`, and `intact` says whether nothing was dropped. -/
structure Shortens (short long : Bytes) (intact : Prop) : Prop where
  length_le : short.length ≤ long.length
  intact_of_length_le : long.length ≤ short.length → intact
  eq_of_intact : intact → short = long

namespace Shortens

variable {a b c d : Bytes} {p q : Prop}

theorem eq_iff (h : Shortens a b p) : a = b ↔ p := by
  constructor
  · rintro rfl
    exact h.intact_of_length_le (Nat.le_refl _)
  · exact h.eq_of_intact

theorem of_eq (h : a = b) (hp : p) : Shortens a b p where
  length_le := Nat.le_of_eq (congrArg List.length h)
  intact_of_length_le _ := hp
  eq_of_intact _ := h

theorem refl (a : Bytes) : Shortens a a True := of_eq rfl trivial

theorem of_length_lt (h : a.length < b.length) (hp : ¬p) : Shortens a b p where
  length_le := Nat.le_of_lt h
  intact_of_length_le hle := absurd h (Nat.not_lt.mpr hle)
  eq_of_intact h := absurd h hp

theorem congr (h : Shortens a b p) (hpq : p ↔ q) : Shortens a b q := by
  rwa [← propext hpq]

theorem trans (h : Shortens a b p) (h' : Shortens b c q) : Shortens a c (p ∧ q) where
  length_le := Nat.le_trans h.length_le h'.length_le
  intact_of_length_le hle :=
    ⟨h.intact_of_length_le (Nat.le_trans h'.length_le hle),
      h'.intact_of_length_le (Nat.le_trans hle h.length_le)⟩
  eq_of_intact hpq := (h.eq_of_intact hpq.1).trans (h'.eq_of_intact hpq.2)

/-- What is dropped on the left is not made up for on the right. -/
theorem append (h : Shortens a b p) (h' : Shortens c d q) : Shortens (a ++ c) (b ++ d) (p ∧ q) := by
  have hle := h.length_le
  have hle' := h'.length_le
  constructor
  · simp only [List.length_append]
    omega
  · intro hlen
    simp only [List.length_append] at hlen
    exact ⟨h.intact_of_length_le (by omega), h'.intact_of_length_le (by omega)⟩
  · rintro ⟨hp, hq⟩
    rw [h.eq_of_intact hp, h'.eq_of_intact hq]

theorem enclose (h : Shortens a b p) (front back : Bytes) :
    Shortens (front ++ a ++ back) (front ++ b ++ back) p :=
  (((refl front).append h).append (refl back)).congr (by simp)

theorem flatMap {α : Type} {f g : α → Bytes} {p : α → Prop} {es : List α}
    (h : ∀ e ∈ es, Shortens (f e) (g e) (p e)) :
    Shortens (es.flatMap f) (es.flatMap g) (∀ e ∈ es, p e) := by
  induction es with
  | nil => exact of_eq rfl nofun
  | cons e es ih =>
    obtain ⟨he, hes⟩ := List.forall_mem_cons.mp h
    rw [List.flatMap_cons, List.flatMap_cons]
    exact (he.append (ih hes)).congr List.forall_mem_cons.symm

end Shortens

/-! ### Numerals -/

theorem Numeral.shortens (n : Numeral) : Shortens (Decimal.ofNat n.value) n.digits n.Plain := by
  obtain ⟨k, hk⟩ : ∃ k, n.digits = List.replicate k 0x30 ++ Decimal.ofNat n.value :=
    Decimal.exists_eq_zeros_append n.ne_nil n.isDigit
  cases k with
  | zero =>
    have hdigits : Decimal.ofNat n.value = n.digits := hk.symm
    refine .of_eq hdigits ?_
    rw [Plain, ← hdigits]
    exact Decimal.ofNat_eq_zero_of_head?
  | succ k =>
    have hlen : n.digits.length = k + 1 + (Decimal.ofNat n.value).length := by
      rw [hk, List.length_append, List.length_replicate]
    have hpos : 0 < (Decimal.ofNat n.value).length :=
      List.length_pos_iff.mpr (Decimal.ofNat_ne_nil n.value)
    refine .of_length_lt (by omega) ?_
    intro hplain
    have hone := hplain (by rw [hk]; rfl)
    rw [hone, List.length_singleton] at hlen
    omega

theorem StringForm.shortens (s : StringForm) :
    Shortens (ByteString.encode s.payload) s.text s.length.Plain := by
  rw [ByteString.encode, ← s.declared]
  exact (s.length.shortens.append (.refl (0x3a :: s.payload))).congr (by simp)

/-- An integer has one spelling only. -/
theorem IntegerForm.encode_value (i : IntegerForm) : Integer.encode i.value = i.text := by
  have hdigits : Decimal.ofNat i.magnitude.value = i.magnitude.digits :=
    i.magnitude.shortens.eq_of_intact i.plain
  have hrange := i.inRange
  have hzero : i.negative = true → i.magnitude.value ≠ 0 := by
    intro hneg hvalue
    exact i.not_negative_zero hneg (by rw [← hdigits, hvalue]; rfl)
  have hint : i.value.toInt = i.number := by
    rw [value]
    apply Int64.toInt_ofInt_of_le
    all_goals
      rw [number]
      split at hrange <;> simp_all <;> omega
  have hbody : Decimal.ofInt i.number = i.body := by
    unfold number Decimal.ofInt body
    cases hneg : i.negative
    · simp [hdigits]
    · have := hzero hneg
      simp [hdigits]
      omega
  rw [Integer.encode, hint, hbody, text]

/-! ### Entries -/

section Entries

variable {α : Type} {f : Bytes × α → Bytes}

/-- Setting a key again writes over the value that it had. -/
theorem Dict.length_flatMap_insertEntry_lt (hf : ∀ e, f e ≠ []) {key : Bytes} (v : α)
    {es : List (Bytes × α)} (h : key ∈ es.map Prod.fst) :
    ((insertEntry key v es).2.flatMap f).length < ((es ++ [(key, v)]).flatMap f).length := by
  induction es with
  | nil => cases h
  | cons e es ih =>
    obtain ⟨l, u⟩ := e
    by_cases hl : l = key
    · subst hl
      have hpos := List.length_pos_iff.mpr (hf (l, u))
      simp [insertEntry]
      omega
    · have := ih (by simpa [Ne.symm hl] using h)
      simpa [insertEntry, hl] using this

/-- Inserting entries one after the other, by induction on them, keeps all of them as they are, or
writes over some. -/
theorem Dict.shortens_insertAll (hf : ∀ e, f e ≠ []) {d : Dict α} (hd : d.Distinct)
    (es : List (Bytes × α)) :
    Shortens ((d.insertAll es).entries.flatMap f) ((d.entries ++ es).flatMap f)
      (d.keys ++ es.map Prod.fst).Nodup := by
  induction es generalizing d with
  | nil =>
    refine .of_eq ?_ ?_
    · rw [List.append_nil]
      rfl
    · rwa [List.map_nil, List.append_nil]
  | cons e es ih =>
    obtain ⟨k, v⟩ := e
    have hrest := ih (hd.insert k v)
    change Shortens (((d.insert k v).2.insertAll es).entries.flatMap f) _ _
    rw [List.append_cons d.entries, List.map_cons, List.append_cons d.keys]
    by_cases hk : k ∈ d.keys
    · refine .of_length_lt (Nat.lt_of_le_of_lt hrest.length_le ?_) ?_
      · have hlt := length_flatMap_insertEntry_lt hf v hk
        rw [entries_insert, List.flatMap_append, List.length_append, List.flatMap_append,
          List.length_append]
        exact Nat.add_lt_add_right hlt _
      · intro hnodup
        have := (List.nodup_append.mp hnodup).1
        exact (List.nodup_append.mp this).2.2 k hk k List.mem_cons_self rfl
    · have hinsert : (d.insert k v).2.entries = d.entries ++ [(k, v)] := by
        rw [entries_insert, insertEntry_of_notMem v hk]
      rw [keys, hinsert, List.map_append] at hrest
      exact hrest

/-- A dictionary that is read from entries holds all of them, as they are, or drops some. -/
theorem Dict.shortens_ofList (hf : ∀ e, f e ≠ []) (es : List (Bytes × α)) :
    Shortens ((ofList es).entries.flatMap f) (es.flatMap f) (es.map Prod.fst).Nodup :=
  shortens_insertAll hf distinct_empty es

end Entries

/-! ### Depth -/

theorem Value.depthOfItems_le_iff {vs : List Value} {n : Nat} :
    depthOfItems vs ≤ n ↔ ∀ v ∈ vs, v.depth ≤ n := by
  induction vs with
  | nil => simp [depthOfItems]
  | cons v vs ih => rw [depthOfItems, Nat.max_le, ih, List.forall_mem_cons]

theorem Value.depthOfEntries_le_iff {es : List (Bytes × Value)} {n : Nat} :
    depthOfEntries es ≤ n ↔ ∀ e ∈ es, e.2.depth ≤ n := by
  induction es with
  | nil => simp [depthOfEntries]
  | cons e es ih => rw [depthOfEntries, Nat.max_le, ih, List.forall_mem_cons]

/-! ### Trees -/

namespace ParseTree

/-- No dictionary of a derivation has two entries with one key. -/
inductive NoRepeat : ParseTree → Prop
  | integer (i : IntegerForm) : NoRepeat (.integer i)
  | string (s : StringForm) : NoRepeat (.string s)
  | list {items : List ParseTree} : (∀ t ∈ items, NoRepeat t) → NoRepeat (.list items)
  | dict {entries : List (StringForm × ParseTree)} :
    (entries.map fun e => e.1.payload).Nodup → (∀ e ∈ entries, NoRepeat e.2) →
      NoRepeat (.dict entries)

theorem noRepeat_list_iff {items : List ParseTree} :
    (list items).NoRepeat ↔ ∀ t ∈ items, t.NoRepeat :=
  ⟨fun | .list h => h, .list⟩

theorem noRepeat_dict_iff {entries : List (StringForm × ParseTree)} :
    (dict entries).NoRepeat ↔
      (entries.map fun e => e.1.payload).Nodup ∧ ∀ e ∈ entries, e.2.NoRepeat :=
  ⟨fun | .dict hkeys h => ⟨hkeys, h⟩, fun h => .dict h.1 h.2⟩

/-- No length of a byte string in a derivation, be it a key or a value, has a superfluous zero. -/
inductive PlainLengths : ParseTree → Prop
  | integer (i : IntegerForm) : PlainLengths (.integer i)
  | string {s : StringForm} : s.length.Plain → PlainLengths (.string s)
  | list {items : List ParseTree} : (∀ t ∈ items, PlainLengths t) → PlainLengths (.list items)
  | dict {entries : List (StringForm × ParseTree)} :
    (∀ e ∈ entries, e.1.length.Plain) → (∀ e ∈ entries, PlainLengths e.2) →
      PlainLengths (.dict entries)

theorem plainLengths_string_iff {s : StringForm} :
    (string s).PlainLengths ↔ s.length.Plain :=
  ⟨fun | .string h => h, .string⟩

theorem plainLengths_list_iff {items : List ParseTree} :
    (list items).PlainLengths ↔ ∀ t ∈ items, t.PlainLengths :=
  ⟨fun | .list h => h, .list⟩

theorem plainLengths_dict_iff {entries : List (StringForm × ParseTree)} :
    (dict entries).PlainLengths ↔ ∀ e ∈ entries, e.1.length.Plain ∧ e.2.PlainLengths :=
  ⟨fun | .dict hkeys h => fun e he => ⟨hkeys e he, h e he⟩,
    fun h => .dict (fun e he => (h e he).1) fun e he => (h e he).2⟩

mutual
/-- The bytes of a derivation, without the superfluous zeros of its lengths. -/
def plainText : ParseTree → Bytes
  | .integer i => i.text
  | .string s => ByteString.encode s.payload
  | .list items => 0x6c :: plainTextOfItems items ++ [0x65]
  | .dict entries => 0x64 :: plainTextOfEntries entries ++ [0x65]
def plainTextOfItems : List ParseTree → Bytes
  | [] => []
  | t :: ts => plainText t ++ plainTextOfItems ts
def plainTextOfEntries : List (StringForm × ParseTree) → Bytes
  | [] => []
  | (k, t) :: es => ByteString.encode k.payload ++ plainText t ++ plainTextOfEntries es
end

theorem plainTextOfItems_eq_flatMap (ts : List ParseTree) :
    plainTextOfItems ts = ts.flatMap plainText := by
  induction ts with
  | nil => rfl
  | cons t ts ih => rw [plainTextOfItems, ih, List.flatMap_cons]

theorem plainTextOfEntries_eq_flatMap (es : List (StringForm × ParseTree)) :
    plainTextOfEntries es = es.flatMap fun e => ByteString.encode e.1.payload ++ e.2.plainText := by
  induction es with
  | nil => rfl
  | cons e es ih => rw [plainTextOfEntries, ih, List.flatMap_cons]

/-- Zeros are dropped from lengths and from nowhere else, by induction on the derivation. -/
theorem shortens_plainText (t : ParseTree) : Shortens t.plainText t.text t.PlainLengths := by
  induction t with
  | integer i => exact .of_eq rfl (.integer i)
  | string s => exact s.shortens.congr plainLengths_string_iff.symm
  | list items ih =>
    rw [plainText, text, plainTextOfItems_eq_flatMap, textOfItems_eq_flatMap]
    exact ((Shortens.flatMap ih).enclose [0x6c] [0x65]).congr plainLengths_list_iff.symm
  | dict entries ih =>
    have hentry : ∀ e ∈ entries, Shortens (ByteString.encode e.1.payload ++ e.2.plainText)
        (e.1.text ++ e.2.text) (e.1.length.Plain ∧ e.2.PlainLengths) :=
      fun e he => e.1.shortens.append (ih e he)
    rw [plainText, text, plainTextOfEntries_eq_flatMap, textOfEntries_eq_flatMap]
    exact ((Shortens.flatMap hentry).enclose [0x64] [0x65]).congr plainLengths_dict_iff.symm

/-- Entries are dropped where a key comes again and nowhere else, by induction on the derivation. -/
theorem shortens_encode_value (t : ParseTree) :
    Shortens (encode t.value) t.plainText t.NoRepeat := by
  induction t with
  | integer i => exact .of_eq i.encode_value (.integer i)
  | string s => exact .of_eq rfl (.string s)
  | list items ih =>
    rw [value, encode, plainText, encodeItems_eq_flatMap, valuesOfItems_eq_map, List.flatMap_map,
      plainTextOfItems_eq_flatMap]
    exact ((Shortens.flatMap ih).enclose [0x6c] [0x65]).congr noRepeat_list_iff.symm
  | dict entries ih =>
    have hentry : ∀ e ∈ entries, Shortens (encodeEntry (e.1.payload, e.2.value))
        (ByteString.encode e.1.payload ++ e.2.plainText) e.2.NoRepeat :=
      fun e he => ((Shortens.refl _).append (ih e he)).congr (by simp)
    have hentries := Dict.shortens_ofList encodeEntry_ne_nil (valuesOfEntries entries)
    rw [keys_valuesOfEntries, valuesOfEntries_eq_map, List.flatMap_map] at hentries
    rw [value, encode, plainText, encodeEntries_eq_flatMap, valuesOfEntries_eq_map,
      plainTextOfEntries_eq_flatMap]
    exact ((hentries.trans (Shortens.flatMap hentry)).enclose [0x64] [0x65]).congr
      noRepeat_dict_iff.symm

/-- The same bytes are written as were read exactly if there was nothing to drop. -/
theorem encode_value_eq_text_iff (t : ParseTree) :
    encode t.value = t.text ↔ t.NoRepeat ∧ t.PlainLengths :=
  (t.shortens_encode_value.trans t.shortens_plainText).eq_iff

/-- An entry of a dictionary that was read is one of those that were read. -/
theorem exists_of_mem_ofList {entries : List (StringForm × ParseTree)} {e : Bytes × Value}
    (h : e ∈ (Dict.ofList (valuesOfEntries entries)).entries) :
    ∃ f ∈ entries, (f.1.payload, f.2.value) = e := by
  have hmem := Dict.mem_of_mem_ofList h
  rwa [valuesOfEntries_eq_map, List.mem_map] at hmem

/-- What is dropped only makes a value less deep. -/
theorem depth_value_le (t : ParseTree) : t.value.depth ≤ t.depth := by
  induction t with
  | integer i => exact Nat.le_refl 0
  | string s => exact Nat.le_refl 0
  | list items ih =>
    rw [value, Value.depth, depth, valuesOfItems_eq_map]
    refine Nat.add_le_add_left (Value.depthOfItems_le_iff.mpr ?_) 1
    intro v hv
    obtain ⟨t, ht, rfl⟩ := List.mem_map.mp hv
    exact Nat.le_trans (ih t ht) (depthOfItems_le_iff.mp (Nat.le_refl _) t ht)
  | dict entries ih =>
    rw [value, Value.depth, depth]
    refine Nat.add_le_add_left (Value.depthOfEntries_le_iff.mpr ?_) 1
    intro e he
    obtain ⟨f, hf, rfl⟩ := exists_of_mem_ofList he
    exact Nat.le_trans (ih f hf) (depthOfEntries_le_iff.mp (Nat.le_refl _) f hf)

/-- What is written for a value that was read has a derivation, by induction on the one that it
was read with. -/
theorem exists_writes_value (t : ParseTree) : ∃ u, Writes u t.value := by
  induction t with
  | integer i => exact ⟨integer i, i.encode_value.symm, rfl, rfl⟩
  | string s =>
    have hlen : s.payload.length < 2 ^ 64 := s.declared ▸ s.inRange
    exact ⟨string (.ofPayload s.payload hlen), rfl, rfl, rfl⟩
  | list items ih =>
    apply exists_writes_list
    intro v hv
    rw [valuesOfItems_eq_map] at hv
    obtain ⟨t, ht, rfl⟩ := List.mem_map.mp hv
    exact ih t ht
  | dict entries ih =>
    apply exists_writes_dict (Dict.distinct_ofList _)
    intro e he
    obtain ⟨f, hf, rfl⟩ := exists_of_mem_ofList he
    exact ⟨f.1.declared ▸ f.1.inRange, ih f hf⟩

theorem value_of_decode {t : ParseTree} {v : Value} (h : decode t.text = .ok v) : t.value = v := by
  rw [decode, decode_text, withinDepth] at h
  split at h
  · exact Except.ok.inj h
  · cases h

end ParseTree

/-! ### Accepted bytes -/

variable {data : Bytes} {v : Value}

theorem decode_encode_of_decode (h : decode data = .ok v) : decode (encode v) = .ok v := by
  obtain ⟨t, -, rfl, hdepth⟩ := exists_of_decode rfl h
  obtain ⟨u, hu⟩ := t.exists_writes_value
  rw [decode, ← hu.text, decode_text, hu.value, hu.depth, withinDepth,
    if_pos (Nat.le_trans t.depth_value_le hdepth)]

/-- If nothing is dropped from a dictionary, nothing is dropped from the value of a key. -/
theorem LastValue.encode_eq {key raw : Bytes} {w : Value} (hlast : LastValue data key raw)
    (h : decode data = .ok v) (hsame : encode v = data) (hraw : decode raw = .ok w) :
    encode w = raw := by
  obtain ⟨before, after, k, t, rfl, -, rfl, -⟩ := hlast
  rw [← text_dict_append_cons] at h hsame
  have hv := ParseTree.value_of_decode h
  rw [← hv, ParseTree.encode_value_eq_text_iff] at hsame
  have hmem : (k, t) ∈ before ++ (k, t) :: after := by simp
  have hkeys := (ParseTree.noRepeat_dict_iff.mp hsame.1).2 (k, t) hmem
  have hlengths := (ParseTree.plainLengths_dict_iff.mp hsame.2 (k, t) hmem).2
  rw [← ParseTree.value_of_decode hraw]
  exact t.encode_value_eq_text_iff.mpr ⟨hkeys, hlengths⟩

/-- What is written for a decoded value is the bytes that it was decoded from exactly if no
dictionary in them repeats a key and no length of a byte string in them has a superfluous
zero. In any case it decodes to the same value. -/
theorem encode_eq_iff_of_decode (data : Bytes) (v : Value) (h : decode data = .ok v) :
    (∃ t : ParseTree, t.text = data ∧ t.value = v) ∧
      (∀ t : ParseTree, t.text = data → (encode v = data ↔ t.NoRepeat ∧ t.PlainLengths)) ∧
      decode (encode v) = .ok v := by
  refine ⟨?_, ?_, decode_encode_of_decode h⟩
  · obtain ⟨t, htext, hvalue, -⟩ := exists_of_decode rfl h
    exact ⟨t, htext, hvalue⟩
  · rintro t rfl
    rw [← ParseTree.value_of_decode h]
    exact t.encode_value_eq_text_iff

/-- A key comes twice, the second time with a superfluous zero in its length. -/
theorem encode_eq_iff_of_decode_of_repeated :
    let data := Bytes.ofText "d1:al0:e01:ai1ee"
    let v := Value.dict ⟨[(Bytes.ofText "a", .integer 1)]⟩
    decode data = .ok v ∧ encode v = Bytes.ofText "d1:ai1ee" ∧ decode (encode v) = .ok v ∧
      ∃ t : ParseTree, t.text = data ∧ ¬(t.NoRepeat ∧ t.PlainLengths) := by
  intro data v
  have hdata : decode data = .ok v := by decide +kernel
  have hencode : encode v = Bytes.ofText "d1:ai1ee" := by decide +kernel
  have hne : encode v ≠ data := by
    rw [hencode]
    decide +kernel
  obtain ⟨⟨t, ht, -⟩, hiff, hagain⟩ := encode_eq_iff_of_decode data v hdata
  exact ⟨hdata, hencode, hagain, t, ht, fun h => hne ((hiff t ht).mpr h)⟩

/-- Where no dictionary repeats a key, the bytes that are written for a decoded value are those that
it was decoded from, less the superfluous zeros in lengths of byte strings; so they are the same
exactly if there were none. -/
theorem encode_eq_plainText_of_noRepeat (data : Bytes) (v : Value) (h : decode data = .ok v)
    (t : ParseTree) (ht : t.text = data) (hkeys : t.NoRepeat) :
    encode v = t.plainText ∧ (encode v = data ↔ t.PlainLengths) := by
  subst ht
  have hv : t.value = v := ParseTree.value_of_decode h
  have hencode : encode v = t.plainText := hv ▸ t.shortens_encode_value.eq_of_intact hkeys
  refine ⟨hencode, ?_⟩
  rw [hencode]
  exact t.shortens_plainText.eq_iff

/-- The length of a value in a dictionary has a superfluous zero. -/
theorem encode_eq_plainText_of_leading_zero :
    let data := Bytes.ofText "d1:a02:xye"
    let v := Value.dict ⟨[(Bytes.ofText "a", .bytes (Bytes.ofText "xy"))]⟩
    ∃ t : ParseTree, t.text = data ∧ decode data = .ok v ∧ t.NoRepeat ∧ encode v = t.plainText ∧
      encode v = Bytes.ofText "d1:a2:xye" ∧ ¬t.PlainLengths := by
  intro data v
  let key : StringForm := .ofPayload (Bytes.ofText "a") (by decide)
  let length : Numeral := ⟨Bytes.ofText "02", by decide, List.all_eq_true.mp (by decide)⟩
  let t : ParseTree := .dict [(key, .string ⟨length, Bytes.ofText "xy", by decide, by decide⟩)]
  have hdata : decode data = .ok v := by decide +kernel
  have ht : t.text = data := by decide +kernel
  have hkeys : t.NoRepeat := .dict (by decide) (by simpa using ParseTree.NoRepeat.string _)
  have hencode : encode v = Bytes.ofText "d1:a2:xye" := by decide +kernel
  have hne : encode v ≠ data := by
    rw [hencode]
    decide +kernel
  obtain ⟨hplain, hiff⟩ := encode_eq_plainText_of_noRepeat data v hdata t ht hkeys
  exact ⟨t, ht, hdata, hkeys, hplain, hencode, fun h => hne (hiff.mpr h)⟩

/-- Bytes without a dictionary, and still others are written for their value. -/
theorem encode_ne_of_leading_zero :
    let data := Bytes.ofText "01:a"
    let v := Value.bytes (Bytes.ofText "a")
    decode data = .ok v ∧ (∀ t : ParseTree, t.text = data → t.NoRepeat) ∧
      encode v = Bytes.ofText "1:a" ∧ encode v ≠ data := by
  intro data v
  refine ⟨by decide +kernel, ?_, by decide +kernel, by decide +kernel⟩
  intro t ht
  rcases t.string_or_bracketed with ⟨s, rfl⟩ | ⟨-, b, htext, hlead⟩
  · exact .string s
  · rw [ht] at htext
    obtain rfl : 0x30 = b := (List.cons.inj htext).1
    exact absurd hlead (by decide)

end BitTorrent.Bencode
