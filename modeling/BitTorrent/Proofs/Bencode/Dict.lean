import BitTorrent.Bencode.Dict
import Mathlib.Algebra.Group.Nat.Defs

/-! A dictionary that is built by inserting and erasing never holds a key twice. A list of
entries without repeated keys is a dictionary as it stands, in the same order; where a
key comes again its last value is the one that is held. -/

namespace BitTorrent.Bencode.Dict

variable {α : Type} {key k : Bytes} {v w : α} {es : List (Bytes × α)} {d : Dict α}

/-! ### One entry -/

theorem keys_insertEntry (key : Bytes) (v : α) (es : List (Bytes × α)) :
    (insertEntry key v es).2.map Prod.fst =
      if key ∈ es.map Prod.fst then es.map Prod.fst else es.map Prod.fst ++ [key] := by
  induction es with
  | nil => rfl
  | cons e es ih =>
    obtain ⟨l, u⟩ := e
    by_cases hl : l = key
    · subst hl
      simp [insertEntry]
    · simp only [insertEntry, if_neg hl, List.map_cons, ih, List.mem_cons]
      by_cases hkey : key ∈ es.map Prod.fst
      · rw [if_pos hkey, if_pos (.inr hkey)]
      · rw [if_neg hkey, if_neg (by simpa [hkey] using Ne.symm hl), List.cons_append]

/-- A new key goes to the end. -/
theorem insertEntry_of_notMem (v : α) (h : key ∉ es.map Prod.fst) :
    insertEntry key v es = (none, es ++ [(key, v)]) := by
  induction es with
  | nil => rfl
  | cons e es ih =>
    obtain ⟨l, u⟩ := e
    simp only [List.map_cons, List.mem_cons, not_or] at h
    simp only [insertEntry, if_neg (Ne.symm h.1), ih h.2, List.cons_append]

theorem insertEntry_append_cons (v w : α) {front : List (Bytes × α)} (back : List (Bytes × α))
    (h : key ∉ front.map Prod.fst) :
    insertEntry key v (front ++ (key, w) :: back) = (some w, front ++ (key, v) :: back) := by
  induction front with
  | nil => simp [insertEntry]
  | cons e front ih =>
    obtain ⟨l, u⟩ := e
    simp only [List.map_cons, List.mem_cons, not_or] at h
    simp only [List.cons_append, insertEntry, if_neg (Ne.symm h.1), ih h.2]

theorem eraseEntry_of_notMem (h : key ∉ es.map Prod.fst) : eraseEntry key es = (none, es) := by
  induction es with
  | nil => rfl
  | cons e es ih =>
    obtain ⟨l, u⟩ := e
    simp only [List.map_cons, List.mem_cons, not_or] at h
    simp only [eraseEntry, if_neg (Ne.symm h.1), ih h.2]

theorem eraseEntry_append_cons (w : α) {front : List (Bytes × α)} (back : List (Bytes × α))
    (h : key ∉ front.map Prod.fst) :
    eraseEntry key (front ++ (key, w) :: back) = (some w, front ++ back) := by
  induction front with
  | nil => simp [eraseEntry]
  | cons e front ih =>
    obtain ⟨l, u⟩ := e
    simp only [List.map_cons, List.mem_cons, not_or] at h
    simp only [List.cons_append, eraseEntry, if_neg (Ne.symm h.1), ih h.2]

theorem lookup_cons_eq (k l : Bytes) (v : α) (es : List (Bytes × α)) :
    List.lookup k ((l, v) :: es) = if k = l then some v else es.lookup k := by
  rw [List.lookup_cons]
  by_cases hk : k = l
  · simp [hk]
  · simp [hk, beq_eq_false_iff_ne.mpr hk]

theorem lookup_insertEntry (key k : Bytes) (v : α) (es : List (Bytes × α)) :
    (insertEntry key v es).2.lookup k = if k = key then some v else es.lookup k := by
  induction es with
  | nil => rw [insertEntry, lookup_cons_eq]
  | cons e es ih =>
    obtain ⟨l, u⟩ := e
    by_cases hl : l = key
    · subst hl
      rw [insertEntry, if_pos rfl, lookup_cons_eq, lookup_cons_eq]
      by_cases hk : k = l
      · rw [if_pos hk, if_pos hk]
      · rw [if_neg hk, if_neg hk, if_neg hk]
    · simp only [insertEntry, if_neg hl, lookup_cons_eq, ih]
      by_cases hk : k = key
      · subst hk
        rw [if_neg (Ne.symm hl), if_pos rfl, if_pos rfl]
      · rw [if_neg hk, if_neg hk]

/-- Setting a key to the value that it has changes nothing. -/
theorem insertEntry_of_lookup (h : es.lookup key = some v) : (insertEntry key v es).2 = es := by
  induction es with
  | nil => cases h
  | cons e es ih =>
    obtain ⟨l, u⟩ := e
    rw [lookup_cons_eq] at h
    by_cases hl : key = l
    · subst hl
      obtain rfl : u = v := by simpa using h
      simp [insertEntry]
    · rw [if_neg hl] at h
      simp [insertEntry, Ne.symm hl, ih h]

theorem mem_insertEntry {e : Bytes × α} (h : e ∈ (insertEntry key v es).2) :
    e ∈ es ∨ e = (key, v) := by
  induction es with
  | nil => exact .inr (List.mem_singleton.mp h)
  | cons f es ih =>
    obtain ⟨l, u⟩ := f
    by_cases hl : l = key
    · subst hl
      simp only [insertEntry, if_pos, List.mem_cons] at h
      exact h.elim .inr fun h => .inl (List.mem_cons_of_mem _ h)
    · simp only [insertEntry, if_neg hl, List.mem_cons] at h
      rcases h with rfl | h
      · exact .inl List.mem_cons_self
      · exact (ih h).imp_left (List.mem_cons_of_mem _)

theorem eraseEntry_sublist (key : Bytes) (es : List (Bytes × α)) :
    (eraseEntry key es).2.Sublist es := by
  induction es with
  | nil => exact .slnil
  | cons e es ih =>
    obtain ⟨l, u⟩ := e
    unfold eraseEntry
    split
    · exact List.sublist_cons_self (l, u) es
    · exact ih.cons_cons (l, u)

@[simp] theorem entries_insert : (d.insert key v).2.entries = (insertEntry key v d.entries).2 := rfl

theorem get?_insert (d : Dict α) (key k : Bytes) (v : α) :
    (d.insert key v).2.get? k = if k = key then some v else d.get? k :=
  lookup_insertEntry key k v d.entries

theorem insert_of_get? (h : d.get? key = some v) : (d.insert key v).2 = d :=
  congrArg Dict.mk (insertEntry_of_lookup h)

theorem get?_eq_none_iff : d.get? k = none ↔ k ∉ d.keys := by
  rw [get?, List.lookup_eq_none_iff, keys, List.mem_map, not_exists]
  constructor
  · rintro h e ⟨he, rfl⟩
    simpa using h e he
  · intro h e he
    simpa using fun hk => h e ⟨he, Eq.symm hk⟩

/-! ### Distinct keys -/

/-- No key comes twice. -/
def Distinct (d : Dict α) : Prop := d.keys.Nodup

instance (d : Dict α) : Decidable d.Distinct := inferInstanceAs (Decidable d.keys.Nodup)

theorem distinct_empty : (empty : Dict α).Distinct := List.nodup_nil

theorem Distinct.insert (h : d.Distinct) (key : Bytes) (v : α) : (d.insert key v).2.Distinct := by
  unfold Distinct keys at *
  rw [entries_insert, keys_insertEntry]
  by_cases hkey : key ∈ d.entries.map Prod.fst
  · rwa [if_pos hkey]
  · rw [if_neg hkey, List.nodup_append]
    refine ⟨h, by simp, ?_⟩
    rintro k hk _ hkey' rfl
    exact hkey (List.mem_singleton.mp hkey' ▸ hk)

theorem Distinct.erase (h : d.Distinct) (key : Bytes) : (d.erase key).2.Distinct :=
  h.sublist ((eraseEntry_sublist key d.entries).map Prod.fst)

/-! ### A list of entries -/

/-- The entries of a list are inserted one after the other. -/
def insertAll (d : Dict α) (es : List (Bytes × α)) : Dict α :=
  es.foldl (fun d e => (d.insert e.1 e.2).2) d

theorem ofList_eq_insertAll (es : List (Bytes × α)) : ofList es = empty.insertAll es := rfl

theorem insertAll_append (d : Dict α) (es fs : List (Bytes × α)) :
    d.insertAll (es ++ fs) = (d.insertAll es).insertAll fs := List.foldl_append

theorem Distinct.insertAll (h : d.Distinct) (es : List (Bytes × α)) :
    (d.insertAll es).Distinct := by
  induction es generalizing d with
  | nil => exact h
  | cons e es ih => exact ih (h.insert e.1 e.2)

theorem distinct_ofList (es : List (Bytes × α)) : (ofList es).Distinct :=
  distinct_empty.insertAll es

/-- Inserting brings in no entries but those that are inserted. -/
theorem mem_insertAll {e : Bytes × α} (h : e ∈ (d.insertAll es).entries) :
    e ∈ d.entries ∨ e ∈ es := by
  induction es generalizing d with
  | nil => exact .inl h
  | cons f es ih =>
    rcases ih (d := (d.insert f.1 f.2).2) h with h | h
    · rcases mem_insertEntry h with h | rfl
      · exact .inl h
      · exact .inr List.mem_cons_self
    · exact .inr (List.mem_cons_of_mem f h)

theorem mem_of_mem_ofList {e : Bytes × α} (h : e ∈ (ofList es).entries) : e ∈ es :=
  (mem_insertAll (d := empty) h).resolve_left List.not_mem_nil

/-- Entries with new keys, all different, are appended as they are. -/
theorem insertAll_of_nodup (h : (d.keys ++ es.map Prod.fst).Nodup) :
    d.insertAll es = ⟨d.entries ++ es⟩ := by
  induction es generalizing d with
  | nil => rw [List.append_nil]; rfl
  | cons e es ih =>
    obtain ⟨k, v⟩ := e
    have hk : k ∉ d.keys := by
      intro hk
      exact (List.nodup_append.mp h).2.2 k hk k (by simp) rfl
    have hinsert : (d.insert k v).2.entries = d.entries ++ [(k, v)] := by
      rw [entries_insert, insertEntry_of_notMem v hk]
    have hnodup : ((d.insert k v).2.keys ++ es.map Prod.fst).Nodup := by
      rw [keys, hinsert, List.map_append, List.append_assoc]
      exact h
    show ((d.insert k v).2).insertAll es = _
    rw [ih hnodup, hinsert, List.append_assoc, List.singleton_append]

theorem ofList_entries (h : d.Distinct) : ofList d.entries = d :=
  insertAll_of_nodup (d := empty) h

theorem get?_insertAll_of_notMem (h : k ∉ es.map Prod.fst) :
    (d.insertAll es).get? k = d.get? k := by
  induction es generalizing d with
  | nil => rfl
  | cons e es ih =>
    simp only [List.map_cons, List.mem_cons, not_or] at h
    show ((d.insert e.1 e.2).2.insertAll es).get? k = d.get? k
    rw [ih h.2, get?_insert, if_neg h.1]

/-- A key holds the value that came with it last. -/
theorem get?_ofList_append_cons (before after : List (Bytes × α)) (k : Bytes) (v : α)
    (h : k ∉ after.map Prod.fst) : (ofList (before ++ (k, v) :: after)).get? k = some v := by
  rw [ofList_eq_insertAll, insertAll_append]
  show (((empty.insertAll before).insert k v).2.insertAll after).get? k = some v
  rw [get?_insertAll_of_notMem h, get?_insert, if_pos rfl]

end BitTorrent.Bencode.Dict
