import BitTorrent.Proofs.Bencode.Dict
import Mathlib.Data.List.Induction
import Mathlib.Data.Set.Card

/-! A dictionary after any number of inserts and erases. The history alone says what it holds: a
key has the value of the last insert of it, unless it was erased behind that, and the keys stand in
the order in which they came in, each with the insert that found it absent and that no erase came
behind. So a key that is overwritten keeps its place, and one that is erased and inserted again
goes to the end. -/

namespace BitTorrent.Bencode.Dict

variable {α : Type}

/-- One change of a dictionary. -/
inductive Edit (α : Type) where
  | insert (key : Bytes) (value : α)
  | erase (key : Bytes)
  deriving DecidableEq

namespace Edit

def key : Edit α → Bytes
  | .insert key _ => key
  | .erase key => key

/-- The value that is left under the key. -/
def value? : Edit α → Option α
  | .insert _ value => some value
  | .erase _ => none

def apply (d : Dict α) : Edit α → Option α × Dict α
  | .insert key value => d.insert key value
  | .erase key => d.erase key

end Edit

/-- The dictionary after a history, from its first edit on. -/
def run (d : Dict α) (history : List (Edit α)) : Dict α :=
  history.foldl (fun d e => (e.apply d).2) d

/-- The last edit of the key inserts it with the value. -/
def Holds (history : List (Edit α)) (k : Bytes) (v : α) : Prop :=
  ∃ before after, history = before ++ .insert k v :: after ∧ ∀ e ∈ after, e.key ≠ k

/-- The edit at the index inserts the key where it is absent, and no later one erases it. -/
def EntersAt (history : List (Edit α)) (k : Bytes) (i : Nat) : Prop :=
  ∃ before v after, history = before ++ .insert k v :: after ∧ before.length = i ∧
    (∀ w, ¬Holds before k w) ∧ .erase k ∉ after

variable {d : Dict α} {key k : Bytes} {v old : α} {history : List (Edit α)} {e : Edit α} {i j : Nat}

/-! ### One edit -/

/-- A key that is present has one entry. Inserting it and erasing it answer its value and touch that
entry only. -/
theorem edits_of_get? (h : d.get? key = some old) :
    ∃ front back, d.entries = front ++ (key, old) :: back ∧
      (∀ v, d.insert key v = (some old, ⟨front ++ (key, v) :: back⟩)) ∧
      d.erase key = (some old, ⟨front ++ back⟩) := by
  obtain ⟨front, back, hentries, hne⟩ := List.lookup_eq_some_iff.mp h
  have hfront : key ∉ front.map Prod.fst := by
    intro hmem
    obtain ⟨e, he, hkey⟩ := List.mem_map.mp hmem
    simpa [hkey] using hne e he
  refine ⟨front, back, hentries, fun v => ?_, ?_⟩
  · rw [insert, hentries, insertEntry_append_cons v old back hfront]
  · rw [erase, hentries, eraseEntry_append_cons old back hfront]

/-- A key that is absent is inserted at the end, and there is nothing to erase. -/
theorem edits_of_get?_eq_none (h : d.get? key = none) :
    (∀ v, d.insert key v = (none, ⟨d.entries ++ [(key, v)]⟩)) ∧ d.erase key = (none, d) := by
  have hkey : key ∉ d.entries.map Prod.fst := get?_eq_none_iff.mp h
  refine ⟨fun v => ?_, ?_⟩
  · rw [insert, insertEntry_of_notMem v hkey]
  · rw [erase, eraseEntry_of_notMem hkey]

/-- Since no key comes twice, nothing is left of one that is erased. -/
theorem get?_erase (hd : d.Distinct) (key k : Bytes) :
    (d.erase key).2.get? k = if k = key then none else d.get? k := by
  cases h : d.get? key with
  | none =>
    rw [(edits_of_get?_eq_none h).2]
    by_cases hk : k = key
    · rw [if_pos hk, hk, h]
    · rw [if_neg hk]
  | some old =>
    obtain ⟨front, back, hentries, -, herase⟩ := edits_of_get? h
    rw [herase]
    by_cases hk : k = key
    · subst hk
      have hkeys : (front.map Prod.fst ++ k :: back.map Prod.fst).Nodup := by
        rwa [Distinct, keys, hentries, List.map_append, List.map_cons] at hd
      rw [if_pos rfl, get?_eq_none_iff, keys, List.map_append]
      exact (List.nodup_middle.mp hkeys).notMem
    · rw [if_neg hk, get?, get?, hentries, List.lookup_append, List.lookup_append, lookup_cons_eq,
        if_neg hk]

theorem get?_apply (hd : d.Distinct) (e : Edit α) (k : Bytes) :
    (e.apply d).2.get? k = if k = e.key then e.value? else d.get? k := by
  cases e with
  | insert key v => exact get?_insert d key k v
  | erase key => exact get?_erase hd key k

theorem Distinct.apply (hd : d.Distinct) (e : Edit α) : (e.apply d).2.Distinct := by
  cases e with
  | insert key v => exact hd.insert key v
  | erase key => exact hd.erase key

/-- An edit brings a key that was absent to the end of the keys, or leaves some of those that there
were in their order. -/
theorem keys_apply (d : Dict α) (e : Edit α) :
    (e.apply d).2.keys.Sublist d.keys ∨
      e.key ∉ d.keys ∧ (e.apply d).2.keys = d.keys ++ [e.key] := by
  cases e with
  | insert key v =>
    have hkeys : (d.insert key v).2.keys = if key ∈ d.keys then d.keys else d.keys ++ [key] :=
      keys_insertEntry key v d.entries
    by_cases hkey : key ∈ d.keys
    · rw [if_pos hkey] at hkeys
      exact .inl (hkeys ▸ List.Sublist.refl _)
    · rw [if_neg hkey] at hkeys
      exact .inr ⟨hkey, hkeys⟩
  | erase key => exact .inl ((eraseEntry_sublist key d.entries).map Prod.fst)

/-! ### Histories -/

theorem run_append_singleton (d : Dict α) (history : List (Edit α)) (e : Edit α) :
    d.run (history ++ [e]) = (e.apply (d.run history)).2 := List.foldl_append

/-- Inserting the entries of a list is a history too. -/
theorem run_ofList (es : List (Bytes × α)) (history : List (Edit α)) :
    (ofList es).run history = empty.run (es.map (fun e => .insert e.1 e.2) ++ history) := by
  rw [run, run, List.foldl_append, List.foldl_map]
  rfl

/-- An edit in a history that goes on by one edit is the last one, or one of those before it. -/
theorem append_singleton_eq_append_cons {x : Edit α} {before after : List (Edit α)}
    (h : history ++ [e] = before ++ x :: after) :
    (after = [] ∧ before = history ∧ x = e) ∨
      ∃ rest, after = rest ++ [e] ∧ history = before ++ x :: rest := by
  rcases List.eq_nil_or_concat' after with rfl | ⟨rest, last, rfl⟩
  · obtain ⟨hbefore, hx⟩ := List.append_inj' h rfl
    exact .inl ⟨rfl, hbefore.symm, (List.singleton_inj.mp hx).symm⟩
  · rw [← List.cons_append, ← List.append_assoc] at h
    obtain ⟨hhistory, hlast⟩ := List.append_inj' h rfl
    exact .inr ⟨rest, by rw [List.singleton_inj.mp hlast], hhistory⟩

theorem holds_append_singleton :
    Holds (history ++ [e]) k v ↔ e = .insert k v ∨ e.key ≠ k ∧ Holds history k v := by
  constructor
  · rintro ⟨before, after, h, hafter⟩
    rcases append_singleton_eq_append_cons h with ⟨-, -, rfl⟩ | ⟨rest, rfl, hhistory⟩
    · exact .inl rfl
    · obtain ⟨hrest, hlast⟩ := List.forall_mem_append.mp hafter
      exact .inr ⟨hlast e (List.mem_singleton_self e), before, rest, hhistory, hrest⟩
  · rintro (rfl | ⟨hne, before, after, rfl, hafter⟩)
    · exact ⟨history, [], rfl, nofun⟩
    · refine ⟨before, after ++ [e], by rw [List.append_assoc, List.cons_append], ?_⟩
      exact List.forall_mem_append.mpr ⟨hafter, List.forall_mem_singleton.mpr hne⟩

theorem entersAt_append_singleton :
    EntersAt (history ++ [e]) k i ↔
      (i = history.length ∧ (∀ w, ¬Holds history k w) ∧ ∃ v, e = .insert k v) ∨
        e ≠ .erase k ∧ EntersAt history k i := by
  constructor
  · rintro ⟨before, v, after, h, rfl, habsent, hkept⟩
    rcases append_singleton_eq_append_cons h with ⟨-, rfl, rfl⟩ | ⟨rest, rfl, hhistory⟩
    · exact .inl ⟨rfl, habsent, v, rfl⟩
    · rw [List.mem_append, not_or, List.mem_singleton] at hkept
      exact .inr ⟨Ne.symm hkept.2, before, v, rest, hhistory, rfl, habsent, hkept.1⟩
  · rintro (⟨rfl, habsent, v, rfl⟩ | ⟨hne, before, v, after, rfl, rfl, habsent, hkept⟩)
    · exact ⟨history, v, [], rfl, rfl, habsent, List.not_mem_nil⟩
    · refine ⟨before, v, after ++ [e], by rw [List.append_assoc, List.cons_append], rfl, habsent,
        ?_⟩
      rw [List.mem_append, not_or, List.mem_singleton]
      exact ⟨hkept, Ne.symm hne⟩

theorem EntersAt.lt_length (h : EntersAt history k i) : i < history.length := by
  obtain ⟨before, v, after, rfl, rfl, -, -⟩ := h
  rw [List.length_append, List.length_cons]
  omega

/-- An edit of another key makes no difference. -/
theorem holds_append_of_ne (h : e.key ≠ k) : Holds (history ++ [e]) k v ↔ Holds history k v := by
  rw [holds_append_singleton]
  constructor
  · rintro (rfl | ⟨-, hholds⟩)
    · exact absurd rfl h
    · exact hholds
  · exact fun hholds => .inr ⟨h, hholds⟩

theorem entersAt_append_of_ne (h : e.key ≠ k) :
    EntersAt (history ++ [e]) k i ↔ EntersAt history k i := by
  rw [entersAt_append_singleton]
  constructor
  · rintro (⟨-, -, v, rfl⟩ | ⟨-, henters⟩)
    · exact absurd rfl h
    · exact henters
  · refine fun henters => .inr ⟨?_, henters⟩
    rintro rfl
    exact h rfl

/-- A key has come in exactly if it has a value, by induction on the history from its last edit. -/
theorem exists_entersAt_iff : (∃ i, EntersAt history k i) ↔ ∃ v, Holds history k v := by
  induction history using List.reverseRecOn with
  | nil => simp [EntersAt, Holds]
  | append_singleton history e ih =>
    by_cases hk : e.key = k
    · subst hk
      cases e with
      | insert key v =>
        refine iff_of_true ?_ ⟨v, holds_append_singleton.mpr (.inl rfl)⟩
        by_cases hpresent : ∃ w, Holds history key w
        · obtain ⟨i, hi⟩ := ih.mpr hpresent
          exact ⟨i, entersAt_append_singleton.mpr (.inr ⟨nofun, hi⟩)⟩
        · exact ⟨_, entersAt_append_singleton.mpr (.inl ⟨rfl, not_exists.mp hpresent, v, rfl⟩)⟩
      | erase key =>
        refine iff_of_false ?_ ?_
        · rintro ⟨i, hi⟩
          rcases entersAt_append_singleton.mp hi with ⟨-, -, v, hv⟩ | ⟨hne, -⟩
          · cases hv
          · exact hne rfl
        · rintro ⟨v, hv⟩
          rcases holds_append_singleton.mp hv with hv | ⟨hne, -⟩
          · cases hv
          · exact hne rfl
    · simp only [entersAt_append_of_ne hk, holds_append_of_ne hk, ih]

/-- A key that is there comes in with one insert only. -/
theorem EntersAt.unique (hi : EntersAt history k i) (hj : EntersAt history k j) : i = j := by
  induction history using List.reverseRecOn with
  | nil => exact absurd hi.lt_length (Nat.not_lt_zero i)
  | append_singleton history e ih =>
    rcases entersAt_append_singleton.mp hi with ⟨rfl, habsent, -⟩ | ⟨-, hi⟩
    · rcases entersAt_append_singleton.mp hj with ⟨rfl, -, -⟩ | ⟨-, hj⟩
      · rfl
      · exact absurd (exists_entersAt_iff.mp ⟨j, hj⟩) (not_exists.mpr habsent)
    · rcases entersAt_append_singleton.mp hj with ⟨rfl, habsent, -⟩ | ⟨-, hj⟩
      · exact absurd (exists_entersAt_iff.mp ⟨i, hi⟩) (not_exists.mpr habsent)
      · exact ih hi hj

/-- Where a key is there already, an edit behind is not where it comes in. -/
theorem EntersAt.of_append (h : EntersAt (history ++ [e]) k i) (hpresent : ∃ v, Holds history k v) :
    EntersAt history k i := by
  rcases entersAt_append_singleton.mp h with ⟨-, habsent, -⟩ | ⟨-, h⟩
  · exact absurd hpresent (not_exists.mpr habsent)
  · exact h

/-- Where a key is not there yet, it is the last edit that brings it in. -/
theorem EntersAt.eq_length (h : EntersAt (history ++ [e]) k i) (habsent : ¬∃ v, Holds history k v) :
    i = history.length := by
  rcases entersAt_append_singleton.mp h with ⟨hi, -, -⟩ | ⟨-, h⟩
  · exact hi
  · exact absurd (exists_entersAt_iff.mp ⟨i, h⟩) habsent

/-! ### Runs -/

theorem distinct_run (history : List (Edit α)) : (empty.run history).Distinct := by
  induction history using List.reverseRecOn with
  | nil => exact distinct_empty
  | append_singleton history e ih =>
    rw [run_append_singleton]
    exact ih.apply e

theorem get?_run (history : List (Edit α)) (k : Bytes) (v : α) :
    (empty.run history).get? k = some v ↔ Holds history k v := by
  induction history using List.reverseRecOn with
  | nil => simp [Holds, run, empty, get?]
  | append_singleton history e ih =>
    rw [run_append_singleton, get?_apply (distinct_run history), holds_append_singleton, ← ih]
    by_cases hk : k = e.key
    · subst hk
      cases e <;> simp [Edit.value?, Edit.key]
    · rw [if_neg hk]
      refine ⟨fun h => .inr ⟨Ne.symm hk, h⟩, ?_⟩
      rintro (rfl | ⟨-, h⟩)
      · exact absurd rfl hk
      · exact h

theorem mem_keys_run : k ∈ (empty.run history).keys ↔ ∃ v, Holds history k v := by
  simp only [← get?_run, ← Option.isSome_iff_exists, Option.isSome_iff_ne_none, ne_eq,
    get?_eq_none_iff, not_not]

/-- The keys are in the order in which they came in: an edit that leaves keys leaves their order,
and one that brings a key in comes behind all that have brought in another. -/
theorem pairwise_keys_run (history : List (Edit α)) :
    (empty.run history).keys.Pairwise fun a b =>
      ∀ i j, EntersAt history a i → EntersAt history b j → i < j := by
  induction history using List.reverseRecOn with
  | nil => exact .nil
  | append_singleton history e ih =>
    have hpresent : ∀ a ∈ (empty.run history).keys, ∃ v, Holds history a v := fun a ha =>
      mem_keys_run.mp ha
    have hkept : (empty.run history).keys.Pairwise fun a b =>
        ∀ i j, EntersAt (history ++ [e]) a i → EntersAt (history ++ [e]) b j → i < j := by
      refine ih.imp_of_mem fun ha hb hlt i j hi hj => ?_
      exact hlt i j (hi.of_append (hpresent _ ha)) (hj.of_append (hpresent _ hb))
    rw [run_append_singleton]
    rcases keys_apply (empty.run history) e with hsub | ⟨habsent, hkeys⟩
    · exact hkept.sublist hsub
    · rw [hkeys, List.pairwise_append]
      refine ⟨hkept, List.pairwise_singleton _ _, fun a ha b hb i j hi hj => ?_⟩
      rw [List.mem_singleton.mp hb] at hj
      rw [hj.eq_length (mem_keys_run.not.mp habsent)]
      exact (hi.of_append (hpresent a ha)).lt_length

theorem size_run (history : List (Edit α)) :
    (empty.run history).size = {k | ∃ v, Holds history k v}.ncard := by
  have hset : {k | ∃ v, Holds history k v} = ((empty.run history).keys.toFinset : Set Bytes) := by
    ext k
    rw [Set.mem_ofPred_eq, ← mem_keys_run, Finset.mem_coe, List.mem_toFinset]
  rw [hset, Set.ncard_coe_finset, List.toFinset_card_of_nodup (distinct_run history), keys,
    List.length_map, size]

/-- A dictionary that is made of a list of entries and then changed by any inserts and erases, the
entries of the list being the first inserts of its history. No key comes twice; a key has the value
of the last insert of it unless it was erased behind that; the size is the number of keys that have
a value; each of these came in with one insert, and they stand in the order of those. One insert or
erase more answers the value that the key has; it touches the entry of the key alone if there is
one, in its place, and otherwise an insert appends one and an erase does nothing. -/
theorem run_follows_history (es : List (Bytes × α)) (edits : List (Edit α)) :
    let d := (ofList es).run edits
    let history := es.map (fun e => .insert e.1 e.2) ++ edits
    d.keys.Nodup ∧
    (∀ k v, d.get? k = some v ↔ Holds history k v) ∧
    d.size = {k | ∃ v, Holds history k v}.ncard ∧
    (∀ k, k ∈ d.keys ↔ ∃! i, EntersAt history k i) ∧
    (d.keys.Pairwise fun a b => ∀ i j, EntersAt history a i → EntersAt history b j → i < j) ∧
    (∀ k old, d.get? k = some old → ∃ front back, d.entries = front ++ (k, old) :: back ∧
      (∀ v, d.insert k v = (some old, ⟨front ++ (k, v) :: back⟩)) ∧
      d.erase k = (some old, ⟨front ++ back⟩)) ∧
    ∀ k, d.get? k = none →
      (∀ v, d.insert k v = (none, ⟨d.entries ++ [(k, v)]⟩)) ∧ d.erase k = (none, d) := by
  intro d history
  have hd : d = empty.run history := run_ofList es edits
  refine ⟨hd ▸ distinct_run history, ?_, hd ▸ size_run history, ?_, hd ▸ pairwise_keys_run history,
    fun k old => edits_of_get?, fun k => edits_of_get?_eq_none⟩
  · rw [hd]
    exact get?_run history
  · intro k
    rw [hd, mem_keys_run, ← exists_entersAt_iff]
    constructor
    · rintro ⟨i, hi⟩
      exact ⟨i, hi, fun j hj => hj.unique hi⟩
    · rintro ⟨i, hi, -⟩
      exact ⟨i, hi⟩

example : ((ofList [([0x61], 1), ([0x62], 2), ([0x63], 3), ([0x61], 4)]).run
    [.erase [0x62], .insert [0x62] 5, .insert [0x63] 6, .erase [0x64]]).entries =
      [([0x61], 4), ([0x63], 6), ([0x62], 5)] := by decide

end BitTorrent.Bencode.Dict
