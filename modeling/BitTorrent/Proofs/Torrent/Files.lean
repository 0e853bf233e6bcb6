import BitTorrent.Proofs.Bencode.Value
import BitTorrent.Proofs.Torrent.InfoBytes
import Mathlib.Algebra.BigOperators.Group.List.Basic
import Mathlib.Algebra.GroupWithZero.Nat
import Mathlib.Data.List.Forall2

/-! Which entries make the layout of a torrent: the length of its one file, or a list of files that
each have a length and a path. The lengths of a list must sum up to a word, since the offset of
every file is one. Whatever is refused is refused for a flaw. -/

namespace BitTorrent.Torrent

open Bencode

/-- A file of a list: a dictionary with the length of the file and the segments of its path, at
least one. -/
def IsFile (v : Value) (length : Nat) : Prop :=
  ∃ d path, v = .dict d ∧ d.HasNat "length" length ∧ d.HasTexts "path" path ∧ path ≠ []

/-- The torrent of one file has its length and no list. -/
def OneFile (d : Dict Value) : Prop :=
  (∃ length, d.HasNat "length" length) ∧ d.get? (Bytes.ofText "files") = none

/-- The torrent of many files has a list of at least one, whose lengths sum up to a word, and no
length of its own. -/
def ManyFiles (d : Dict Value) : Prop :=
  d.get? (Bytes.ofText "length") = none ∧
    ∃ entries lengths, d.get? (Bytes.ofText "files") = some (.list entries) ∧ entries ≠ [] ∧
      List.Forall₂ IsFile entries lengths ∧ lengths.sum < 2 ^ 64

/-! ### Words -/

theorem word?_eq_some_iff {v : Value} {w : UInt64} :
    word? v = some w ↔ ∃ i : Int64, v = .integer i ∧ i.toInt = w.toNat := by
  rw [word?, Option.map_eq_some_iff]
  constructor
  · rintro ⟨n, hn, rfl⟩
    obtain ⟨hlt, hn⟩ := Value.natBelow?_eq_some_iff.mp hn
    have hword : (UInt64.ofNat n).toNat = n :=
      UInt64.toNat_ofNat_of_lt' (Nat.lt_trans hlt (by decide))
    rwa [hword]
  · rintro ⟨i, rfl, hi⟩
    have hlt : w.toNat < 2 ^ 63 := by
      have := i.toInt_lt
      omega
    exact ⟨w.toNat, Value.natBelow?_eq_some_iff.mpr ⟨hlt, i, rfl, hi⟩, UInt64.ofNat_toNat⟩

theorem exists_word?_iff {v : Value} {n : Nat} :
    (∃ w, word? v = some w ∧ w.toNat = n) ↔ ∃ i : Int64, v = .integer i ∧ i.toInt = n := by
  constructor
  · rintro ⟨w, hw, rfl⟩
    exact word?_eq_some_iff.mp hw
  · rintro ⟨i, rfl, hi⟩
    have hlt : n < 2 ^ 64 := by
      have := i.toInt_lt
      omega
    have hword : (UInt64.ofNat n).toNat = n := UInt64.toNat_ofNat_of_lt' hlt
    exact ⟨.ofNat n, word?_eq_some_iff.mpr ⟨i, rfl, by rw [hword, hi]⟩, hword⟩

section Layout

variable {d : Dict Value}

theorem bind_word?_eq_some_iff {key : String} {w : UInt64} :
    (d.get? (Bytes.ofText key)).bind word? = some w ↔ d.HasNat key w.toNat := by
  simp only [Option.bind_eq_some_iff, word?_eq_some_iff, Dict.HasNat]
  constructor
  · rintro ⟨v, hv, i, rfl, hi⟩
    exact ⟨i, hv, hi⟩
  · rintro ⟨i, hv, hi⟩
    exact ⟨.integer i, hv, i, rfl, hi⟩

/-! ### Files -/

theorem pathOf_eq_ok_iff {segments : List Value} {path : List String} :
    pathOf segments = .ok path ↔
      segments = path.map (fun s => .bytes (Bytes.ofText s)) ∧ path ≠ [] := by
  rw [pathOf, orFlaw_eq_ok_iff, Option.filter_eq_some_iff, Value.mapM_text?_eq_some_iff]
  simp

/-- A file is read exactly if it is one, with its length. -/
theorem exists_fileOf_iff {offset : UInt64} {v : Value} {length : Nat} :
    (∃ f, fileOf offset v = .ok f ∧ f.length.toNat = length) ↔ IsFile v length := by
  constructor
  · rintro ⟨f, h, rfl⟩
    obtain ⟨d, hd, h⟩ := bind_eq_ok_iff.mp h
    obtain ⟨n, hn, h⟩ := bind_eq_ok_iff.mp h
    obtain ⟨w, hw, h⟩ := bind_eq_ok_iff.mp h
    obtain ⟨segments, hsegments, h⟩ := bind_eq_ok_iff.mp h
    obtain ⟨path, hpath, h⟩ := bind_eq_ok_iff.mp h
    cases h
    rw [orFlaw_eq_ok_iff] at hd hn hw hsegments
    obtain ⟨p, hp, hsegments⟩ := Option.bind_eq_some_iff.mp hsegments
    obtain ⟨hpath, hne⟩ := pathOf_eq_ok_iff.mp hpath
    obtain ⟨i, rfl, hi⟩ := word?_eq_some_iff.mp hw
    rw [Value.dict?_eq_some_iff] at hd
    rw [Value.list?_eq_some_iff] at hsegments
    exact ⟨d, path, hd, ⟨i, hn, hi⟩, by rw [Dict.HasTexts, hp, hsegments, hpath], hne⟩
  · rintro ⟨d, path, rfl, ⟨i, hi, hn⟩, hpath, hne⟩
    obtain ⟨w, hw, hlength⟩ := exists_word?_iff.mpr ⟨i, rfl, hn⟩
    have hsegments := pathOf_eq_ok_iff.mpr ⟨rfl, hne⟩
    refine ⟨⟨path, w, offset⟩, ?_, hlength⟩
    rw [Dict.HasTexts] at hpath
    simp only [fileOf, Value.dict?, orFlaw, ok_bind, hi, hw, hpath, Option.bind_some, Value.list?,
      hsegments]
    rfl

theorem checkedAdd?_eq_some_iff {a b c : UInt64} :
    checkedAdd? a b = some c ↔ c.toNat = a.toNat + b.toNat := by
  have hlt := c.toNat_lt
  unfold checkedAdd?
  constructor
  · intro h
    split at h
    · rename_i hsum
      cases h
      rw [UInt64.toNat_add, Nat.mod_eq_of_lt hsum]
    · cases h
  · intro h
    have hsum : a.toNat + b.toNat < Nat.pow 2 64 := h ▸ hlt
    rw [if_pos hsum, Option.some.injEq, ← UInt64.toNat_inj, UInt64.toNat_add, Nat.mod_eq_of_lt hsum,
      h]

/-- Files are read exactly if all are files, and their lengths on top of the offset are a word. -/
theorem exists_filesFrom_iff {offset : UInt64} {entries : List Value} :
    (∃ files, filesFrom offset entries = .ok files) ↔
      ∃ lengths, List.Forall₂ IsFile entries lengths ∧ offset.toNat + lengths.sum < 2 ^ 64 := by
  induction entries generalizing offset with
  | nil => exact ⟨fun _ => ⟨[], .nil, offset.toNat_lt⟩, fun _ => ⟨[], rfl⟩⟩
  | cons entry entries ih =>
    constructor
    · rintro ⟨_, h⟩
      obtain ⟨file, hfile, h⟩ := bind_eq_ok_iff.mp h
      obtain ⟨next, hnext, h⟩ := bind_eq_ok_iff.mp h
      obtain ⟨files, hfiles, -⟩ := bind_eq_ok_iff.mp h
      rw [orFlaw_eq_ok_iff, checkedAdd?_eq_some_iff] at hnext
      obtain ⟨lengths, hlengths, hsum⟩ := ih.mp ⟨files, hfiles⟩
      have hentry : IsFile entry file.length.toNat := exists_fileOf_iff.mp ⟨file, hfile, rfl⟩
      refine ⟨file.length.toNat :: lengths, .cons hentry hlengths, ?_⟩
      rw [List.sum_cons]
      omega
    · rintro ⟨_, hentries, hsum⟩
      obtain ⟨length, lengths, hfile, hlengths, rfl⟩ := List.forall₂_cons_left_iff.mp hentries
      rw [List.sum_cons] at hsum
      obtain ⟨file, hfile, rfl⟩ := exists_fileOf_iff.mpr hfile
      have hword : (UInt64.ofNat (offset.toNat + file.length.toNat)).toNat =
          offset.toNat + file.length.toNat := UInt64.toNat_ofNat_of_lt' (by
        show _ < 2 ^ 64
        omega)
      have hnext := checkedAdd?_eq_some_iff.mpr hword
      obtain ⟨files, hfiles⟩ := ih.mpr ⟨lengths, hlengths, by rw [hword]; omega⟩
      refine ⟨file :: files, ?_⟩
      rw [filesFrom, hfile, ok_bind, hnext, orFlaw, ok_bind, hfiles, ok_bind]
      rfl

/-! ### Layouts -/

theorem exists_filesOf_iff {v : Value} :
    (∃ files, filesOf v = .ok files) ↔ ∃ entries lengths, v = .list entries ∧ entries ≠ [] ∧
      List.Forall₂ IsFile entries lengths ∧ lengths.sum < 2 ^ 64 := by
  have hstart (entries : List Value) : (∃ files, filesFrom 0 entries = .ok files) ↔
      ∃ lengths, List.Forall₂ IsFile entries lengths ∧ lengths.sum < 2 ^ 64 := by
    simpa using @exists_filesFrom_iff 0 entries
  cases v with
  | list entries =>
    cases entries with
    | nil => simp [filesOf, Value.list?, orFlaw]
    | cons entry entries => simpa [filesOf, Value.list?, orFlaw] using hstart (entry :: entries)
  | _ => simp [filesOf, Value.list?, orFlaw]

theorem exists_layoutOf_iff : (∃ layout, layoutOf d = .ok layout) ↔ OneFile d ∨ ManyFiles d := by
  unfold layoutOf OneFile ManyFiles Dict.HasNat
  cases d.get? (Bytes.ofText "length") with
  | none =>
    cases d.get? (Bytes.ofText "files") with
    | none => simp
    | some files => simpa [map_eq_ok_iff] using exists_filesOf_iff (v := files)
  | some length =>
    cases d.get? (Bytes.ofText "files") with
    | none =>
      have hlength : (∃ w, word? length = some w) ↔
          ∃ (n : Nat) (i : Int64), length = .integer i ∧ i.toInt = n := by
        simp only [← exists_word?_iff]
        exact ⟨fun ⟨w, hw⟩ => ⟨w.toNat, w, hw, rfl⟩, fun ⟨_, w, hw, _⟩ => ⟨w, hw⟩⟩
      simpa [map_eq_ok_iff, orFlaw_eq_ok_iff] using hlength
    | some files => simp

end Layout

/-! ### Refusals -/

section Refusals

variable {α β : Type} {x : Except Error α}

/-- Whatever is refused is refused for a flaw. -/
def FlawsOnly (x : Except Error α) : Prop := ∀ e, x = .error e → ∃ f, e = .invalid f

theorem flawsOnly_ok (a : α) : FlawsOnly (.ok a) := nofun

theorem flawsOnly_orFlaw (f : Flaw) (o : Option α) : FlawsOnly (orFlaw f o) := by
  intro e h
  cases o with
  | some a => cases h
  | none =>
    cases h
    exact ⟨f, rfl⟩

theorem FlawsOnly.bind {f : α → Except Error β} (hx : FlawsOnly x) (hf : ∀ a, FlawsOnly (f a)) :
    FlawsOnly (x >>= f) := by
  intro e h
  rcases bind_eq_error_iff.mp h with h | ⟨a, -, h⟩
  · exact hx e h
  · exact hf a e h

theorem FlawsOnly.map (hx : FlawsOnly x) (f : α → β) : FlawsOnly (f <$> x) := by
  intro e h
  cases x with
  | ok a => cases h
  | error e' =>
    cases h
    exact hx e rfl

theorem flawsOnly_fileOf (offset : UInt64) (v : Value) : FlawsOnly (fileOf offset v) :=
  (flawsOnly_orFlaw _ _).bind fun _ => (flawsOnly_orFlaw _ _).bind fun _ =>
    (flawsOnly_orFlaw _ _).bind fun _ => (flawsOnly_orFlaw _ _).bind fun _ =>
      (flawsOnly_orFlaw _ _).bind fun _ => flawsOnly_ok _

theorem flawsOnly_filesFrom (offset : UInt64) (entries : List Value) :
    FlawsOnly (filesFrom offset entries) := by
  induction entries generalizing offset with
  | nil => exact flawsOnly_ok []
  | cons entry entries ih =>
    exact (flawsOnly_fileOf offset entry).bind fun _ => (flawsOnly_orFlaw _ _).bind fun next =>
      (ih next).bind fun _ => flawsOnly_ok _

theorem flawsOnly_filesOf (v : Value) : FlawsOnly (filesOf v) := by
  refine (flawsOnly_orFlaw _ _).bind fun entries => ?_
  split
  · intro e h
    cases h
    exact ⟨_, rfl⟩
  · exact flawsOnly_filesFrom 0 entries

theorem flawsOnly_layoutOf (d : Dict Value) : FlawsOnly (layoutOf d) := by
  unfold layoutOf
  split
  · exact (flawsOnly_orFlaw _ _).map _
  · exact (flawsOnly_filesOf _).map _
  · intro e h
    cases h
    exact ⟨_, rfl⟩
  · intro e h
    cases h
    exact ⟨_, rfl⟩

end Refusals

end BitTorrent.Torrent
