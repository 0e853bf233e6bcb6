import BitTorrent.Proofs.Torrent.Files
import BitTorrent.Proofs.Torrent.Saving

/-! The files of a torrent tile its data: each begins where the one before it ends, the first at
zero and the last one ending at the total length, and no sum on the way is too large for a word. So
every position of the data is in one file and no other; files without any bytes cover none. -/

namespace BitTorrent.Torrent

open Bencode

/-! ### Tilings -/

/-- The lengths of files, added up without a bound. -/
def lengthOf (files : List File) : Nat := (files.map fun f => f.length.toNat).sum

theorem lengthOf_cons (f : File) (fs : List File) :
    lengthOf (f :: fs) = f.length.toNat + lengthOf fs := by
  rw [lengthOf, List.map_cons, List.sum_cons]
  rfl

theorem lengthOf_append (fs gs : List File) : lengthOf (fs ++ gs) = lengthOf fs + lengthOf gs := by
  rw [lengthOf, List.map_append, List.sum_append]
  rfl

theorem lengthOf_take_succ {fs : List File} {i : Nat} {f : File} (hf : fs[i]? = some f) :
    lengthOf (fs.take (i + 1)) = lengthOf (fs.take i) + f.length.toNat := by
  rw [List.take_add_one, hf, lengthOf_append]
  rfl

/-- The position is in the file. -/
def File.Covers (f : File) (x : Nat) : Prop :=
  f.offset.toNat ≤ x ∧ x < f.offset.toNat + f.length.toNat

/-- Files one after another from the first position up to the second, without a bound. -/
inductive Tiles : Nat → List File → Nat → Prop
  | nil (start : Nat) : Tiles start [] start
  | cons {start stop : Nat} {f : File} {fs : List File} : f.offset.toNat = start →
    Tiles (start + f.length.toNat) fs stop → Tiles start (f :: fs) stop

namespace Tiles

variable {start stop : Nat} {fs : List File} {f g : File} {i : Nat}

theorem stop_eq (h : Tiles start fs stop) : stop = start + lengthOf fs := by
  induction h with
  | nil start => rfl
  | cons _ _ ih => rw [ih, lengthOf_cons, Nat.add_assoc]

theorem offset_eq (h : Tiles start fs stop) (hf : fs[i]? = some f) :
    f.offset.toNat = start + lengthOf (fs.take i) := by
  induction h generalizing i with
  | nil start => simp at hf
  | @cons start stop f' fs hstart _ ih =>
    cases i with
    | zero =>
      obtain rfl : f' = f := by simpa using hf
      exact hstart
    | succ i =>
      have hoffset := ih (by simpa using hf)
      rw [hoffset, List.take_succ_cons, lengthOf_cons, Nat.add_assoc]

theorem next (h : Tiles start fs stop) (hf : fs[i]? = some f) (hg : fs[i + 1]? = some g) :
    g.offset.toNat = f.offset.toNat + f.length.toNat := by
  rw [h.offset_eq hg, h.offset_eq hf, lengthOf_take_succ hf, Nat.add_assoc]

theorem last (h : Tiles start fs stop) (hf : fs.getLast? = some f) :
    stop = f.offset.toNat + f.length.toNat := by
  rw [List.getLast?_eq_getElem?] at hf
  have hlen : fs.length - 1 + 1 = fs.length := by
    have := (List.getElem?_eq_some_iff.mp hf).1
    omega
  have hall := lengthOf_take_succ hf
  rw [hlen, List.take_length] at hall
  rw [h.stop_eq, h.offset_eq hf, hall, Nat.add_assoc]

/-- Every position is in one of the files and in no other, by induction on the tiling: it is in the
first file, or it is behind it, where all of the others are. -/
theorem existsUnique_covers (h : Tiles start fs stop) {x : Nat} (hstart : start ≤ x)
    (hstop : x < stop) : ∃! i : Nat, ∃ f, fs[i]? = some f ∧ f.Covers x := by
  induction h with
  | nil start => omega
  | @cons start stop f fs hf h ih =>
    by_cases hx : x < start + f.length.toNat
    · refine ⟨0, ⟨f, rfl, by rwa [hf], by rwa [hf]⟩, ?_⟩
      rintro i ⟨g, hg, hge, -⟩
      cases i with
      | zero => rfl
      | succ i =>
        have hoffset := h.offset_eq (i := i) (by simpa using hg)
        omega
    · obtain ⟨i, ⟨g, hg, hcovers⟩, hunique⟩ := ih (Nat.not_lt.mp hx) hstop
      refine ⟨i + 1, ⟨g, by simpa using hg, hcovers⟩, ?_⟩
      rintro j ⟨g', hg', hcovers'⟩
      cases j with
      | zero =>
        obtain rfl : f = g' := by simpa using hg'
        exact absurd (hf ▸ hcovers'.2) hx
      | succ j => exact congrArg (· + 1) (hunique j ⟨g', by simpa using hg', hcovers'⟩)

end Tiles

/-! ### Files that are read -/

theorem offset_of_fileOf {offset : UInt64} {entry : Value} {f : File}
    (h : fileOf offset entry = .ok f) : f.offset = offset := by
  obtain ⟨d, -, h⟩ := bind_eq_ok_iff.mp h
  obtain ⟨v, -, h⟩ := bind_eq_ok_iff.mp h
  obtain ⟨length, -, h⟩ := bind_eq_ok_iff.mp h
  obtain ⟨segments, -, h⟩ := bind_eq_ok_iff.mp h
  obtain ⟨path, -, h⟩ := bind_eq_ok_iff.mp h
  cases h
  rfl

/-- Each step adds one length to the offset, and is made only if the sum is a word. -/
theorem tiles_of_filesFrom {offset : UInt64} {entries : List Value} {files : List File}
    (h : filesFrom offset entries = .ok files) :
    ∃ stop < 2 ^ 64, Tiles offset.toNat files stop := by
  induction entries generalizing offset files with
  | nil =>
    cases h
    exact ⟨offset.toNat, offset.toNat_lt, .nil _⟩
  | cons entry entries ih =>
    obtain ⟨f, hf, h⟩ := bind_eq_ok_iff.mp h
    obtain ⟨next, hnext, h⟩ := bind_eq_ok_iff.mp h
    obtain ⟨fs, hfs, h⟩ := bind_eq_ok_iff.mp h
    cases h
    rw [orFlaw_eq_ok_iff, checkedAdd?_eq_some_iff] at hnext
    obtain ⟨stop, hlt, htiles⟩ := ih hfs
    rw [hnext] at htiles
    exact ⟨stop, hlt, .cons (congrArg UInt64.toNat (offset_of_fileOf hf)) htiles⟩

/-- Where a running sum is a word to the end it is exact. -/
theorem toNat_foldl_length {n : UInt64} {files : List File}
    (h : n.toNat + lengthOf files < 2 ^ 64) :
    (files.foldl (fun n f => n + f.length) n).toNat = n.toNat + lengthOf files := by
  induction files generalizing n with
  | nil => rfl
  | cons f fs ih =>
    rw [lengthOf_cons, ← Nat.add_assoc] at h ⊢
    have hword : (n + f.length).toNat = n.toNat + f.length.toNat := by
      rw [UInt64.toNat_add, Nat.mod_eq_of_lt (by omega)]
    rw [List.foldl_cons, ih (by rwa [hword]), hword]

/-- A list of files has at least one, and is read from zero on. -/
theorem exists_of_layoutOf {d : Dict Value} {files : List File}
    (h : layoutOf d = .ok (.multi files)) :
    ∃ entry entries, filesFrom 0 (entry :: entries) = .ok files := by
  have hfiles : ∃ v, filesOf v = .ok files := by
    unfold layoutOf at h
    split at h
    · obtain ⟨length, -, h⟩ := map_eq_ok_iff.mp h
      cases h
    · rename_i v _ _
      obtain ⟨fs, hfs, h⟩ := map_eq_ok_iff.mp h
      cases h
      exact ⟨v, hfs⟩
    · cases h
    · cases h
  obtain ⟨v, h⟩ := hfiles
  obtain ⟨entries, -, h⟩ := bind_eq_ok_iff.mp h
  cases entries with
  | nil => cases h
  | cons entry entries => exact ⟨entry, entries, h⟩

/-! ### Torrents -/

theorem Made.tiles {m : Torrent} {files : List File} (h : Made m)
    (hlayout : m.info.layout = .multi files) :
    lengthOf files < 2 ^ 64 ∧ files ≠ [] ∧ Tiles 0 files (lengthOf files) := by
  obtain ⟨v, hinfo⟩ := h.exists_infoOf
  obtain ⟨d, -, -, -, -, -, -, hd⟩ := of_infoOf hinfo
  rw [hlayout] at hd
  obtain ⟨entry, entries, hfiles⟩ := exists_of_layoutOf hd
  obtain ⟨stop, hlt, htiles⟩ := tiles_of_filesFrom hfiles
  have hstop : stop = lengthOf files := htiles.stop_eq.trans (Nat.zero_add _)
  refine ⟨hstop ▸ hlt, ?_, hstop ▸ htiles⟩
  rintro rfl
  obtain ⟨f, -, h⟩ := bind_eq_ok_iff.mp hfiles
  obtain ⟨next, -, h⟩ := bind_eq_ok_iff.mp h
  obtain ⟨fs, -, h⟩ := bind_eq_ok_iff.mp h
  cases h

/-- The files of a torrent that was accepted tile its data, up to its total length, which is the sum
of their lengths without a bound, as is every sum on the way to it. -/
theorem files_tile (m : Torrent) (files : List File) (h : Made m)
    (hlayout : m.info.layout = .multi files) :
    (∃ f, files[0]? = some f ∧ f.offset = 0) ∧
    (∀ (i : Nat) (f g : File), files[i]? = some f → files[i + 1]? = some g →
      g.offset.toNat = f.offset.toNat + f.length.toNat) ∧
    (∃ f, files.getLast? = some f ∧
      m.info.totalLength.toNat = f.offset.toNat + f.length.toNat) ∧
    m.info.totalLength.toNat = lengthOf files ∧ lengthOf files < 2 ^ 64 ∧
    (∀ k, ((files.take k).foldl (fun (n : UInt64) (f : File) => n + f.length) 0).toNat =
      lengthOf (files.take k)) ∧
    ∀ x < m.info.totalLength.toNat, ∃! i : Nat, ∃ f, files[i]? = some f ∧ f.Covers x := by
  obtain ⟨hlt, hne, htiles⟩ := h.tiles hlayout
  have hsum (k : Nat) :
      ((files.take k).foldl (fun (n : UInt64) (f : File) => n + f.length) 0).toNat =
        lengthOf (files.take k) := by
    have hsplit := lengthOf_append (files.take k) (files.drop k)
    rw [List.take_append_drop] at hsplit
    have hzero : (0 : UInt64).toNat = 0 := rfl
    rw [toNat_foldl_length (by omega), hzero, Nat.zero_add]
  have htotal : m.info.totalLength.toNat = lengthOf files := by
    have hall := hsum files.length
    rw [List.take_length] at hall
    simp only [Info.totalLength, hlayout, hall]
  rw [htotal]
  refine ⟨?_, fun i f g => htiles.next, ?_, rfl, hlt, hsum,
    fun x => htiles.existsUnique_covers (Nat.zero_le x)⟩
  · cases htiles with
    | nil => exact absurd rfl hne
    | @cons _ _ f fs hoffset _ => exact ⟨f, rfl, UInt64.toNat_inj.mp hoffset⟩
  · exact ⟨files.getLast hne, List.getLast?_eq_some_getLast hne,
      htiles.last (List.getLast?_eq_some_getLast hne)⟩

/-- An empty file between two files of the largest length that there is. -/
theorem files_tile_of_empty :
    let text (s : String) : Value := .bytes (Bytes.ofText s)
    let file (path : String) (length : Int64) : Value := .dict ⟨[(Bytes.ofText "path",
      .list [text path]), (Bytes.ofText "length", .integer length)]⟩
    let large : Int64 := 9223372036854775807
    let info : Dict Value := ⟨[(Bytes.ofText "name", text "n"),
      (Bytes.ofText "piece length", .integer 1), (Bytes.ofText "pieces", text ""),
      (Bytes.ofText "files", .list [file "a" large, file "b" 0, file "c" large])]⟩
    let root : Dict Value :=
      ⟨[(Bytes.ofText "announce", text "a"), (Bytes.ofText "info", .dict info)]⟩
    ∃ m files, ofValue (.dict root) = .ok m ∧ m.info.layout = .multi files ∧
      m.info.totalLength.toNat = 2 ^ 64 - 2 ∧
      ∀ i f, files[i]? = some f → f.Covers (2 ^ 63 - 1) → i = 2 := by
  intro text file large info root
  let files : List File := [⟨["a"], 9223372036854775807, 0⟩, ⟨["b"], 0, 9223372036854775807⟩,
    ⟨["c"], 9223372036854775807, 9223372036854775807⟩]
  have hread : (fun m => m.info.layout) <$> ofValue (.dict root) = .ok (.multi files) := by
    decide +kernel
  obtain ⟨m, hm, hlayout⟩ := map_eq_ok_iff.mp hread
  obtain ⟨-, -, -, htotal, -, -, hcovers⟩ := files_tile m files (.ofValue hm) hlayout
  have hlength : lengthOf files = 2 ^ 64 - 2 := by decide +kernel
  obtain ⟨i, -, hunique⟩ := hcovers (2 ^ 63 - 1) (by omega)
  have htwo : 2 = i := hunique 2 ⟨_, rfl, by decide +kernel, by decide +kernel⟩
  refine ⟨m, files, hm, hlayout, htotal.trans hlength, fun j f hj hf => ?_⟩
  rw [htwo]
  exact hunique j ⟨f, hj, hf⟩

end BitTorrent.Torrent
