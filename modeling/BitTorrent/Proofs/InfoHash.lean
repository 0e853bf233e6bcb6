import BitTorrent.InfoHash
import BitTorrent.Proofs.Bytes.Hex

/-! Info hashes as text: forty hexadecimal digits, which are read in either case and written in
lower case. -/

namespace BitTorrent.InfoHash

variable {s : String} {h : InfoHash}

theorem ofBytes_eq_ok_iff {bs : Bytes} : ofBytes bs = .ok h ↔ bs = h.bytes := by
  rw [bytes, ← Octets.ofBytes?_eq_some_iff]
  cases ho : Octets.ofBytes? 20 bs with
  | none => simp [ofBytes, ho]
  | some o =>
    simp only [ofBytes, ho, Except.ok.injEq, Option.some.injEq]
    exact ⟨fun heq => congrArg octets heq, fun heq => congrArg mk heq⟩

/-- A hash is read from the digits of its bytes. -/
theorem ofHex_eq_ok_iff : ofHex s = .ok h ↔ Hex.decodeChars? s.toList = some h.bytes := by
  cases hread : Hex.decode? s with
  | none => simp [ofHex, hread, show Hex.decodeChars? s.toList = none from hread]
  | some bs =>
    simp [ofHex, hread, show Hex.decodeChars? s.toList = some bs from hread, ofBytes_eq_ok_iff]

theorem toList_hex (h : InfoHash) : h.hex.toList = h.bytes.flatMap Hex.ofByte :=
  String.toList_ofList

theorem length_bytes (h : InfoHash) : h.bytes.length = 20 := h.octets.length_toList

theorem eq_invalidInfoHash_of_ofHex {e : Torrent.Error} (he : ofHex s = .error e) :
    e = .invalidInfoHash := by
  unfold ofHex ofBytes at he
  split at he
  · split at he
    · cases he
    · cases he
      rfl
  · cases he
    rfl

/-- A text is read as a hash exactly if it is forty hexadecimal digits, of either case; any other
is refused as no info hash. The hash is written as the text in lower case, and its bytes are those
of the number that the text writes in base sixteen. What is written for a hash is read as that
hash. -/
theorem ofHex_reads_digits (s : String) :
    ((∃ h, ofHex s = .ok h) ↔ s.length = 40 ∧ ∀ c ∈ s.toList, Hex.IsDigit c) ∧
    (∀ e, ofHex s = .error e → e = .invalidInfoHash) ∧
    (∀ h, ofHex s = .ok h → h.hex = s.toLower ∧ BigEndian.decode h.bytes = Hex.number s.toList) ∧
    ∀ h : InfoHash, ofHex h.hex = .ok h := by
  refine ⟨⟨?_, ?_⟩, ?_, ?_, ?_⟩
  · rintro ⟨h, hread⟩
    have hdigits := ofHex_eq_ok_iff.mp hread
    obtain ⟨-, hall⟩ := Hex.exists_decodeChars?_iff.mp ⟨_, hdigits⟩
    have hlen := congrArg List.length (Hex.decodeChars?_eq_some_iff.mp hdigits)
    rw [List.length_map, Hex.length_flatMap_ofByte, length_bytes, String.length_toList] at hlen
    exact ⟨hlen, hall⟩
  · rintro ⟨hlen, hall⟩
    rw [← String.length_toList] at hlen
    obtain ⟨bs, hbs⟩ := Hex.exists_decodeChars?_iff.mpr ⟨by omega, hall⟩
    have hbytes := congrArg List.length (Hex.decodeChars?_eq_some_iff.mp hbs)
    rw [List.length_map, Hex.length_flatMap_ofByte, hlen] at hbytes
    exact ⟨⟨⟨bs, by omega⟩⟩, ofHex_eq_ok_iff.mpr hbs⟩
  · exact fun e he => eq_invalidInfoHash_of_ofHex he
  · intro h hread
    have hdigits := ofHex_eq_ok_iff.mp hread
    have hlower : s.toLower.toList = s.toList.map Char.toLower := String.toList_map
    refine ⟨?_, (Hex.number_of_decodeChars? hdigits).symm⟩
    rw [← String.toList_inj, toList_hex, hlower]
    exact (Hex.decodeChars?_eq_some_iff.mp hdigits).symm
  · intro h
    rw [ofHex_eq_ok_iff, toList_hex, Hex.decodeChars?_eq_some_iff]
    exact Hex.map_toLower_flatMap_ofByte h.bytes

/-- Digits of both cases, and a text of forty bytes that has one character less. -/
theorem ofHex_reads_digits_of_mixed_case :
    (∃ h, ofHex "0123456789ABCDEFaBcDeF0123456789DEADbeef" = .ok h ∧
      h.hex = "0123456789abcdefabcdef0123456789deadbeef") ∧
    ∀ h, ofHex "0123456789abcdefabcdef0123456789deadbeé" ≠ .ok h := by
  obtain ⟨hread, -, hlower, -⟩ := ofHex_reads_digits "0123456789ABCDEFaBcDeF0123456789DEADbeef"
  have hall : "0123456789ABCDEFaBcDeF0123456789DEADbeef".toList.all fun c => Hex.IsDigit c := by
    decide +kernel
  obtain ⟨h, hh⟩ := hread.mpr ⟨by decide +kernel, by simpa using List.all_eq_true.mp hall⟩
  refine ⟨⟨h, hh, (hlower h hh).1.trans (by decide +kernel)⟩, fun h' hh' => ?_⟩
  obtain ⟨hlen, -⟩ := (ofHex_reads_digits _).1.mp ⟨h', hh'⟩
  revert hlen
  decide +kernel

end BitTorrent.InfoHash
