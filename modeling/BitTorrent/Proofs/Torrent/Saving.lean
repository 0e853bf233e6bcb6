import BitTorrent.Proofs.Bencode.Canonical
import BitTorrent.Proofs.Torrent.Agreement

/-! A torrent that is saved and read again. Its value is the root that it was read from: the piece
hashes, put together again, are the string that they were cut from, and it goes to where it
was. What is saved is read as the same torrent, with the info spelled as it is written, which is
how it was spelled before unless something is dropped. -/

namespace BitTorrent.Torrent

open Bencode

/-- A torrent that was made in one of the three ways there are. -/
inductive Made (m : Torrent) : Prop
  | ofBytes {data : Bytes} : Torrent.ofBytes data = .ok m → Made m
  | ofValue {v : Value} : Torrent.ofValue v = .ok m → Made m
  | ofFile {path : String} {content : Except Fault Bytes} :
    (Torrent.ofFile path content).1 = .ok m → Made m

/-! ### The value of a torrent -/

theorem flatMap_of_piecesOf {hashes : Bytes} {pieces : List (Octets 20)}
    (h : piecesOf hashes = .ok pieces) : pieces.flatMap Octets.toList = hashes := by
  unfold piecesOf at h
  split at h
  · cases h
    exact flatMap_records ‹_›
  · cases h

/-- An info that is accepted is a dictionary with the piece hashes in one string. -/
theorem exists_of_infoOf {v : Option Value} {info : Info} (h : infoOf v = .ok info) :
    ∃ d, v = some (.dict d) ∧
      d.get? (Bytes.ofText "pieces") = some (.bytes (info.pieces.flatMap Octets.toList)) := by
  obtain ⟨d, hashes, hv, -, -, hhashes, hpieces, -⟩ := of_infoOf h
  obtain ⟨p, hp, hhashes⟩ := Option.bind_eq_some_iff.mp hhashes
  cases p <;> cases hhashes
  rw [flatMap_of_piecesOf hpieces]
  exact ⟨d, hv, hp⟩

theorem toValue_of_ofRoot {root : Dict Value} {raw : Bytes} {m : Torrent}
    (h : ofRoot root raw = .ok m) :
    m.toValue = .dict m.root ∧ ∃ d, m.root.get? (Bytes.ofText "info") = some (.dict d) ∧
      d.get? (Bytes.ofText "pieces") = some (.bytes (m.info.pieces.flatMap Octets.toList)) := by
  obtain ⟨rfl, -, -, hinfo⟩ := of_ofRoot h
  obtain ⟨d, hd, hpieces⟩ := exists_of_infoOf hinfo
  refine ⟨?_, d, hd, hpieces⟩
  unfold toValue
  dsimp only
  rw [hd, Option.bind_some, Value.dict?, Option.getD_some, Dict.insert_of_get? hpieces,
    Dict.insert_of_get? hd]

/-- A file that is accepted decodes to the root that the torrent was read from. -/
theorem ofRoot_of_ofBytes {data : Bytes} {m : Torrent} (h : ofBytes data = .ok m) :
    decode data = .ok (.dict m.root) ∧ ofRoot m.root m.rawInfo = .ok m := by
  obtain ⟨-, hdata, -⟩ := of_ofBytes h
  refine ⟨hdata, ?_⟩
  rcases ofBytes_cases hdata with ⟨f, hf, -⟩ | ⟨root, raw, info, hroot, -, -, hbytes, -⟩
  · rw [h] at hf
    cases hf
  · cases hroot
    rw [h] at hbytes
    obtain ⟨-, hraw, -⟩ := of_ofRoot hbytes.symm
    rw [hraw]
    exact hbytes.symm

theorem ofBytes_of_ofFile {path : String} {content : Except Fault Bytes} {m : Torrent}
    (h : (ofFile path content).1 = .ok m) : ∃ data, ofBytes data = .ok m := by
  cases content with
  | error f => cases h
  | ok data =>
    cases hdata : ofBytes data with
    | error e => simp [ofFile, hdata] at h
    | ok t =>
      obtain rfl : t = m := by simpa [ofFile, hdata] using h
      exact ⟨data, hdata⟩

/-- However a torrent was made, it was read from a root. -/
theorem Made.exists_ofRoot {m : Torrent} (h : Made m) : ∃ root raw, ofRoot root raw = .ok m := by
  cases h with
  | ofBytes h => exact ⟨m.root, m.rawInfo, (ofRoot_of_ofBytes h).2⟩
  | ofValue h =>
    obtain ⟨root, -, h⟩ := bind_eq_ok_iff.mp h
    obtain ⟨info, -, h⟩ := bind_eq_ok_iff.mp h
    exact ⟨root, encode info, h⟩
  | ofFile h =>
    obtain ⟨data, hdata⟩ := ofBytes_of_ofFile h
    exact ⟨m.root, m.rawInfo, (ofRoot_of_ofBytes hdata).2⟩

theorem Made.exists_infoOf {m : Torrent} (h : Made m) : ∃ v, infoOf v = .ok m.info := by
  obtain ⟨root, raw, hroot⟩ := h.exists_ofRoot
  obtain ⟨-, -, -, hinfo⟩ := of_ofRoot hroot
  exact ⟨_, hinfo⟩

/-! ### Reading again -/

theorem toBytes_of_ofBytes {data : Bytes} {m : Torrent} (h : ofBytes data = .ok m) :
    m.toBytes = encode (.dict m.root) := by
  rw [toBytes, (toValue_of_ofRoot (ofRoot_of_ofBytes h).2).1]

/-- Other bytes with the same root are accepted too, with the same entries. -/
theorem exists_sameEntries {data data' : Bytes} {m : Torrent} (h : ofBytes data = .ok m)
    (hdata' : decode data' = .ok (.dict m.root)) :
    ∃ m', ofBytes data' = .ok m' ∧ SameEntries m' m := by
  obtain ⟨hdata, hroot⟩ := ofRoot_of_ofBytes h
  obtain ⟨m', h'⟩ := (exists_ofBytes_iff hdata').mpr ((exists_ofBytes_iff hdata).mp ⟨m, h⟩)
  obtain ⟨hagain, hroot'⟩ := ofRoot_of_ofBytes h'
  have hsame : m'.root = m.root := by
    rw [hdata'] at hagain
    exact (Value.dict.inj (Except.ok.inj hagain)).symm
  rw [hsame] at hroot'
  exact ⟨m', h', sameEntries_of_ofRoot hroot' hroot⟩

/-- In what is written for a root the info is spelled as it is written for itself. -/
theorem rawInfo_of_ofBytes_encode {root : Dict Value} {m : Torrent} {info : Value}
    (hroot : decode (encode (.dict root)) = .ok (.dict root))
    (hinfo : root.get? (Bytes.ofText "info") = some info)
    (h : ofBytes (encode (.dict root)) = .ok m) : m.rawInfo = encode info := by
  obtain ⟨hlast, v, hv, hget, -⟩ := rawInfo_of_ofBytes h
  obtain ⟨hagain, -⟩ := ofRoot_of_ofBytes h
  rw [hroot] at hagain
  cases hagain
  rw [hinfo] at hget
  cases hget
  exact (hlast.encode_eq hroot rfl hv).symm

/-- The value of a torrent is the root that it was read from, however it was made: in its info the
piece hashes are the string that they make together. A file that is accepted is saved as
bytes that are accepted, with the same entries, and saved as the same bytes again. The info is then
spelled as its dictionary is written, and this is the spelling that it had exactly if that
repeated no key and had no superfluous zero in the length of a string. -/
theorem ofBytes_toBytes :
    (∀ m : Torrent, Made m → m.toValue = .dict m.root ∧
      ∃ d, m.root.get? (Bytes.ofText "info") = some (.dict d) ∧
        d.get? (Bytes.ofText "pieces") = some (.bytes (m.info.pieces.flatMap Octets.toList))) ∧
    ∀ (data : Bytes) (m : Torrent), ofBytes data = .ok m → ∃ d m₂,
      m.root.get? (Bytes.ofText "info") = some (.dict d) ∧ ofBytes m.toBytes = .ok m₂ ∧
        SameEntries m₂ m ∧ m₂.rawInfo = encode (.dict d) ∧ m₂.toBytes = m.toBytes ∧
        LastValue data (Bytes.ofText "info") m.rawInfo ∧
        (∃ t : ParseTree, t.text = m.rawInfo) ∧
        ∀ t : ParseTree, t.text = m.rawInfo →
          (m₂.rawInfo = m.rawInfo ↔ t.NoRepeat ∧ t.PlainLengths) := by
  constructor
  · intro m h
    obtain ⟨root, raw, hroot⟩ := h.exists_ofRoot
    exact toValue_of_ofRoot hroot
  · intro data m h
    obtain ⟨hdata, hroot⟩ := ofRoot_of_ofBytes h
    obtain ⟨-, d, hd, -⟩ := toValue_of_ofRoot hroot
    have hagain := decode_encode_of_decode hdata
    obtain ⟨m₂, h₂, hsame⟩ := exists_sameEntries h hagain
    have hraw₂ := rawInfo_of_ofBytes_encode hagain hd h₂
    obtain ⟨hlast, v, hv, hget, -⟩ := rawInfo_of_ofBytes h
    obtain rfl : Value.dict d = v := Option.some.inj (hd.symm.trans hget)
    refine ⟨d, m₂, hd, ?_, hsame, hraw₂, ?_, hlast, ?_, ?_⟩
    · rw [toBytes_of_ofBytes h, h₂]
    · rw [toBytes_of_ofBytes h, toBytes_of_ofBytes h₂, hsame.root]
    · obtain ⟨t, ht, -⟩ := exists_of_decode rfl hv
      exact ⟨t, ht⟩
    · intro t ht
      rw [← ht] at hv
      rw [hraw₂, ← ParseTree.value_of_decode hv, ← ht]
      exact t.encode_value_eq_text_iff

/-- In the info a key comes twice, and the length of the piece hashes has a superfluous zero. -/
theorem ofBytes_toBytes_of_repeated :
    let info := Bytes.ofText
      "d6:lengthi2e4:name1:n6:lengthi1e12:piece lengthi1e6:pieces020:abcdefghijklmnopqrste"
    let written := Bytes.ofText
      "d6:lengthi1e4:name1:n12:piece lengthi1e6:pieces20:abcdefghijklmnopqrste"
    let data := Bytes.ofText "d4:info" ++ info ++ Bytes.ofText "8:announce1:ae"
    ∃ m m₂, ofBytes data = .ok m ∧ m.toValue = .dict m.root ∧ ofBytes m.toBytes = .ok m₂ ∧
      SameEntries m₂ m ∧ m.rawInfo = info ∧ m₂.rawInfo = written ∧ m₂.toBytes = m.toBytes ∧
      ∃ t : ParseTree, t.text = info ∧ ¬(t.NoRepeat ∧ t.PlainLengths) := by
  intro info written data
  have hraw : rawInfo <$> ofBytes data = .ok info := by decide +kernel
  have hraw₂ : (fun m => (ofBytes m.toBytes).toOption.map rawInfo) <$> ofBytes data =
      .ok (some written) := by decide +kernel
  obtain ⟨m, hm, hmraw⟩ := map_eq_ok_iff.mp hraw
  rw [hm, map_ok, Except.ok.injEq] at hraw₂
  obtain ⟨hvalue, hread⟩ := ofBytes_toBytes
  obtain ⟨d, m₂, -, hm₂, hsame, -, hbytes, -, ⟨t, ht⟩, hiff⟩ := hread data m hm
  have hwritten : m₂.rawInfo = written := by simpa [hm₂, Except.toOption] using hraw₂
  have hne : written ≠ info := by decide +kernel
  refine ⟨m, m₂, hm, (hvalue m (.ofBytes hm)).1, hm₂, hsame, hmraw, hwritten, hbytes, t, ?_, ?_⟩
  · rw [ht, hmraw]
  · intro hplain
    have hsameInfo := (hiff t ht).mpr hplain
    rw [hwritten, hmraw] at hsameInfo
    exact hne hsameInfo

end BitTorrent.Torrent
