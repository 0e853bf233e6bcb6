import BitTorrent.Proofs.Bencode.Lookup
import BitTorrent.Torrent

/-! The bytes that a torrent file is hashed over. They are found by a walk over the file and
the info dictionary by decoding it, but both come to the value of the last `info` key: the
bytes are the ones that decode to the dictionary that was checked. So they alone, and
nothing around them, make the info and its hash. -/

namespace BitTorrent.Torrent

open Bencode

theorem orFlaw_eq_ok_iff {α : Type} {f : Flaw} {o : Option α} {a : α} :
    orFlaw f o = .ok a ↔ o = some a := by
  cases o <;> simp [orFlaw]

/-! ### What reading a file comes to -/

/-- The entries of an info dictionary that is accepted. -/
theorem of_infoOf {v : Option Value} {info : Info} (h : infoOf v = .ok info) :
    ∃ d hashes, v = some (.dict d) ∧
      (d.get? (Bytes.ofText "name")).bind Value.text? = some info.name ∧
      ((d.get? (Bytes.ofText "piece length")).bind word?).filter (· ≠ 0) = some info.pieceLength ∧
      (d.get? (Bytes.ofText "pieces")).bind Value.bytes? = some hashes ∧
      piecesOf hashes = .ok info.pieces ∧ layoutOf d = .ok info.layout := by
  obtain ⟨w, hw, h⟩ := bind_eq_ok_iff.mp h
  obtain ⟨d, hd, h⟩ := bind_eq_ok_iff.mp h
  obtain ⟨name, hname, h⟩ := bind_eq_ok_iff.mp h
  obtain ⟨pieceLength, hlength, h⟩ := bind_eq_ok_iff.mp h
  obtain ⟨hashes, hhashes, h⟩ := bind_eq_ok_iff.mp h
  obtain ⟨pieces, hpieces, h⟩ := bind_eq_ok_iff.mp h
  obtain ⟨layout, hlayout, h⟩ := bind_eq_ok_iff.mp h
  cases h
  rw [orFlaw_eq_ok_iff] at hw hd hname hlength hhashes
  cases w <;> cases hd
  exact ⟨d, hashes, hw, hname, hlength, hhashes, hpieces, hlayout⟩

theorem of_ofRoot {root : Dict Value} {rawInfo : Bytes} {m : Torrent}
    (h : ofRoot root rawInfo = .ok m) :
    m.root = root ∧ m.rawInfo = rawInfo ∧ m.infoHash = .ofInfo rawInfo ∧
      infoOf (root.get? (Bytes.ofText "info")) = .ok m.info := by
  obtain ⟨announce, -, h⟩ := bind_eq_ok_iff.mp h
  obtain ⟨info, hinfo, h⟩ := bind_eq_ok_iff.mp h
  cases h
  exact ⟨rfl, rfl, rfl, hinfo⟩

theorem of_ofBytes {data : Bytes} {m : Torrent} (h : ofBytes data = .ok m) :
    ∃ span, decode data = .ok (.dict m.root) ∧
      spanOf data (Bytes.ofText "info") = .ok (some span) ∧ m.rawInfo = span.of data ∧
      m.infoHash = .ofInfo m.rawInfo ∧
      infoOf (m.root.get? (Bytes.ofText "info")) = .ok m.info := by
  obtain ⟨v, hv, h⟩ := bind_eq_ok_iff.mp h
  obtain ⟨root, hroot, h⟩ := bind_eq_ok_iff.mp h
  obtain ⟨found, hfound, h⟩ := bind_eq_ok_iff.mp h
  obtain ⟨span, hspan, h⟩ := bind_eq_ok_iff.mp h
  rw [mapError_eq_ok_iff] at hv hfound
  rw [orFlaw_eq_ok_iff] at hroot hspan
  subst hspan
  obtain ⟨hr, hraw, hhash, hinfo⟩ := of_ofRoot h
  cases v with
  | dict d =>
    obtain rfl : d = root := Option.some.inj hroot
    exact ⟨span, hr ▸ hv, hfound, hraw, hraw ▸ hhash, hr ▸ hinfo⟩
  | _ => cases hroot

/-! ### One value, two walks -/

/-- The raw info of an accepted file decodes to the value that was checked. -/
theorem rawInfo_of_ofBytes {data : Bytes} {m : Torrent} (h : ofBytes data = .ok m) :
    LastValue data (Bytes.ofText "info") m.rawInfo ∧
      ∃ v, decode m.rawInfo = .ok v ∧ m.root.get? (Bytes.ofText "info") = some v ∧
        infoOf (some v) = .ok m.info := by
  obtain ⟨span, hdata, hspan, hraw, -, hinfo⟩ := of_ofBytes h
  obtain ⟨hlast, v, hget, hv⟩ := of_spanOf hdata hspan
  rw [hraw]
  rw [hget] at hinfo
  exact ⟨hlast.lastValue, v, hv, hget, hinfo⟩

/-- The raw info of an accepted file is the slice of it that is the value of its last `info`
key; it decodes to the value that the root holds under that key, which is the one that is
checked, and it is what is hashed. Two accepted files with the same bytes there have the
same info and the same hash. -/
theorem rawInfo_determines_info :
    (∀ (data : Bytes) (m : Torrent), ofBytes data = .ok m →
      decode data = .ok (.dict m.root) ∧ LastValue data (Bytes.ofText "info") m.rawInfo ∧
        (∃ v, decode m.rawInfo = .ok v ∧ m.root.get? (Bytes.ofText "info") = some v ∧
          infoOf (some v) = .ok m.info) ∧
        m.infoHash.octets = Sha1.digest m.rawInfo) ∧
    ∀ (data data' raw : Bytes) (m m' : Torrent), ofBytes data = .ok m → ofBytes data' = .ok m' →
      LastValue data (Bytes.ofText "info") raw → LastValue data' (Bytes.ofText "info") raw →
      m.info = m'.info ∧ m.rawInfo = m'.rawInfo ∧ m.infoHash = m'.infoHash := by
  have hhash : ∀ (data : Bytes) (m : Torrent), ofBytes data = .ok m →
      m.infoHash = .ofInfo m.rawInfo := by
    intro data m h
    obtain ⟨-, -, -, -, hhash, -⟩ := of_ofBytes h
    exact hhash
  constructor
  · intro data m h
    obtain ⟨-, hdata, -⟩ := of_ofBytes h
    obtain ⟨hlast, hvalue⟩ := rawInfo_of_ofBytes h
    exact ⟨hdata, hlast, hvalue, congrArg InfoHash.octets (hhash data m h)⟩
  · intro data data' raw m m' h h' hraw hraw'
    obtain ⟨hlast, v, hv, -, hinfo⟩ := rawInfo_of_ofBytes h
    obtain ⟨hlast', v', hv', -, hinfo'⟩ := rawInfo_of_ofBytes h'
    have hbytes : m.rawInfo = m'.rawInfo := (hlast.unique hraw).trans (hlast'.unique hraw').symm
    have hsame : v = v' := by
      rw [hbytes, hv'] at hv
      exact (Except.ok.inj hv).symm
    subst hsame
    refine ⟨?_, hbytes, ?_⟩
    · exact Except.ok.inj (hinfo.symm.trans hinfo')
    · rw [hhash data m h, hhash data' m' h', hbytes]

/-- A file whose first `info` is not a dictionary has the info of a file with the last one alone. -/
theorem rawInfo_determines_info_of_repeated :
    let info := Bytes.ofText "d6:lengthi1e4:name1:n12:piece lengthi1e6:pieces0:e"
    let once := Bytes.ofText "d8:announce1:a4:info" ++ info ++ Bytes.ofText "e"
    let repeated := Bytes.ofText "d4:infoi0e8:announce1:b4:info" ++ info ++ Bytes.ofText "e"
    ∃ m m', ofBytes once = .ok m ∧ ofBytes repeated = .ok m' ∧ m.rawInfo = info ∧
      m.info = m'.info ∧ m.rawInfo = m'.rawInfo ∧ m.infoHash = m'.infoHash := by
  intro info once repeated
  have honce : (Torrent.rawInfo <$> ofBytes once).toOption = some info := by decide +kernel
  have hrepeated : (Torrent.rawInfo <$> ofBytes repeated).toOption = some info := by decide +kernel
  cases hm : ofBytes once with
  | error e => simp [hm, Except.toOption] at honce
  | ok m =>
    cases hm' : ofBytes repeated with
    | error e => simp [hm', Except.toOption] at hrepeated
    | ok m' =>
      have hraw : m.rawInfo = info := by simpa [hm, Except.toOption] using honce
      have hraw' : m'.rawInfo = info := by simpa [hm', Except.toOption] using hrepeated
      obtain ⟨hread, hsame⟩ := rawInfo_determines_info
      have hlast := (hread once m hm).2.1
      have hlast' := (hread repeated m' hm').2.1
      rw [hraw] at hlast
      rw [hraw'] at hlast'
      exact ⟨m, m', rfl, rfl, hraw, hsame once repeated info m m' hm hm' hlast hlast'⟩

end BitTorrent.Torrent
