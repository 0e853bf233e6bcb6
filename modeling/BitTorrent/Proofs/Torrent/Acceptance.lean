import BitTorrent.Proofs.Torrent.Files

/-! Which values are torrents. A value is accepted exactly if it is a dictionary with an announce
URL and an info whose name, piece length, piece hashes and either length or files have the right
shape. Hashes that do not divide into pieces are refused as such once all that comes before them is
right, and everything else as invalid. No other entry of the root has a part in it, and none of the
info has but for the privacy of the torrent. -/

namespace BitTorrent.Torrent

open Bencode

/-! ### What the entries must be -/

def Named (d : Dict Value) : Prop := ∃ name, d.HasText "name" name

def HasPieceLength (d : Dict Value) : Prop := ∃ n, 0 < n ∧ d.HasNat "piece length" n

/-- An info dictionary that is accepted. -/
structure WellFormedInfo (d : Dict Value) : Prop where
  name : Named d
  pieceLength : HasPieceLength d
  pieces : ∃ hashes, d.HasBytes "pieces" hashes ∧ hashes.length % 20 = 0
  layout : OneFile d ∨ ManyFiles d

def Announced (root : Dict Value) : Prop := ∃ url, url ≠ "" ∧ root.HasText "announce" url

/-- The value is a dictionary with an announce URL and an info dictionary. -/
def HasInfo (v : Value) (d : Dict Value) : Prop :=
  ∃ root, v = .dict root ∧ Announced root ∧ root.get? (Bytes.ofText "info") = some (.dict d)

/-- A value that is accepted as a torrent. -/
def WellFormed (v : Value) : Prop := ∃ d, HasInfo v d ∧ WellFormedInfo d

/-- All is right up to the piece hashes, which have this size and do not divide into pieces. -/
def CorruptPieces (v : Value) (size : Nat) : Prop :=
  ∃ d hashes, HasInfo v d ∧ Named d ∧ HasPieceLength d ∧ d.HasBytes "pieces" hashes ∧
    hashes.length = size ∧ size % 20 ≠ 0

/-! ### The info dictionary -/

section Info

variable {d : Dict Value}

theorem pieceLength_eq_some_iff {w : UInt64} :
    ((d.get? (Bytes.ofText "piece length")).bind word?).filter (· ≠ 0) = some w ↔
      0 < w.toNat ∧ d.HasNat "piece length" w.toNat := by
  rw [Option.filter_eq_some_iff, bind_word?_eq_some_iff, and_comm, decide_eq_true_eq,
    Nat.pos_iff_ne_zero]
  exact and_congr_left' (not_congr UInt64.toNat_inj.symm)

theorem hasPieceLength_iff :
    HasPieceLength d ↔ ∃ w : UInt64, 0 < w.toNat ∧ d.HasNat "piece length" w.toNat := by
  constructor
  · rintro ⟨n, hn, i, hi, hint⟩
    obtain ⟨w, -, rfl⟩ := exists_word?_iff.mpr ⟨i, rfl, hint⟩
    exact ⟨w, hn, i, hi, hint⟩
  · rintro ⟨w, hw, hlength⟩
    exact ⟨w.toNat, hw, hlength⟩

/-- With a name, a piece length and piece hashes, what is left to check are the number of the hashes
and the layout. -/
theorem infoOf_of_head {name : String} {w : UInt64} {hashes : Bytes} (hname : d.HasText "name" name)
    (hw : 0 < w.toNat) (hlength : d.HasNat "piece length" w.toNat)
    (hhashes : d.HasBytes "pieces" hashes) :
    infoOf (some (.dict d)) = (do
      let pieces ← piecesOf hashes
      let layout ← layoutOf d
      return ⟨name, w, pieces, layout,
        (d.get? (Bytes.ofText "private")).bind Value.integer? == some 1⟩) := by
  have hname := Dict.bind_text?_eq_some_iff.mpr hname
  have hlength := pieceLength_eq_some_iff.mpr ⟨hw, hlength⟩
  have hhashes := Dict.bind_bytes?_eq_some_iff.mpr hhashes
  simp only [infoOf, orFlaw, Value.dict?, ok_bind, hname, hlength, hhashes]

theorem exists_infoOf_iff : (∃ info, infoOf (some (.dict d)) = .ok info) ↔ WellFormedInfo d := by
  constructor
  · rintro ⟨info, h⟩
    obtain ⟨d', hashes, hd, hname, hlength, hhashes, hpieces, hlayout⟩ := of_infoOf h
    cases hd
    refine ⟨⟨info.name, Dict.bind_text?_eq_some_iff.mp hname⟩,
      hasPieceLength_iff.mpr ⟨info.pieceLength, pieceLength_eq_some_iff.mp hlength⟩,
      ⟨hashes, Dict.bind_bytes?_eq_some_iff.mp hhashes, ?_⟩,
      exists_layoutOf_iff.mp ⟨info.layout, hlayout⟩⟩
    unfold piecesOf at hpieces
    split at hpieces
    · assumption
    · cases hpieces
  · rintro ⟨⟨name, hname⟩, hlength, ⟨hashes, hhashes, hsize⟩, hlayout⟩
    obtain ⟨w, hw, hlength⟩ := hasPieceLength_iff.mp hlength
    obtain ⟨layout, hlayout⟩ := exists_layoutOf_iff.mpr hlayout
    rw [infoOf_of_head hname hw hlength hhashes, piecesOf, if_pos hsize, ok_bind, hlayout]
    exact ⟨_, rfl⟩

end Info

/-- What is wrong with an info dictionary is a flaw, or that its hashes do not divide into pieces.
-/
theorem of_infoOf_error {v : Option Value} {e : Error} (h : infoOf v = .error e) :
    (∃ f, e = .invalid f) ∨ ∃ d hashes, v = some (.dict d) ∧ Named d ∧ HasPieceLength d ∧
      d.HasBytes "pieces" hashes ∧ hashes.length % 20 ≠ 0 ∧
      e = .corruptPieceList hashes.length := by
  rcases bind_eq_error_iff.mp h with h | ⟨w, hw, h⟩
  · exact .inl (flawsOnly_orFlaw _ _ e h)
  rcases bind_eq_error_iff.mp h with h | ⟨d, hd, h⟩
  · exact .inl (flawsOnly_orFlaw _ _ e h)
  rcases bind_eq_error_iff.mp h with h | ⟨name, hname, h⟩
  · exact .inl (flawsOnly_orFlaw _ _ e h)
  rcases bind_eq_error_iff.mp h with h | ⟨length, hlength, h⟩
  · exact .inl (flawsOnly_orFlaw _ _ e h)
  rcases bind_eq_error_iff.mp h with h | ⟨hashes, hhashes, h⟩
  · exact .inl (flawsOnly_orFlaw _ _ e h)
  rcases bind_eq_error_iff.mp h with h | ⟨pieces, -, h⟩
  · unfold piecesOf at h
    split at h
    · cases h
    · rename_i hsize
      cases h
      rw [orFlaw_eq_ok_iff] at hw hd hname hlength hhashes
      rw [Value.dict?_eq_some_iff] at hd
      exact .inr ⟨d, hashes, by rw [hw, hd], ⟨name, Dict.bind_text?_eq_some_iff.mp hname⟩,
        hasPieceLength_iff.mpr ⟨length, pieceLength_eq_some_iff.mp hlength⟩,
        Dict.bind_bytes?_eq_some_iff.mp hhashes, hsize, rfl⟩
  rcases bind_eq_error_iff.mp h with h | ⟨layout, -, h⟩
  · exact .inl (flawsOnly_layoutOf d e h)
  · cases h

theorem infoOf_of_corrupt {d : Dict Value} {hashes : Bytes} (hname : Named d)
    (hlength : HasPieceLength d) (hhashes : d.HasBytes "pieces" hashes)
    (hsize : hashes.length % 20 ≠ 0) :
    infoOf (some (.dict d)) = .error (.corruptPieceList hashes.length) := by
  obtain ⟨name, hname⟩ := hname
  obtain ⟨w, hw, hlength⟩ := hasPieceLength_iff.mp hlength
  rw [infoOf_of_head hname hw hlength hhashes, piecesOf, if_neg hsize, error_bind]

/-! ### The root -/

theorem announce_eq_some_iff {root : Dict Value} {url : String} :
    ((root.get? (Bytes.ofText "announce")).bind Value.text?).filter (· ≠ "") = some url ↔
      url ≠ "" ∧ root.HasText "announce" url := by
  rw [Option.filter_eq_some_iff, Dict.bind_text?_eq_some_iff, and_comm, decide_eq_true_eq]

theorem HasInfo.unique {v : Value} {d d' : Dict Value} (h : HasInfo v d) (h' : HasInfo v d') :
    d = d' := by
  obtain ⟨root, rfl, -, hinfo⟩ := h
  obtain ⟨root', hroot, -, hinfo'⟩ := h'
  cases hroot
  rw [hinfo] at hinfo'
  exact Value.dict.inj (Option.some.inj hinfo')

/-- With an announce URL and an info dictionary, only the info is left to check. -/
theorem map_info_ofValue {v : Value} {d : Dict Value} (h : HasInfo v d) :
    info <$> ofValue v = infoOf (some (.dict d)) := by
  obtain ⟨root, rfl, ⟨url, hurl⟩, hinfo⟩ := h
  have hannounce := announce_eq_some_iff.mpr hurl
  simp only [ofValue, Value.dict?, orFlaw, ok_bind, hinfo, ofRoot, hannounce]
  cases infoOf (some (.dict d)) <;> rfl

theorem ofValue_of_not_announced {root : Dict Value} {v : Value}
    (hinfo : root.get? (Bytes.ofText "info") = some v) (h : ¬Announced root) :
    ofValue (.dict root) = .error (.invalid .missingAnnounce) := by
  have hannounce :
      ((root.get? (Bytes.ofText "announce")).bind Value.text?).filter (· ≠ "") = none := by
    rw [Option.eq_none_iff_forall_ne_some]
    exact fun url hurl => h ⟨url, announce_eq_some_iff.mp hurl⟩
  simp only [ofValue, Value.dict?, orFlaw, ok_bind, hinfo, ofRoot, hannounce]
  rfl

/-- Without an announce URL or an info dictionary a value is invalid. -/
theorem ofValue_of_not_hasInfo {v : Value} (h : ∀ d, ¬HasInfo v d) :
    ∃ f, ofValue v = .error (.invalid f) := by
  cases v with
  | dict root =>
    cases hinfo : root.get? (Bytes.ofText "info") with
    | none => exact ⟨.missingInfo, by simp only [ofValue, Value.dict?, orFlaw, ok_bind, hinfo]; rfl⟩
    | some v =>
      by_cases hurl : Announced root
      · refine ⟨.infoNotDict, ?_⟩
        obtain ⟨url, hurl'⟩ := hurl
        simp only [ofValue, Value.dict?, orFlaw, ok_bind, hinfo, ofRoot,
          announce_eq_some_iff.mpr hurl', infoOf]
        cases v with
        | dict d => exact absurd ⟨root, rfl, ⟨url, hurl'⟩, hinfo⟩ (h d)
        | _ => rfl
      · exact ⟨_, ofValue_of_not_announced hinfo hurl⟩
  | _ => exact ⟨.rootNotDict, rfl⟩

theorem exists_ofValue_iff (v : Value) : (∃ t, ofValue v = .ok t) ↔ WellFormed v := by
  by_cases hinfo : ∃ d, HasInfo v d
  · obtain ⟨d, hd⟩ := hinfo
    have hwell : WellFormed v ↔ WellFormedInfo d :=
      ⟨fun ⟨_, hd', h⟩ => hd.unique hd' ▸ h, fun h => ⟨d, hd, h⟩⟩
    rw [hwell, ← exists_infoOf_iff, ← map_info_ofValue hd]
    simp only [map_eq_ok_iff]
    exact ⟨fun ⟨t, ht⟩ => ⟨t.info, t, ht, rfl⟩, fun ⟨_, t, ht, _⟩ => ⟨t, ht⟩⟩
  · obtain ⟨f, hf⟩ := ofValue_of_not_hasInfo (not_exists.mp hinfo)
    rw [hf]
    exact iff_of_false nofun fun ⟨d, hd, _⟩ => hinfo ⟨d, hd⟩

theorem of_ofValue_error {v : Value} {e : Error} (h : ofValue v = .error e) :
    (∃ f, e = .invalid f) ∨ ∃ size, CorruptPieces v size ∧ e = .corruptPieceList size := by
  by_cases hinfo : ∃ d, HasInfo v d
  · obtain ⟨d, hd⟩ := hinfo
    have hread : infoOf (some (.dict d)) = .error e := by rw [← map_info_ofValue hd, h, map_error]
    rcases of_infoOf_error hread with hflaw | ⟨d', hashes, hd', hname, hlength, hhashes, hsize, he⟩
    · exact .inl hflaw
    · cases hd'
      exact .inr ⟨_, ⟨d, hashes, hd, hname, hlength, hhashes, rfl, hsize⟩, he⟩
  · obtain ⟨f, hf⟩ := ofValue_of_not_hasInfo (not_exists.mp hinfo)
    rw [hf] at h
    cases h
    exact .inl ⟨f, rfl⟩

theorem ofValue_of_corrupt {v : Value} {size : Nat} (h : CorruptPieces v size) :
    ofValue v = .error (.corruptPieceList size) := by
  obtain ⟨d, hashes, hd, hname, hlength, hhashes, rfl, hsize⟩ := h
  have hread := map_info_ofValue hd
  rwa [infoOf_of_corrupt hname hlength hhashes hsize, map_eq_error_iff] at hread

/-! ### What has no part in it -/

/-- The entries of an info on which it depends whether it is accepted. -/
def required : List String := ["name", "piece length", "pieces", "length", "files"]

/-- The same info with the privacy that a dictionary asks for: only the integer 1 does. -/
def Info.withPrivacyOf (d : Dict Value) (info : Info) : Info :=
  { info with isPrivate := d.get? (Bytes.ofText "private") = some (.integer 1) }

theorem isPrivate_eq (d : Dict Value) :
    ((d.get? (Bytes.ofText "private")).bind Value.integer? == some 1) =
      decide (d.get? (Bytes.ofText "private") = some (.integer 1)) := by
  rw [beq_eq_decide, decide_eq_decide, Option.bind_eq_some_iff]
  simp only [Value.integer?_eq_some_iff, exists_eq_right]

theorem infoOf_eq_map {d d' : Dict Value}
    (h : ∀ key ∈ required, d.get? (Bytes.ofText key) = d'.get? (Bytes.ofText key)) :
    infoOf (some (.dict d)) = Info.withPrivacyOf d <$> infoOf (some (.dict d')) := by
  have hname := h "name" (by decide)
  have hpieceLength := h "piece length" (by decide)
  have hpieces := h "pieces" (by decide)
  have hlength := h "length" (by decide)
  have hfiles := h "files" (by decide)
  have hlayout : layoutOf d = layoutOf d' := by simp only [layoutOf, hlength, hfiles]
  simp only [infoOf, orFlaw, Value.dict?, ok_bind, hname, hpieceLength, hpieces, hlayout,
    isPrivate_eq]
  cases (d'.get? (Bytes.ofText "name")).bind Value.text? with
  | none => rfl
  | some name =>
    cases ((d'.get? (Bytes.ofText "piece length")).bind word?).filter (· ≠ 0) with
    | none => rfl
    | some w =>
      cases (d'.get? (Bytes.ofText "pieces")).bind Value.bytes? with
      | none => rfl
      | some hashes =>
        cases hread : piecesOf hashes with
        | error e => simp only [ok_bind, hread, error_bind, map_error]
        | ok pieces =>
          cases hl : layoutOf d' <;> simp only [ok_bind, hread, error_bind, map_error]
          rfl

section Roots

variable {root root' : Dict Value}

/-- Two roots with the same announce URL and infos with the same required entries. -/
theorem map_info_ofValue_eq_map {d d' : Dict Value}
    (hannounce : root.get? (Bytes.ofText "announce") = root'.get? (Bytes.ofText "announce"))
    (hd : root.get? (Bytes.ofText "info") = some (.dict d))
    (hd' : root'.get? (Bytes.ofText "info") = some (.dict d'))
    (h : ∀ key ∈ required, d.get? (Bytes.ofText key) = d'.get? (Bytes.ofText key)) :
    info <$> ofValue (.dict root) =
      (fun t => t.info.withPrivacyOf d) <$> ofValue (.dict root') := by
  have hsame : Announced root ↔ Announced root' := by
    simp only [Announced, Dict.HasText, Dict.HasBytes, hannounce]
  by_cases hurl : Announced root
  · have hread := map_info_ofValue ⟨root, rfl, hurl, hd⟩
    have hread' := map_info_ofValue ⟨root', rfl, hsame.mp hurl, hd'⟩
    rw [hread, infoOf_eq_map h, ← hread']
    cases ofValue (.dict root') <;> rfl
  · rw [ofValue_of_not_announced hd hurl, ofValue_of_not_announced hd' (mt hsame.mpr hurl)]
    rfl

/-- Two roots with the same announce URL and the same info. -/
theorem map_ofValue_congr
    (hannounce : root.get? (Bytes.ofText "announce") = root'.get? (Bytes.ofText "announce"))
    (hinfo : root.get? (Bytes.ofText "info") = root'.get? (Bytes.ofText "info")) :
    (fun t => (t.info, t.rawInfo, t.infoHash)) <$> ofValue (.dict root) =
      (fun t => (t.info, t.rawInfo, t.infoHash)) <$> ofValue (.dict root') := by
  simp only [ofValue, Value.dict?, orFlaw, ok_bind, hinfo, ofRoot, hannounce]
  cases root'.get? (Bytes.ofText "info") with
  | none => rfl
  | some v =>
    cases ((root'.get? (Bytes.ofText "announce")).bind Value.text?).filter (· ≠ "") with
    | none => rfl
    | some url => cases infoOf (some v) <;> rfl

end Roots

/-- A value is accepted exactly if it is well-formed. Piece hashes of a bad size, once all before
them is right, are refused with this size, and everything else that is refused is invalid. Of the
root only the announce URL and the info matter, for the info and its bytes and hash as well; of the
info only the required entries, but that the torrent is private where `private` is the integer 1.
-/
theorem ofValue_accepts :
    (∀ v, (∃ t, ofValue v = .ok t) ↔ WellFormed v) ∧
    (∀ v size, ofValue v = .error (.corruptPieceList size) ↔ CorruptPieces v size) ∧
    (∀ v e, ofValue v = .error e → (∃ size, e = .corruptPieceList size) ∨ ∃ f, e = .invalid f) ∧
    (∀ root root' : Dict Value,
      root.get? (Bytes.ofText "announce") = root'.get? (Bytes.ofText "announce") →
      root.get? (Bytes.ofText "info") = root'.get? (Bytes.ofText "info") →
      (fun t => (t.info, t.rawInfo, t.infoHash)) <$> ofValue (.dict root) =
        (fun t => (t.info, t.rawInfo, t.infoHash)) <$> ofValue (.dict root')) ∧
    ∀ root root' d d' : Dict Value,
      root.get? (Bytes.ofText "announce") = root'.get? (Bytes.ofText "announce") →
      root.get? (Bytes.ofText "info") = some (.dict d) →
      root'.get? (Bytes.ofText "info") = some (.dict d') →
      (∀ key ∈ required, d.get? (Bytes.ofText key) = d'.get? (Bytes.ofText key)) →
      info <$> ofValue (.dict root) =
        (fun t => t.info.withPrivacyOf d) <$> ofValue (.dict root') := by
  refine ⟨exists_ofValue_iff, fun v size => ⟨?_, ofValue_of_corrupt⟩, ?_,
    fun _ _ => map_ofValue_congr, fun _ _ _ _ => map_info_ofValue_eq_map⟩
  · intro h
    rcases of_ofValue_error h with ⟨f, hf⟩ | ⟨size', hcorrupt, hsize⟩
    · cases hf
    · cases hsize
      exact hcorrupt
  · intro v e h
    rcases of_ofValue_error h with hflaw | ⟨size, -, hsize⟩
    · exact .inr hflaw
    · exact .inl ⟨size, hsize⟩

/-- A torrent of one file in a list, with the privacy as a string or as an integer, with another
entry in the root, and with hashes of three bytes. -/
theorem ofValue_accepts_other_entries :
    let text (s : String) : Value := .bytes (Bytes.ofText s)
    let file : Value := .dict ⟨[(Bytes.ofText "path", .list [text "p"]),
      (Bytes.ofText "length", .integer 2)]⟩
    let d (pieces : String) (privacy : Value) : Dict Value := ⟨[(Bytes.ofText "name", text "n"),
      (Bytes.ofText "private", privacy), (Bytes.ofText "piece length", .integer 1),
      (Bytes.ofText "pieces", text pieces), (Bytes.ofText "files", .list [file])]⟩
    let root (info : Dict Value) : Dict Value := ⟨[(Bytes.ofText "announce", text "a"),
      (Bytes.ofText "info", .dict info)]⟩
    let more : Dict Value := ⟨(Bytes.ofText "nodes", text "") :: (root (d "" (.integer 1))).entries⟩
    (∃ t t' t'', ofValue (.dict (root (d "" (.integer 1)))) = .ok t ∧
      ofValue (.dict (root (d "" (text "1")))) = .ok t' ∧ ofValue (.dict more) = .ok t'' ∧
      t.info = t'.info.withPrivacyOf (d "" (.integer 1)) ∧ t.info.isPrivate ∧ ¬t'.info.isPrivate ∧
      t''.infoHash = t.infoHash) ∧
    WellFormed (.dict more) ∧ CorruptPieces (.dict (root (d "abc" (.integer 1)))) 3 ∧
    ∃ e, ofValue (.dict (root (d "abc" (.integer 1)))) = .error e ∧
      ((∃ size, e = .corruptPieceList size) ∨ ∃ f, e = .invalid f) := by
  intro text file d root more
  obtain ⟨hwell, hcorrupt, herrors, hroot, hinfo⟩ := ofValue_accepts
  have hread : (fun t => t.info.isPrivate) <$> ofValue (.dict (root (d "" (.integer 1)))) =
      .ok true := by
    decide +kernel
  have hread' : (fun t => t.info.isPrivate) <$> ofValue (.dict (root (d "" (text "1")))) =
      .ok false := by
    decide +kernel
  have hthree : ofValue (.dict (root (d "abc" (.integer 1)))) = .error (.corruptPieceList 3) := by
    decide +kernel
  obtain ⟨t, ht, hprivate⟩ := map_eq_ok_iff.mp hread
  obtain ⟨t', ht', hpublic⟩ := map_eq_ok_iff.mp hread'
  have hsame := hinfo (root (d "" (.integer 1))) (root (d "" (text "1"))) (d "" (.integer 1))
    (d "" (text "1")) (by decide +kernel) (by decide +kernel) (by decide +kernel)
    (by decide +kernel)
  have hmore := hroot more (root (d "" (.integer 1))) (by decide +kernel) (by decide +kernel)
  rw [ht, map_ok] at hmore
  obtain ⟨t'', ht'', hentries⟩ := map_eq_ok_iff.mp hmore
  rw [ht, ht', map_ok, map_ok, Except.ok.injEq] at hsame
  refine ⟨⟨t, t', t'', ht, ht', ht'', hsame, hprivate, by simp [hpublic], ?_⟩,
    (hwell _).mp ⟨t'', ht''⟩, (hcorrupt _ 3).mp hthree, _, hthree, herrors _ _ hthree⟩
  exact congrArg (fun p => p.2.2) hentries

end BitTorrent.Torrent
