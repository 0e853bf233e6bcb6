import BitTorrent.Proofs.Torrent.InfoBytes

/-! A torrent read from a file and the one built from the decoded file. The walk to the info bytes
never fails on a file that decodes, and it misses them exactly if the decoded root has no info,
so both ways refuse the same files for the same reasons. What they build differs at most in the
info bytes, and in their hash, where the file spells the info in another way than it is written. -/

namespace BitTorrent.Torrent

open Bencode

/-- The same torrent with other bytes for its info. -/
def withRawInfo (t : Torrent) (rawInfo : Bytes) : Torrent :=
  { t with rawInfo, infoHash := .ofInfo rawInfo }

/-- Two torrents that differ at most in the bytes of the info and in their hash. -/
structure SameEntries (t t' : Torrent) : Prop where
  root : t.root = t'.root
  info : t.info = t'.info
  announce : t.announce = t'.announce
  announceList : t.announceList = t'.announceList
  httpSeeds : t.httpSeeds = t'.httpSeeds
  nodes : t.nodes = t'.nodes
  creationDate : t.creationDate = t'.creationDate
  comment : t.comment = t'.comment
  createdBy : t.createdBy = t'.createdBy

theorem sameEntries_withRawInfo (t : Torrent) (rawInfo : Bytes) :
    SameEntries (t.withRawInfo rawInfo) t := by
  constructor <;> rfl

/-- Whether a root is accepted and what is read from it does not depend on the info bytes. -/
theorem ofRoot_eq_map (root : Dict Value) (raw raw' : Bytes) :
    ofRoot root raw = (fun t => t.withRawInfo raw) <$> ofRoot root raw' := by
  unfold ofRoot
  dsimp only
  cases orFlaw .missingAnnounce
      (((root.get? (Bytes.ofText "announce")).bind Value.text?).filter (· ≠ "")) with
  | error e => rfl
  | ok announce =>
    cases infoOf (root.get? (Bytes.ofText "info")) with
    | error e => rfl
    | ok info => rfl

theorem sameEntries_of_ofRoot {root : Dict Value} {raw raw' : Bytes} {t t' : Torrent}
    (h : ofRoot root raw = .ok t) (h' : ofRoot root raw' = .ok t') : SameEntries t t' := by
  rw [ofRoot_eq_map root raw raw', h'] at h
  cases h
  exact sameEntries_withRawInfo t' raw

theorem ofRoot_eq_error_iff (root : Dict Value) (raw raw' : Bytes) (e : Error) :
    ofRoot root raw = .error e ↔ ofRoot root raw' = .error e := by
  rw [ofRoot_eq_map root raw raw']
  cases ofRoot root raw' <;> simp

/-! ### The two ways -/

/-- A file that decodes is refused both ways for one flaw, or its root is read both ways, with the
bytes of its last info and with what is written for the value of the info. -/
theorem ofBytes_cases {data : Bytes} {v : Value} (h : decode data = .ok v) :
    (∃ f, ofBytes data = .error (.invalid f) ∧ ofValue v = .error (.invalid f)) ∨
      ∃ root raw info, v = .dict root ∧ root.get? (Bytes.ofText "info") = some info ∧
        LastValue data (Bytes.ofText "info") raw ∧ ofBytes data = ofRoot root raw ∧
        ofValue v = ofRoot root (encode info) := by
  cases v with
  | dict root =>
    rcases spanOf_cases h (Bytes.ofText "info") with
      ⟨hspan, hget⟩ | ⟨span, info, hspan, hlast, hget, -⟩
    · refine .inl ⟨.missingInfo, ?_, ?_⟩
      · rw [ofBytes, h]
        simp only [mapError_ok, ok_bind, Value.dict?, orFlaw, hspan]
        rfl
      · simp only [ofValue, Value.dict?, orFlaw, ok_bind, hget]
        rfl
    · refine .inr ⟨root, span.of data, info, rfl, hget, hlast.lastValue, ?_, ?_⟩
      · rw [ofBytes, h]
        simp only [mapError_ok, ok_bind, Value.dict?, orFlaw, hspan]
      · simp only [ofValue, Value.dict?, orFlaw, ok_bind, hget]
  | _ =>
    refine .inl ⟨.rootNotDict, ?_, rfl⟩
    rw [ofBytes, h]
    rfl

theorem ofBytes_eq_error_iff {data : Bytes} {v : Value} (h : decode data = .ok v) (e : Error) :
    ofBytes data = .error e ↔ ofValue v = .error e := by
  rcases ofBytes_cases h with ⟨f, hf, hf'⟩ | ⟨root, raw, info, -, -, -, hbytes, hvalue⟩
  · rw [hf, hf']
  · rw [hbytes, hvalue]
    exact ofRoot_eq_error_iff root raw (encode info) e

theorem exists_ofBytes_iff {data : Bytes} {v : Value} (h : decode data = .ok v) :
    (∃ t, ofBytes data = .ok t) ↔ ∃ t', ofValue v = .ok t' := by
  rw [exists_eq_ok_iff, exists_eq_ok_iff]
  exact forall_congr' fun e => not_congr (ofBytes_eq_error_iff h e)

theorem ofBytes_of_decode_error {data : Bytes} {e : Bencode.Error} (h : decode data = .error e) :
    ofBytes data = .error (.bencode e) := by
  rw [ofBytes, h]
  rfl

/-- Files are accepted if they decode and their value is accepted, and refused with the error of
decoding or of the value; the walk to the info never fails. The torrent of an accepted file is that
of its value, up to the info bytes and their hash, and these are the same if the file
spells the info as it is written. -/
theorem ofBytes_agrees_ofValue (data : Bytes) :
    ((∃ t, ofBytes data = .ok t) ↔ ∃ v t', decode data = .ok v ∧ ofValue v = .ok t') ∧
    (∀ e, decode data = .error e → ofBytes data = .error (.bencode e)) ∧
    ∀ v, decode data = .ok v →
      (∀ e, ofBytes data = .error e ↔ ofValue v = .error e) ∧
      (∀ root, v = .dict root → ∃ found, spanOf data (Bytes.ofText "info") = .ok found) ∧
      ∀ t t', ofBytes data = .ok t → ofValue v = .ok t' →
        SameEntries t t' ∧ ∃ raw info, LastValue data (Bytes.ofText "info") raw ∧
          v.get? (Bytes.ofText "info") = some info ∧
          (t.rawInfo = t'.rawInfo ↔ raw = encode info) ∧
          (t.rawInfo = t'.rawInfo → t.infoHash = t'.infoHash) := by
  refine ⟨?_, fun e => ofBytes_of_decode_error, ?_⟩
  · cases hdata : decode data with
    | error e => simp [ofBytes_of_decode_error hdata]
    | ok v => simpa using exists_ofBytes_iff hdata
  · intro v hv
    refine ⟨ofBytes_eq_error_iff hv, ?_, ?_⟩
    · rintro root rfl
      rcases spanOf_cases hv (Bytes.ofText "info") with ⟨hnone, -⟩ | ⟨span, -, hsome, -⟩
      · exact ⟨none, hnone⟩
      · exact ⟨some span, hsome⟩
    · intro t t' ht ht'
      rcases ofBytes_cases hv with ⟨f, hf, -⟩ | ⟨root, raw, info, rfl, hget, hlast, hbytes, hvalue⟩
      · rw [hf] at ht
        cases ht
      · rw [hbytes] at ht
        rw [hvalue] at ht'
        obtain ⟨-, hraw, hhash, -⟩ := of_ofRoot ht
        obtain ⟨-, hraw', hhash', -⟩ := of_ofRoot ht'
        refine ⟨sameEntries_of_ofRoot ht ht', raw, info, hlast, hget, ?_, ?_⟩
        · rw [hraw, hraw']
        · intro hsame
          rw [hraw, hraw'] at hsame
          rw [hhash, hhash', hsame]

/-- A file in which the length of a string has a superfluous zero has another raw info than its
value. -/
theorem ofBytes_agrees_ofValue_of_leading_zero :
    let info := Bytes.ofText "d6:lengthi1e4:name1:n12:piece lengthi1e6:pieces00:e"
    let data := Bytes.ofText "d8:announce1:a4:info" ++ info ++ Bytes.ofText "e"
    ∃ v t t', decode data = .ok v ∧ ofBytes data = .ok t ∧ ofValue v = .ok t' ∧ SameEntries t t' ∧
      t.rawInfo = info ∧ t'.rawInfo ≠ info := by
  intro info data
  have hraw : (rawInfo <$> ofBytes data) = .ok info := by decide +kernel
  have hraw' : (rawInfo <$> ((decode data).mapError .bencode >>= ofValue)) =
      .ok (Bytes.ofText "d6:lengthi1e4:name1:n12:piece lengthi1e6:pieces0:e") := by decide +kernel
  obtain ⟨t, ht, htraw⟩ := map_eq_ok_iff.mp hraw
  obtain ⟨t', hboth, htraw'⟩ := map_eq_ok_iff.mp hraw'
  obtain ⟨v, hv, ht'⟩ := bind_eq_ok_iff.mp hboth
  rw [mapError_eq_ok_iff] at hv
  obtain ⟨-, -, hagree⟩ := ofBytes_agrees_ofValue data
  obtain ⟨-, -, hsame⟩ := hagree v hv
  refine ⟨v, t, t', hv, ht, ht', (hsame t t' ht ht').1, htraw, ?_⟩
  rw [htraw']
  decide +kernel

end BitTorrent.Torrent
