import BitTorrent.Text.Utf8

/-! Bytes are read as a text exactly if they are its UTF-8 encoding. -/

namespace BitTorrent

theorem Bytes.toByteArray_ofText (s : String) : (Bytes.ofText s).toByteArray = s.toByteArray := by
  have hbytes : (Bytes.ofText s).toByteArray = (String.ofList s.toList).toByteArray := rfl
  rwa [String.ofList_toList] at hbytes

theorem Utf8.decode?_eq_some_iff {bs : Bytes} {s : String} :
    decode? bs = some s ↔ bs = Bytes.ofText s := by
  have harray : (⟨bs.toArray⟩ : ByteArray) = bs.toByteArray :=
    ByteArray.ext List.data_toByteArray.symm
  rw [decode?, harray, String.fromUTF8?]
  constructor
  · intro h
    split at h
    · cases h
      rw [← List.toByteArray_inj, Bytes.toByteArray_ofText]
      rfl
    · cases h
  · rintro rfl
    rw [dif_pos (Bytes.toByteArray_ofText s ▸ s.isValidUTF8), Option.some.injEq,
      ← String.toByteArray_inj]
    exact Bytes.toByteArray_ofText s

end BitTorrent
