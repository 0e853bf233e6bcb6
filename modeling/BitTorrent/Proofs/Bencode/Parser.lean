import BitTorrent.Bencode.Parser
import BitTorrent.Proofs.Bencode.Extent

/-! What the grammar derives is read. On the bytes of a derived value the reader answers the
value, or that it is nested too deep, wherever the bytes stand. The bracket scan that
goes ahead of it finds where each element ends and decides nothing else. -/

namespace BitTorrent.Bencode

open ParseTree

/-! ### One element -/

theorem IntegerForm.ne_close_of_mem_body {i : IntegerForm} {b : UInt8} (h : b ∈ i.body) :
    b ≠ 0x65 := by
  have hdigit {c : UInt8} (hc : c ∈ i.magnitude.digits) : c ≠ 0x65 := by
    rintro rfl
    exact absurd (i.magnitude.isDigit _ hc) (by decide)
  unfold body at h
  split at h
  · rcases List.mem_cons.mp h with rfl | h
    · decide
    · exact hdigit h
  · exact hdigit h

theorem findIdx?_body (i : IntegerForm) (rest : Bytes) :
    (i.body ++ 0x65 :: rest).findIdx? (· = 0x65) = some i.body.length := by
  have hbody : i.body.findIdx? (· = 0x65) = none := by
    rw [List.findIdx?_eq_none_iff]
    intro b hb
    simpa using IntegerForm.ne_close_of_mem_body hb
  rw [List.findIdx?_append, hbody, List.findIdx?_cons]
  simp

theorem elementSize_text {t : ParseTree} {b : UInt8} {w rest : Bytes} (ht : t.text = b :: w)
    (pos : Nat) : elementSize pos b (w ++ rest) = .ok w.length := by
  have hbracket (hs : ∀ s, t ≠ .string s) :
      closing pos (b :: (w ++ rest)) = .ok (pos + w.length) := by
    have := closing_text hs pos rest
    rwa [ht, List.cons_append, List.length_cons, ← Nat.add_assoc, Nat.add_sub_cancel] at this
  cases t with
  | integer i =>
    have htext : 0x69 :: (i.body ++ [0x65]) = b :: w := ht
    obtain ⟨rfl, rfl⟩ := List.cons.inj htext
    simp only [elementSize, Lead.of_i, List.append_assoc, List.singleton_append, findIdx?_body]
    rw [List.length_append, List.length_singleton]
  | string s =>
    obtain ⟨c, tail, d, hs, hlead⟩ := s.exists_text_eq_cons
    obtain ⟨rfl, rfl⟩ := List.cons.inj (hs.symm.trans ht)
    have htoken := ByteString.token_text pos s rest
    rw [hs, List.cons_append] at htoken
    simp only [elementSize, hlead, htoken, ok_bind, List.length_cons, Nat.add_sub_cancel]
    rfl
  | list items =>
    obtain ⟨rfl, rfl⟩ := List.cons.inj ht
    simp only [elementSize, Lead.of_l, hbracket nofun, ok_bind, Nat.add_sub_cancel_left]
    rfl
  | dict entries =>
    obtain ⟨rfl, rfl⟩ := List.cons.inj ht
    simp only [elementSize, Lead.of_d, hbracket nofun, ok_bind, Nat.add_sub_cancel_left]
    rfl

/-- Where an element ends is found when something follows it. -/
theorem elementTail_text {t : ParseTree} {b : UInt8} {w rest : Bytes} (ht : t.text = b :: w)
    (hrest : rest ≠ []) (pos : Nat) : elementTail pos (b :: (w ++ rest)) = .ok w.length := by
  simp only [elementTail, elementSize_text ht, ok_bind]
  rw [if_neg (by simpa using hrest)]

/-- A key is read when something follows it. -/
theorem key_text {s : StringForm} {b : UInt8} {w rest : Bytes} (hs : s.text = b :: w)
    (hrest : rest ≠ []) (pos : Nat) : key pos (b :: (w ++ rest)) = .ok (s.payload, w.length) := by
  obtain ⟨c, tail, d, hc, hlead⟩ := s.exists_text_eq_cons
  obtain ⟨rfl, rfl⟩ := List.cons.inj (hc.symm.trans hs)
  have htoken := ByteString.token_text pos s rest
  rw [hc, List.cons_append] at htoken
  simp only [key, hlead, htoken, ok_bind, List.length_cons, Nat.add_sub_cancel]
  rw [if_neg (by simpa using hrest)]
  rfl

/-! ### Elements of a container -/

section Elements

variable {f : Nat → Bytes → Except Error Value} {pos : Nat}

theorem items_cons {b : UInt8} {tail : Bytes} (h : tail ≠ []) :
    items f pos (b :: tail) = (do
      let n ← elementTail pos (b :: tail)
      let v ← f pos (b :: tail.take n)
      let vs ← items f (pos + n + 1) (tail.drop n)
      pure (v :: vs)) := by
  rw [items]
  exact h

theorem entries_cons {b c : UInt8} {tail more : Bytes} {k : Bytes} {n : Nat}
    (hk : key pos (b :: tail) = .ok (k, n)) (hmore : more ≠ []) (hc : tail.drop n = c :: more) :
    entries f pos (b :: tail) = (do
      let m ← elementTail (pos + n + 1) (c :: more)
      let v ← f (pos + n + 1) (c :: more.take m)
      let es ← entries f (pos + n + m + 2) (more.drop m)
      pure ((k, v) :: es)) := by
  have htail : tail ≠ [] := by
    rintro rfl
    simp at hc
  rw [entries]
  · simp only [hk, ok_bind]
    split
    · simp_all
    · simp_all
    · rename_i hdrop
      obtain ⟨rfl, rfl⟩ := List.cons.inj (hdrop.symm.trans hc)
      rfl
  · exact htail

/-- A key with nothing but the closing byte after it has no value. -/
theorem entries_key_last {b c : UInt8} {tail k : Bytes} {n : Nat}
    (hk : key pos (b :: tail) = .ok (k, n)) (hc : tail.drop n = [c]) :
    entries f pos (b :: tail) = .error (.unterminatedContainer (pos + tail.length)) := by
  have htail : tail ≠ [] := by
    rintro rfl
    simp at hc
  rw [entries]
  · simp only [hk, ok_bind]
    split
    · rfl
    · rfl
    · simp_all
  · exact htail

end Elements

/-! ### Values by their first byte -/

section Values

variable {b : UInt8}

theorem value_integer (hlead : Lead.of b = .integer) (k pos : Nat) (w : Bytes) :
    value k pos (b :: w) = Value.integer <$> Integer.decode (b :: w) := by
  cases k <;> simp only [value, hlead]

theorem value_list (hlead : Lead.of b = .list) (k pos : Nat) (w : Bytes) :
    value (k + 1) pos (b :: w) = Value.list <$> items (value k) (pos + 1) w := by
  simp only [value, hlead]

theorem value_dict (hlead : Lead.of b = .dict) (k pos : Nat) (w : Bytes) :
    value (k + 1) pos (b :: w) =
      (fun es => Value.dict (Dict.ofList es)) <$> entries (value k) (pos + 1) w := by
  simp only [value, hlead]

theorem value_zero (hlead : Lead.of b = .list ∨ Lead.of b = .dict) (pos : Nat) (w : Bytes) :
    value 0 pos (b :: w) = .error .nestingTooDeep := by
  rcases hlead with hlead | hlead <;> simp only [value, hlead]

end Values

/-! ### Derived values are read -/

/-- A result that takes `depth` open containers, when `k` may be open. -/
def withinDepth {α : Type} (k depth : Nat) (a : α) : Except Error α :=
  if depth ≤ k then .ok a else .error .nestingTooDeep

/-- Two results one after the other take as much as the deeper one. -/
theorem withinDepth_bind {α β γ : Type} (k m n : Nat) (a : α) (b : β) (g : α → β → γ) :
    (do let x ← withinDepth k m a; let y ← withinDepth k n b; pure (g x y)) =
      withinDepth k (max m n) (g a b) := by
  unfold withinDepth
  by_cases hm : m ≤ k
  · by_cases hn : n ≤ k
    · rw [if_pos hm, if_pos hn, if_pos (by omega)]; rfl
    · rw [if_pos hm, if_neg hn, if_neg (by omega)]; rfl
  · rw [if_neg hm, if_neg (show ¬max m n ≤ k by omega)]; rfl

theorem withinDepth_succ {α β : Type} (k n : Nat) (a : α) (g : α → β) :
    g <$> withinDepth k n a = withinDepth (k + 1) (1 + n) (g a) := by
  unfold withinDepth
  by_cases hn : n ≤ k
  · rw [if_pos hn, if_pos (by omega)]; rfl
  · rw [if_neg hn, if_neg (by omega)]; rfl

section Bounded

variable {k : Nat} {f : Nat → Bytes → Except Error Value}

theorem items_text {ts : List ParseTree}
    (h : ∀ t ∈ ts, ∀ pos, f pos t.text = withinDepth k t.depth t.value) (pos : Nat) :
    items f pos (textOfItems ts ++ [0x65]) =
      withinDepth k (depthOfItems ts) (valuesOfItems ts) := by
  induction ts generalizing pos with
  | nil => simp [textOfItems, items, depthOfItems, valuesOfItems, withinDepth]
  | cons t ts ih =>
    obtain ⟨ht, hts⟩ := List.forall_mem_cons.mp h
    obtain ⟨b, w, htext⟩ := t.exists_text_eq
    have hrest : textOfItems ts ++ [0x65] ≠ [] := by simp
    rw [textOfItems, List.append_assoc, htext, List.cons_append, items_cons (by simp),
      elementTail_text htext hrest, ok_bind, List.take_left, List.drop_left, ← htext, ht, ih hts]
    rw [depthOfItems, valuesOfItems]
    exact withinDepth_bind k t.depth (depthOfItems ts) t.value (valuesOfItems ts) List.cons

theorem entries_text {es : List (StringForm × ParseTree)}
    (h : ∀ e ∈ es, ∀ pos, f pos e.2.text = withinDepth k e.2.depth e.2.value) (pos : Nat) :
    entries f pos (textOfEntries es ++ [0x65]) =
      withinDepth k (depthOfEntries es) (valuesOfEntries es) := by
  induction es generalizing pos with
  | nil => simp [textOfEntries, entries, depthOfEntries, valuesOfEntries, withinDepth]
  | cons e es ih =>
    obtain ⟨s, t⟩ := e
    obtain ⟨ht, hes⟩ := List.forall_mem_cons.mp h
    obtain ⟨c, v, hs⟩ : ∃ c v, s.text = c :: v := (ParseTree.string s).exists_text_eq
    obtain ⟨b, w, htext⟩ := t.exists_text_eq
    have hrest : textOfEntries es ++ [0x65] ≠ [] := by simp
    have hvalue : t.text ++ (textOfEntries es ++ [0x65]) =
        b :: (w ++ (textOfEntries es ++ [0x65])) := by
      rw [htext, List.cons_append]
    rw [textOfEntries, List.append_assoc, List.append_assoc, hvalue, hs, List.cons_append,
      entries_cons (key_text hs (by simp) pos) (by simp) List.drop_left,
      elementTail_text htext hrest, ok_bind, List.take_left, List.drop_left, ← htext, ht, ih hes]
    rw [depthOfEntries, valuesOfEntries]
    exact withinDepth_bind k t.depth (depthOfEntries es) t.value (valuesOfEntries es)
      fun v es => (s.payload, v) :: es

end Bounded

/-- The bytes of a derived value are read as its value, unless it is nested too deep. -/
theorem value_text (t : ParseTree) (k pos : Nat) :
    value k pos t.text = withinDepth k t.depth t.value := by
  have hzero (n : Nat) (v : Value) : withinDepth 0 (1 + n) v = .error .nestingTooDeep :=
    if_neg (by omega)
  induction t generalizing k pos with
  | integer i =>
    have hdecode : Integer.decode (0x69 :: (i.body ++ [0x65])) = .ok i.value :=
      Integer.decode_eq_ok_iff.mpr ⟨i, rfl, rfl⟩
    have htext : (integer i).text = 0x69 :: (i.body ++ [0x65]) := rfl
    rw [htext]
    cases k <;> simp only [value, Lead.of_i, hdecode] <;> rfl
  | string s =>
    obtain ⟨b, w, d, hs, hlead⟩ := s.exists_text_eq_cons
    have hdecode : ByteString.decode (b :: w) = .ok s.payload :=
      ByteString.decode_eq_ok_iff.mpr ⟨s, hs, rfl⟩
    have htext : (string s).text = b :: w := hs
    rw [htext]
    cases k <;> simp only [value, hlead, hdecode] <;> rfl
  | list items ih =>
    have htext : (list items).text = 0x6c :: (textOfItems items ++ [0x65]) := rfl
    rw [htext, depth, ParseTree.value]
    cases k with
    | zero => rw [value_zero (.inl Lead.of_l), hzero]
    | succ k =>
      rw [value_list Lead.of_l, items_text (fun t ht pos => ih t ht k pos), withinDepth_succ]
  | dict entries ih =>
    have htext : (dict entries).text = 0x64 :: (textOfEntries entries ++ [0x65]) := rfl
    rw [htext, depth, ParseTree.value]
    cases k with
    | zero => rw [value_zero (.inr Lead.of_d), hzero]
    | succ k =>
      rw [value_dict Lead.of_d, entries_text (fun e he pos => ih e he k pos), withinDepth_succ]

end BitTorrent.Bencode
