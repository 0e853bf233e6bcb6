import BitTorrent.Proofs.Wire.Frame

/-! Bytes cut into frames. Any bytes are a number of whole frames, whatever is in them, and a rest
at the head of which there is none, and this in one way only. Taking messages off a buffer takes
these frames one after the other, and the rest stays. -/

namespace BitTorrent.Wire

/-- The length that the first four bytes declare. -/
def declaredLength (bs : Bytes) : Nat := BigEndian.decode (bs.take 4)

/-- A whole frame of any content: four bytes and as many as they declare, no more than a frame
may have. -/
structure IsFrame (f : Bytes) : Prop where
  length_eq : f.length = 4 + declaredLength f
  declared_le : declaredLength f ≤ Parameters.maxMessageSize

/-- The bytes are cut into whole frames as far as they go. -/
structure Framed (bs : Bytes) (frames : List Bytes) (rest : Bytes) : Prop where
  eq_append : bs = frames.flatten ++ rest
  isFrame : ∀ f ∈ frames, IsFrame f
  noFrame : ∀ f, f <+: rest → ¬IsFrame f

/-- The bytes begin with a length that no frame may have. -/
def Oversized (bs : Bytes) : Prop :=
  4 ≤ bs.length ∧ Parameters.maxMessageSize < declaredLength bs

instance (bs : Bytes) : Decidable (Oversized bs) := inferInstanceAs (Decidable (_ ∧ _))

/-- What is said of bytes that begin with such a length. -/
def tooLarge (bs : Bytes) : Error := .malformedMessage (.tooLarge (declaredLength bs))

/-- What is wrong with bytes at the head of which there is no whole frame, if nothing comes behind
them: they declare too large a frame, or there are too few of them. -/
def shortcoming (rest : Bytes) : Error :=
  if Oversized rest then tooLarge rest else .connectionClosed

/-! ### Frames -/

theorem declaredLength_append {f : Bytes} (h : 4 ≤ f.length) (rest : Bytes) :
    declaredLength (f ++ rest) = declaredLength f := by
  rw [declaredLength, List.take_append_of_le_length h, declaredLength]

theorem declaredLength_of_isPrefix {f bs : Bytes} (h : f <+: bs) (hfour : 4 ≤ f.length) :
    declaredLength bs = declaredLength f := by
  obtain ⟨rest, rfl⟩ := h
  exact declaredLength_append hfour rest

theorem IsFrame.four_le {f : Bytes} (h : IsFrame f) : 4 ≤ f.length := by
  rw [h.length_eq]
  exact Nat.le_add_right 4 _

/-- At the head of any bytes there is one frame at most. -/
theorem IsFrame.eq_of_isPrefix {f g bs : Bytes} (hf : IsFrame f) (hg : IsFrame g) (hfbs : f <+: bs)
    (hgbs : g <+: bs) : f = g := by
  have hlen : f.length = g.length := by
    rw [hf.length_eq, hg.length_eq, ← declaredLength_of_isPrefix hfbs hf.four_le,
      ← declaredLength_of_isPrefix hgbs hg.four_le]
  exact (List.prefix_of_prefix_length_le hfbs hgbs (Nat.le_of_eq hlen)).eq_of_length hlen

theorem Oversized.append {bs : Bytes} (h : Oversized bs) (more : Bytes) :
    Oversized (bs ++ more) := by
  refine ⟨?_, ?_⟩
  · rw [List.length_append]
    exact Nat.le_add_right_of_le h.1
  · rw [declaredLength_append h.1]
    exact h.2

/-- No frame begins with such a length. -/
theorem Oversized.noFrame {bs : Bytes} (h : Oversized bs) (f : Bytes) (hf : f <+: bs) :
    ¬IsFrame f := by
  intro hframe
  have hle := hframe.declared_le
  rw [← declaredLength_of_isPrefix hf hframe.four_le] at hle
  exact absurd h.2 (Nat.not_lt.mpr hle)

/-- Where a frame is still incomplete there is none. -/
theorem IsFrame.noFrame_of_isPrefix {f part : Bytes} (h : IsFrame f) (hpart : part <+: f)
    (hne : part ≠ f) (g : Bytes) (hg : g <+: part) : ¬IsFrame g := by
  intro hframe
  obtain rfl := hframe.eq_of_isPrefix h (hg.trans hpart) (List.prefix_refl f)
  exact hne (hpart.eq_of_length_le hg.length_le)

theorem IsFrame.not_oversized_of_isPrefix {f part : Bytes} (h : IsFrame f) (hpart : part <+: f) :
    ¬Oversized part := by
  intro hover
  have hle := h.declared_le
  rw [declaredLength_of_isPrefix hpart hover.1] at hle
  exact absurd hover.2 (Nat.not_lt.mpr hle)

/-! ### Taking messages -/

theorem takeMessage_eq (buffer : Bytes) :
    takeMessage buffer =
      if buffer.length < 4 then (none, buffer)
      else if Parameters.maxMessageSize < declaredLength buffer then
        (some (.error (tooLarge buffer)), buffer)
      else if buffer.length < 4 + declaredLength buffer then (none, buffer)
      else (some (Message.decode (buffer.take (4 + declaredLength buffer))),
        buffer.drop (4 + declaredLength buffer)) := by
  simp only [takeMessage, Bytes.splitAt?, Bytes.hasAtLeast_eq_true_iff, tooLarge, declaredLength,
    ← Nat.not_le, ite_not]
  by_cases hfour : 4 ≤ buffer.length
  · rw [if_pos hfour, if_pos hfour]
    dsimp only
    by_cases hlarge : BigEndian.decode (buffer.take 4) ≤ Parameters.maxMessageSize
    · rw [if_pos hlarge, if_pos hlarge]
      by_cases hwhole : 4 + BigEndian.decode (buffer.take 4) ≤ buffer.length
      · rw [if_pos hwhole, if_pos hwhole]
      · rw [if_neg hwhole, if_neg hwhole]
    · rw [if_neg hlarge, if_neg hlarge]
  · rw [if_neg hfour, if_neg hfour]

/-- A whole frame is taken, and read for itself. -/
theorem takeMessage_of_isFrame {f : Bytes} (h : IsFrame f) (rest : Bytes) :
    takeMessage (f ++ rest) = (some (Message.decode f), rest) := by
  have hfour := h.four_le
  have hlen : (f ++ rest).length = f.length + rest.length := List.length_append
  have hle := h.declared_le
  rw [takeMessage_eq, declaredLength_append hfour, ← h.length_eq, if_neg (by omega),
    if_neg (by omega), if_neg (by omega), List.take_left, List.drop_left]

/-- Where there is no whole frame there are too few bytes for the declared length, unless it is too
large. -/
theorem length_lt_of_noFrame {rest : Bytes} (h : ∀ f, f <+: rest → ¬IsFrame f)
    (hle : declaredLength rest ≤ Parameters.maxMessageSize) :
    rest.length < 4 + declaredLength rest := by
  refine Nat.lt_of_not_le fun hwhole => ?_
  have hlen : (rest.take (4 + declaredLength rest)).length = 4 + declaredLength rest :=
    List.length_take_of_le hwhole
  have hdeclared : declaredLength (rest.take (4 + declaredLength rest)) = declaredLength rest := by
    rw [declaredLength, List.take_take, Nat.min_eq_left (Nat.le_add_right 4 _), declaredLength]
  exact h _ (List.take_prefix _ rest) ⟨by rw [hdeclared, hlen], by rwa [hdeclared]⟩

/-- A length that is too large is told, and the buffer stays as it is. -/
theorem takeMessage_of_oversized {buffer : Bytes} (h : Oversized buffer) :
    takeMessage buffer = (some (.error (tooLarge buffer)), buffer) := by
  rw [takeMessage_eq, if_neg (Nat.not_lt.mpr h.1), if_pos h.2]

/-- While the frame at its head is incomplete nothing is taken off a buffer. -/
theorem takeMessage_of_incomplete {buffer : Bytes} (h : ∀ f, f <+: buffer → ¬IsFrame f)
    (hover : ¬Oversized buffer) : takeMessage buffer = (none, buffer) := by
  rw [takeMessage_eq]
  by_cases hfour : buffer.length < 4
  · rw [if_pos hfour]
  · have hle : declaredLength buffer ≤ Parameters.maxMessageSize :=
      Nat.not_lt.mp fun hlarge => hover ⟨Nat.not_lt.mp hfour, hlarge⟩
    rw [if_neg hfour, if_neg (Nat.not_lt.mpr hle), if_pos (length_lt_of_noFrame h hle)]

/-! ### Cutting -/

theorem Framed.cons {f bs rest : Bytes} {frames : List Bytes} (hf : IsFrame f)
    (h : Framed bs frames rest) : Framed (f ++ bs) (f :: frames) rest where
  eq_append := by rw [h.eq_append, List.flatten_cons, List.append_assoc]
  isFrame := List.forall_mem_cons.mpr ⟨hf, h.isFrame⟩
  noFrame := h.noFrame

theorem Framed.tail {bs rest : Bytes} {frames : List Bytes} (h : Framed bs frames rest) :
    Framed (frames.tail.flatten ++ rest) frames.tail rest where
  eq_append := rfl
  isFrame f hf := h.isFrame f (List.mem_of_mem_tail hf)
  noFrame := h.noFrame

theorem framed_nil {rest : Bytes} (h : ∀ f, f <+: rest → ¬IsFrame f) : Framed rest [] rest :=
  ⟨rfl, nofun, h⟩

/-- Where the first bytes leave a rest, cutting goes on with it. -/
theorem Framed.append {bs more rest rest' : Bytes} {frames frames' : List Bytes}
    (h : Framed bs frames rest) (h' : Framed (rest ++ more) frames' rest') :
    Framed (bs ++ more) (frames ++ frames') rest' where
  eq_append := by
    rw [h.eq_append, List.append_assoc, h'.eq_append, List.flatten_append, List.append_assoc]
  isFrame := List.forall_mem_append.mpr ⟨h.isFrame, h'.isFrame⟩
  noFrame := h'.noFrame

theorem Framed.head_isPrefix {f bs rest : Bytes} {frames : List Bytes}
    (h : Framed bs (f :: frames) rest) : f <+: bs := by
  rw [h.eq_append, List.flatten_cons, List.append_assoc]
  exact List.prefix_append f _

/-- Bytes are cut in one way only, by induction on the frames. -/
theorem Framed.unique {bs rest rest' : Bytes} {frames frames' : List Bytes}
    (h : Framed bs frames rest) (h' : Framed bs frames' rest') :
    frames = frames' ∧ rest = rest' := by
  induction frames generalizing bs frames' with
  | nil =>
    have hbs : bs = rest := h.eq_append
    cases frames' with
    | nil => exact ⟨rfl, hbs.symm.trans h'.eq_append⟩
    | cons f' frames' =>
      exact absurd (h'.isFrame f' List.mem_cons_self) (h.noFrame f' (hbs ▸ h'.head_isPrefix))
  | cons f frames ih =>
    cases frames' with
    | nil =>
      have hbs : bs = rest' := h'.eq_append
      exact absurd (h.isFrame f List.mem_cons_self) (h'.noFrame f (hbs ▸ h.head_isPrefix))
    | cons f' frames' =>
      obtain rfl : f = f' := (h.isFrame f List.mem_cons_self).eq_of_isPrefix
        (h'.isFrame f' List.mem_cons_self) h.head_isPrefix h'.head_isPrefix
      have hbytes : frames.flatten ++ rest = frames'.flatten ++ rest' := by
        have := h.eq_append.symm.trans h'.eq_append
        simpa only [List.flatten_cons, List.append_assoc, List.append_cancel_left_eq] using this
      obtain ⟨rfl, rfl⟩ := ih h.tail (hbytes ▸ h'.tail)
      exact ⟨rfl, rfl⟩

/-- All bytes can be cut, by induction on their number. -/
theorem exists_framed (bs : Bytes) : ∃ frames rest, Framed bs frames rest := by
  induction hn : bs.length using Nat.strongRecOn generalizing bs with
  | ind n ih =>
    by_cases hframe : ∃ f, f <+: bs ∧ IsFrame f
    · obtain ⟨f, ⟨more, rfl⟩, hf⟩ := hframe
      have hfour := hf.four_le
      rw [List.length_append] at hn
      obtain ⟨frames, rest, h⟩ := ih more.length (by omega) more rfl
      exact ⟨f :: frames, rest, h.cons hf⟩
    · exact ⟨[], bs, rfl, nofun, fun f hf h => hframe ⟨f, hf, h⟩⟩

end BitTorrent.Wire
