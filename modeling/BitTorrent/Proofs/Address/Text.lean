import BitTorrent.Proofs.Address.Number
import BitTorrent.Proofs.Bytes.BigEndian

/-! The text of an address is read as that address. An IPv6 address is its groups around a run of
zero groups, wherever the run is and however long, and reading puts as many zero groups back as are
missing. So different addresses have different texts. -/

namespace BitTorrent.Address

/-! ### Groups -/

/-- Groups with a colon in front of each. -/
def colonGroups (gs : List Nat) : List Char := gs.flatMap fun g => ':' :: Nat.toDigits 16 g

theorem groupsText_cons (g : Nat) (gs : List Nat) :
    groupsText (g :: gs) = Nat.toDigits 16 g ++ colonGroups gs := by
  induction gs generalizing g with
  | nil => simp [groupsText, joinWith, colonGroups]
  | cons g' gs ih =>
    have hcons : groupsText (g :: g' :: gs) =
        Nat.toDigits 16 g ++ [':'] ++ groupsText (g' :: gs) := by
      simp [groupsText, joinWith, List.intercalate_cons_cons]
    rw [hcons, ih]
    simp [colonGroups]

theorem dot_notMem_toDigits (g : Nat) : '.' ∉ Nat.toDigits 16 g := by
  have hdigit : ∀ d < 16, Nat.digitChar d ≠ '.' := by decide
  obtain ⟨ds, hdigits, hds, -, -⟩ := exists_digits (by decide : 1 < 16) g
  rw [hdigits]
  intro hdot
  obtain ⟨d, hd, heq⟩ := List.mem_map.mp hdot
  exact hdigit d (hds d hd) heq

theorem dot_notMem_colonGroups (gs : List Nat) : '.' ∉ colonGroups gs := by
  intro hdot
  obtain ⟨g, -, hg⟩ := List.mem_flatMap.mp hdot
  rcases List.mem_cons.mp hg with hg | hg
  · cases hg
  · exact dot_notMem_toDigits g hg

theorem dot_notMem_groupsText (gs : List Nat) : '.' ∉ groupsText gs := by
  cases gs with
  | nil => exact List.not_mem_nil
  | cons g gs =>
    rw [groupsText_cons, List.mem_append]
    rintro (h | h)
    · exact dot_notMem_toDigits g h
    · exact dot_notMem_colonGroups gs h

/-- What may follow a run of groups: nothing, or the two colons of a run of zeros. -/
def EndsRun (rest : List Char) : Prop := rest = [] ∨ ∃ cs, rest = ':' :: ':' :: cs

theorem EndsRun.digitRun_eq {rest : List Char} (h : EndsRun rest) (base : Nat) :
    digitRun base rest = ([], rest) := by
  rcases h with rfl | ⟨cs, rfl⟩
  · rfl
  · exact digitRun_colon base _

theorem digitRun_colonGroups {rest : List Char} (h : EndsRun rest) (gs : List Nat) :
    digitRun 16 (colonGroups gs ++ rest) = ([], colonGroups gs ++ rest) := by
  cases gs with
  | nil => exact h.digitRun_eq 16
  | cons g gs => exact digitRun_colon 16 _

/-- One group is read, and then the groups behind it. -/
theorem groups?_succ {first : Bool} {limit g : Nat} {cs rest : List Char}
    (hafter : (if first then some cs else given? ':' cs) = some (Nat.toDigits 16 g ++ rest))
    (hg : g < 65536) (hquad : quad? (Nat.toDigits 16 g ++ rest) = none)
    (hrest : digitRun 16 rest = ([], rest)) :
    groups? first (limit + 1) cs =
      ⟨BigEndian.encode 2 g ++ (groups? false limit rest).bytes,
        (groups? false limit rest).endsInQuad, (groups? false limit rest).rest⟩ := by
  simp only [groups?, hafter, hquad, ite_self, group?_toDigits hg hrest]

/-- No group is read where no digit stands. -/
theorem groups?_eq_nil {first : Bool} {cs after : List Char}
    (hafter : (if first then some cs else given? ':' cs) = some after) (hdot : '.' ∉ after)
    (hrun : digitRun 16 after = ([], after)) (limit : Nat) :
    groups? first limit cs = ⟨[], false, cs⟩ := by
  cases limit with
  | zero => rfl
  | succ limit =>
    simp only [groups?, hafter, quad?_eq_none hdot, ite_self, group?_eq_none hrun]

theorem groups?_of_endsRun {rest : List Char} (h : EndsRun rest) (hdot : '.' ∉ rest) (first : Bool)
    (limit : Nat) : groups? first limit rest = ⟨[], false, rest⟩ := by
  cases first with
  | true => exact groups?_eq_nil rfl hdot (h.digitRun_eq 16) limit
  | false =>
    rcases h with rfl | ⟨cs, rfl⟩
    · cases limit <;> rfl
    · exact groups?_eq_nil rfl (List.not_mem_of_not_mem_cons hdot) (digitRun_colon 16 cs) limit

/-- The first group of a run is read, and then the groups behind it. -/
theorem groups?_cons {first : Bool} {limit g : Nat} {gs : List Nat} {cs rest : List Char}
    (hafter : (if first then some cs else given? ':' cs) =
      some (Nat.toDigits 16 g ++ (colonGroups gs ++ rest)))
    (hlimit : 0 < limit) (hg : g < 65536) (hrest : EndsRun rest) (hdot : '.' ∉ rest) :
    groups? first limit cs =
      ⟨BigEndian.encode 2 g ++ (groups? false (limit - 1) (colonGroups gs ++ rest)).bytes,
        (groups? false (limit - 1) (colonGroups gs ++ rest)).endsInQuad,
        (groups? false (limit - 1) (colonGroups gs ++ rest)).rest⟩ := by
  have hdots : '.' ∉ Nat.toDigits 16 g ++ (colonGroups gs ++ rest) := by
    simp only [List.mem_append, not_or]
    exact ⟨dot_notMem_toDigits g, dot_notMem_colonGroups gs, hdot⟩
  obtain ⟨limit, rfl⟩ := Nat.exists_eq_succ_of_ne_zero (Nat.ne_of_gt hlimit)
  exact groups?_succ hafter hg (quad?_eq_none hdots) (digitRun_colonGroups hrest gs)

theorem groups?_colonGroups {gs : List Nat} {limit : Nat} {rest : List Char}
    (hlength : gs.length ≤ limit) (hgs : ∀ g ∈ gs, g < 65536) (hrest : EndsRun rest)
    (hdot : '.' ∉ rest) :
    groups? false limit (colonGroups gs ++ rest) =
      ⟨gs.flatMap (BigEndian.encode 2), false, rest⟩ := by
  induction gs generalizing limit with
  | nil => exact groups?_of_endsRun hrest hdot false limit
  | cons g gs ih =>
    obtain ⟨hg, hgs⟩ := List.forall_mem_cons.mp hgs
    rw [List.length_cons] at hlength
    have hafter : (if false then some (colonGroups (g :: gs) ++ rest)
        else given? ':' (colonGroups (g :: gs) ++ rest)) =
        some (Nat.toDigits 16 g ++ (colonGroups gs ++ rest)) := by
      simp [colonGroups, given?]
    rw [groups?_cons hafter (by omega) hg hrest hdot, ih (by omega) hgs]
    rfl

/-- All groups of a run are read, if there may be as many. -/
theorem groups?_groupsText {gs : List Nat} {limit : Nat} {rest : List Char}
    (hlength : gs.length ≤ limit) (hgs : ∀ g ∈ gs, g < 65536) (hrest : EndsRun rest)
    (hdot : '.' ∉ rest) :
    groups? true limit (groupsText gs ++ rest) =
      ⟨gs.flatMap (BigEndian.encode 2), false, rest⟩ := by
  cases gs with
  | nil => exact groups?_of_endsRun hrest hdot true limit
  | cons g gs =>
    obtain ⟨hg, hgs⟩ := List.forall_mem_cons.mp hgs
    rw [List.length_cons] at hlength
    rw [groupsText_cons, List.append_assoc, groups?_cons rfl (by omega) hg hrest hdot,
      groups?_colonGroups (by omega) hgs hrest hdot]
    rfl

theorem groups?_groupsText_end {gs : List Nat} {limit : Nat} (hlength : gs.length ≤ limit)
    (hgs : ∀ g ∈ gs, g < 65536) :
    groups? true limit (groupsText gs) = ⟨gs.flatMap (BigEndian.encode 2), false, []⟩ := by
  have h : groups? true limit (groupsText gs ++ []) = _ :=
    groups?_groupsText hlength hgs (.inl rfl) List.not_mem_nil
  rwa [List.append_nil] at h

/-! ### Groups and bytes -/

theorem flatMap_groups {bs : Bytes} (h : bs.length % 2 = 0) :
    (groups bs).flatMap (BigEndian.encode 2) = bs := by
  fun_induction groups bs with
  | case1 a b rest ih =>
    have hrest : rest.length % 2 = 0 := by
      simp only [List.length_cons] at h
      omega
    have hpair : BigEndian.decode [a, b] = 256 * a.toNat + b.toNat := by simp [BigEndian.decode]
    have hencode := BigEndian.encode_decode [a, b]
    rw [hpair] at hencode
    rw [List.flatMap_cons, ih hrest]
    exact congrArg (· ++ rest) hencode
  | case2 bs hbs =>
    rcases bs with _ | ⟨a, _ | ⟨b, rest⟩⟩
    · rfl
    · simp at h
    · exact absurd rfl (hbs a b rest)

theorem length_groups (bs : Bytes) : (groups bs).length = bs.length / 2 := by
  fun_induction groups bs with
  | case1 a b rest ih =>
    simp only [List.length_cons, ih]
    omega
  | case2 bs hbs =>
    match bs, hbs with
    | [], _ => rfl
    | [_], _ => simp
    | a :: b :: rest, hbs => exact absurd rfl (hbs a b rest)

theorem lt_of_mem_groups {bs : Bytes} {g : Nat} (h : g ∈ groups bs) : g < 65536 := by
  fun_induction groups bs with
  | case1 a b rest ih =>
    have ha := a.toNat_lt
    have hb := b.toNat_lt
    rcases List.mem_cons.mp h with rfl | h
    · omega
    · exact ih h
  | case2 => cases h

/-! ### Runs of zeros -/

theorem eq_zeros_append {n : Nat} {gs : List Nat} (h : n ≤ zerosAtHead gs) :
    gs = List.replicate n 0 ++ gs.drop n := by
  induction n generalizing gs with
  | zero => rfl
  | succ n ih =>
    cases gs with
    | nil => simp [zerosAtHead] at h
    | cons g gs =>
      by_cases hg : g = 0
      · subst hg
        have hn : n ≤ zerosAtHead gs := by simpa [zerosAtHead] using h
        rw [List.replicate_succ, List.cons_append, List.drop_succ_cons, ← ih hn]
      · simp [zerosAtHead, hg] at h

/-- The run that is chosen is a run of zeros; by induction on the places that are compared. -/
theorem longestZeroRun_le (gs : List Nat) :
    (longestZeroRun gs).2 ≤ zerosAtHead (gs.drop (longestZeroRun gs).1) := by
  unfold longestZeroRun
  apply List.foldlRecOn (motive := fun best : Nat × Nat => best.2 ≤ zerosAtHead (gs.drop best.1))
  · exact Nat.zero_le _
  · intro best hbest i _
    dsimp only
    split
    · exact Nat.le_refl _
    · exact hbest

/-- The groups are those before the run, the zeros of the run and those behind it. -/
theorem eq_around_longestZeroRun (gs : List Nat) :
    gs = gs.take (longestZeroRun gs).1 ++ (List.replicate (longestZeroRun gs).2 0 ++
      gs.drop ((longestZeroRun gs).1 + (longestZeroRun gs).2)) := by
  have hzeros := eq_zeros_append (longestZeroRun_le gs)
  rw [List.drop_drop] at hzeros
  rw [← hzeros, List.take_append_drop]

/-! ### IPv6 addresses -/

theorem length_flatMap_encode (gs : List Nat) :
    (gs.flatMap (BigEndian.encode 2)).length = 2 * gs.length := by
  induction gs with
  | nil => rfl
  | cons g gs ih =>
    rw [List.flatMap_cons, List.length_append, BigEndian.length_encode, ih, List.length_cons]
    omega

theorem flatMap_encode_zeros (n : Nat) :
    (List.replicate n 0).flatMap (BigEndian.encode 2) = List.replicate (2 * n) 0 := by
  induction n with
  | zero => rfl
  | succ n ih =>
    rw [List.replicate_succ, List.flatMap_cons, ih, Nat.mul_succ, Nat.add_comm,
      ← List.replicate_append_replicate]
    rfl

/-- What stands before two colons and what stands behind them, and zeros for what is missing. -/
theorem v6?_of_runs {cs rest : List Char} {front back : Bytes} {endsInQuad : Bool}
    (hfront : groups? true 8 cs = ⟨front, false, ':' :: ':' :: rest⟩) (hshort : front.length ≠ 16)
    (hback : groups? true (7 - front.length / 2) rest = ⟨back, endsInQuad, []⟩) :
    v6? cs = some (front ++ List.replicate (16 - front.length - back.length) 0 ++ back, []) := by
  simp [v6?, hfront, hshort, given?, hback]

/-- Where a run of zeros is left out, reading puts back as many as are missing. -/
theorem v6?_compressed {front back : List Nat} {n : Nat} (hn : 1 < n)
    (hlength : front.length + n + back.length = 8) (hfront : ∀ g ∈ front, g < 65536)
    (hback : ∀ g ∈ back, g < 65536) :
    v6? (groupsText front ++ ':' :: ':' :: groupsText back) =
      some ((front ++ (List.replicate n 0 ++ back)).flatMap (BigEndian.encode 2), []) := by
  have hdot : '.' ∉ ':' :: ':' :: groupsText back := by
    simpa using dot_notMem_groupsText back
  have hread : groups? true 8 (groupsText front ++ ':' :: ':' :: groupsText back) =
      ⟨front.flatMap (BigEndian.encode 2), false, ':' :: ':' :: groupsText back⟩ :=
    groups?_groupsText (by omega) hfront (.inr ⟨_, rfl⟩) hdot
  have hread' : groups? true (7 - front.length) (groupsText back) =
      ⟨back.flatMap (BigEndian.encode 2), false, []⟩ := groups?_groupsText_end (by omega) hback
  have hhalf : 2 * front.length / 2 = front.length := by omega
  have hmissing : 16 - 2 * front.length - 2 * back.length = 2 * n := by omega
  rw [v6?_of_runs hread (by rw [length_flatMap_encode]; omega)
    (by rw [length_flatMap_encode, hhalf]; exact hread'), length_flatMap_encode,
    length_flatMap_encode, hmissing, ← flatMap_encode_zeros, List.flatMap_append,
    List.flatMap_append, List.append_assoc]

/-- Eight groups are read as they are. -/
theorem v6?_groupsText {gs : List Nat} (hlength : gs.length = 8) (hgs : ∀ g ∈ gs, g < 65536) :
    v6? (groupsText gs) = some (gs.flatMap (BigEndian.encode 2), []) := by
  have hread : groups? true 8 (groupsText gs) = ⟨gs.flatMap (BigEndian.encode 2), false, []⟩ :=
    groups?_groupsText_end (by omega) hgs
  have hfull : (gs.flatMap (BigEndian.encode 2)).length = 16 := by
    rw [length_flatMap_encode, hlength]
  simp [v6?, hread, hfull]

/-- An IPv4 address within an IPv6 address stands for its last two groups. -/
theorem v6?_mapped (o : Octets 4) :
    v6? (':' :: ':' :: ("ffff:".toList ++ quadText o.toList)) =
      some (mappedPrefix ++ o.toList, []) := by
  have hfront : groups? true 8 (':' :: ':' :: ("ffff:".toList ++ quadText o.toList)) =
      ⟨[], false, ':' :: ':' :: ("ffff:".toList ++ quadText o.toList)⟩ := rfl
  have hback : groups? true 7 ("ffff:".toList ++ quadText o.toList) =
      ⟨[0xff, 0xff] ++ o.toList, true, []⟩ := by
    have hmore : groups? false 6 (':' :: quadText o.toList) = ⟨o.toList, true, []⟩ := by
      simp [groups?, given?, quad?_quadText_end]
    have hgroup : groups? true 7 (Nat.toDigits 16 0xffff ++ ':' :: quadText o.toList) = _ :=
      groups?_succ rfl (by decide) rfl (digitRun_colon 16 (quadText o.toList))
    rw [hmore] at hgroup
    exact hgroup
  have hlength : ([0xff, 0xff] ++ o.toList).length = 6 := by
    rw [List.length_append, o.length_toList]
    rfl
  rw [v6?_of_runs hfront (by decide) hback, hlength]
  rfl

/-- What an IPv6 address is written as: one that maps an IPv4 address, one with a run of zeros left
out, and any other. -/
theorem v6Text_cases (o : Octets 16) :
    (∃ q : Octets 4, o.toList = mappedPrefix ++ q.toList ∧
      v6Text o.toList = ':' :: ':' :: ("ffff:".toList ++ quadText q.toList)) ∨
    (∃ front n back, 1 < n ∧ groups o.toList = front ++ (List.replicate n 0 ++ back) ∧
      v6Text o.toList = groupsText front ++ ':' :: ':' :: groupsText back) ∨
    v6Text o.toList = groupsText (groups o.toList) := by
  unfold v6Text
  split
  · rename_i hmapped
    have hlast : (o.toList.drop 12).length = 4 := by
      rw [List.length_drop, o.length_toList]
    refine .inl ⟨⟨o.toList.drop 12, hlast⟩, ?_, rfl⟩
    rw [← hmapped, List.take_append_drop]
  · dsimp only
    split
    · rename_i hn
      exact .inr (.inl ⟨_, _, _, hn, eq_around_longestZeroRun _, rfl⟩)
    · exact .inr (.inr rfl)

/-- An address is read from its text to the end of the text. -/
theorem v6?_v6Text (o : Octets 16) : v6? (v6Text o.toList) = some (o.toList, []) := by
  have hlength : (groups o.toList).length = 8 := by rw [length_groups, o.length_toList]
  have hgs : ∀ g ∈ groups o.toList, g < 65536 := fun g => lt_of_mem_groups
  have hbytes := flatMap_groups (show o.toList.length % 2 = 0 by rw [o.length_toList])
  rcases v6Text_cases o with ⟨q, hq, htext⟩ | ⟨front, n, back, hn, hsplit, htext⟩ | htext
  · rw [htext, hq, v6?_mapped]
  · rw [hsplit] at hlength hgs hbytes
    simp only [List.length_append, List.length_replicate] at hlength
    simp only [List.mem_append] at hgs
    rw [htext, v6?_compressed hn (by omega) (fun g hg => hgs g (.inl hg))
      (fun g hg => hgs g (.inr (.inr hg))), hbytes]
  · rw [htext, v6?_groupsText hlength hgs, hbytes]

/-- No text of an IPv6 address begins with an IPv4 address. -/
theorem quad?_v6Text (o : Octets 16) : quad? (v6Text o.toList) = none := by
  rcases v6Text_cases o with ⟨q, -, htext⟩ | ⟨front, n, back, -, -, htext⟩ | htext
  · rw [htext]
    rfl
  · rw [htext]
    apply quad?_eq_none
    simp [dot_notMem_groupsText]
  · rw [htext]
    exact quad?_eq_none (dot_notMem_groupsText _)

/-! ### Addresses -/

theorem ofText?_text (a : Address) : ofText? a.text = some a := by
  rw [ofText?, text, String.toList_ofList]
  cases a with
  | v4 o => simp [ofChars?, chars, quad?_quadText_end]
  | v6 o => simp [ofChars?, chars, quad?_v6Text, v6?_v6Text]

theorem text_inj {a b : Address} (h : a.text = b.text) : a = b := by
  apply Option.some.inj
  rw [← ofText?_text a, ← ofText?_text b, h]

end BitTorrent.Address
