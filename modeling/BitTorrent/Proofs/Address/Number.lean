import BitTorrent.Address.Text

/-! Numbers within the text of an address. The digits that are written for a number are read as that
number, whatever follows that is not a digit: up to 255 in decimal, up to four digits in
hexadecimal, and four decimal numbers as an IPv4 address. -/

namespace BitTorrent.Address

/-! ### Runs of digits -/

theorem digitValue?_digitChar {d : Nat} (h : d < 16) :
    Hex.digitValue? (Nat.digitChar d) = some d := by
  have : ∀ d < 16, Hex.digitValue? (Nat.digitChar d) = some d := by decide
  exact this d h

/-- A run of digits is read to its end, where nothing follows that could be one more digit. -/
theorem digitRun_append {base : Nat} (hbase : base ≤ 16) {ds : List Nat} (hds : ∀ d ∈ ds, d < base)
    {rest : List Char} (hrest : digitRun base rest = ([], rest)) :
    digitRun base (ds.map Nat.digitChar ++ rest) = (ds, rest) := by
  induction ds with
  | nil => exact hrest
  | cons d ds ih =>
    obtain ⟨hd, hds⟩ := List.forall_mem_cons.mp hds
    have hvalue := digitValue?_digitChar (Nat.lt_of_lt_of_le hd hbase)
    simp only [List.map_cons, List.cons_append, digitRun, hvalue, if_pos hd, ih hds]

theorem suffix_digitRun (base : Nat) (cs : List Char) : (digitRun base cs).2 <:+ cs := by
  induction cs with
  | nil => exact List.suffix_refl []
  | cons c cs ih =>
    unfold digitRun
    split
    · split
      · exact ih.trans (List.suffix_cons c cs)
      · exact List.suffix_refl _
    · exact List.suffix_refl _

theorem digitRun_colon (base : Nat) (cs : List Char) :
    digitRun base (':' :: cs) = ([], ':' :: cs) := rfl

theorem digitRun_dot (base : Nat) (cs : List Char) :
    digitRun base ('.' :: cs) = ([], '.' :: cs) := rfl

/-- The digits of a number, without a superfluous zero in front. -/
theorem exists_digits {base : Nat} (hone : 1 < base) (n : Nat) :
    ∃ ds, Nat.toDigits base n = ds.map Nat.digitChar ∧ (∀ d ∈ ds, d < base) ∧
      ofDigits base ds = n ∧ (ds.head? = some 0 → ds.length = 1) := by
  induction n using Nat.strongRecOn with
  | ind n ih =>
    rw [Nat.toDigits_eq_if hone]
    split
    · rename_i hn
      refine ⟨[n], rfl, ?_, ?_, fun _ => rfl⟩
      · simpa using hn
      · simp [ofDigits]
    · rename_i hn
      have hlt : n / base < n := Nat.div_lt_self (by omega) hone
      obtain ⟨ds, hdigits, hds, hvalue, hzero⟩ := ih (n / base) hlt
      refine ⟨ds ++ [n % base], ?_, ?_, ?_, ?_⟩
      · rw [hdigits, List.map_append]
        rfl
      · rw [List.forall_mem_append]
        exact ⟨hds, by simpa using Nat.mod_lt n (by omega)⟩
      · have happend : ofDigits base (ds ++ [n % base]) = base * ofDigits base ds + n % base := by
          simp [ofDigits, List.foldl_append]
        rw [happend, hvalue, Nat.div_add_mod]
      · intro hhead
        cases ds with
        | nil => rfl
        | cons d ds =>
          obtain rfl : d = 0 := by simpa using hhead
          have hnil : ds = [] := by simpa using hzero rfl
          subst hnil
          have hdiv : n / base = 0 := by simpa [ofDigits] using hvalue.symm
          have hpos : 0 < n / base := Nat.div_pos (by omega) (by omega)
          omega

/-! ### Numbers -/

/-- The digits of a number below `base ^ k` are at most `k`. -/
theorem digitRun_toDigits {base : Nat} (hone : 1 < base) (hbase : base ≤ 16) (n : Nat)
    {rest : List Char} (hrest : digitRun base rest = ([], rest)) :
    ∃ ds, digitRun base (Nat.toDigits base n ++ rest) = (ds, rest) ∧ ofDigits base ds = n ∧
      ds.length = (Nat.toDigits base n).length ∧ (ds.head? = some 0 → ds.length = 1) := by
  obtain ⟨ds, hdigits, hds, hvalue, hzero⟩ := exists_digits hone n
  refine ⟨ds, ?_, hvalue, ?_, hzero⟩
  · rw [hdigits, digitRun_append hbase hds hrest]
  · rw [hdigits, List.length_map]

theorem byte?_toDigits (b : UInt8) {rest : List Char} (hrest : digitRun 10 rest = ([], rest)) :
    byte? (Nat.toDigits 10 b.toNat ++ rest) = some (b, rest) := by
  obtain ⟨ds, hrun, hvalue, hlength, hzero⟩ :=
    digitRun_toDigits (by decide) (by decide) b.toNat hrest
  have hb := b.toNat_lt
  have hpos : 0 < (Nat.toDigits 10 b.toNat).length := Nat.length_toDigits_pos
  have hle : (Nat.toDigits 10 b.toNat).length ≤ 3 :=
    (Nat.length_toDigits_le_iff (by decide) (by decide)).mpr (by omega)
  have hfits :
      1 ≤ ds.length ∧ ds.length ≤ 3 ∧ (ds.head? = some 0 → ds.length = 1) ∧ b.toNat < 256 :=
    ⟨by omega, by omega, hzero, hb⟩
  simp only [byte?, hrun, hvalue]
  rw [if_pos hfits, UInt8.ofNat_toNat]

theorem group?_toDigits {g : Nat} (hg : g < 65536) {rest : List Char}
    (hrest : digitRun 16 rest = ([], rest)) :
    group? (Nat.toDigits 16 g ++ rest) = some (g, rest) := by
  obtain ⟨ds, hrun, hvalue, hlength, -⟩ := digitRun_toDigits (by decide) (by decide) g hrest
  have hpos : 0 < (Nat.toDigits 16 g).length := Nat.length_toDigits_pos
  have hle : (Nat.toDigits 16 g).length ≤ 4 :=
    (Nat.length_toDigits_le_iff (by decide) (by decide)).mpr hg
  simp only [group?, hrun, hvalue]
  exact if_pos ⟨by omega, by omega⟩

/-- No number where no digit stands. -/
theorem group?_eq_none {cs : List Char} (h : digitRun 16 cs = ([], cs)) : group? cs = none := by
  rw [group?, h]
  rfl

/-! ### Four numbers -/

theorem quad?_quadText (o : Octets 4) {rest : List Char} (hrest : digitRun 10 rest = ([], rest)) :
    quad? (quadText o.toList ++ rest) = some (o, rest) := by
  obtain ⟨bs, hlength⟩ := o
  match bs, hlength with
  | [a, b, c, d], _ =>
    have htext : quadText [a, b, c, d] ++ rest = Nat.toDigits 10 a.toNat ++ '.' ::
        (Nat.toDigits 10 b.toNat ++ '.' :: (Nat.toDigits 10 c.toNat ++ '.' ::
          (Nat.toDigits 10 d.toNat ++ rest))) := by
      simp [quadText, joinWith, List.intercalate_cons_cons]
    rw [htext]
    simp [quad?, byte?_toDigits _ (digitRun_dot 10 _), byte?_toDigits _ hrest, given?]

theorem quad?_quadText_end (o : Octets 4) : quad? (quadText o.toList) = some (o, []) := by
  have h : quad? (quadText o.toList ++ []) = some (o, []) := quad?_quadText o rfl
  rwa [List.append_nil] at h

theorem eq_cons_of_given? {c : Char} {cs rest : List Char} (h : given? c cs = some rest) :
    cs = c :: rest := by
  unfold given? at h
  split at h
  · cases h
  · split at h
    · rename_i hd
      cases h
      rw [hd]
    · cases h

theorem suffix_byte? {cs rest : List Char} {b : UInt8} (h : byte? cs = some (b, rest)) :
    rest <:+ cs := by
  have hsuffix := suffix_digitRun 10 cs
  simp only [byte?] at h
  split at h
  · cases h
    exact hsuffix
  · cases h

/-- Nothing is an IPv4 address without a dot. -/
theorem quad?_eq_none {cs : List Char} (h : '.' ∉ cs) : quad? cs = none := by
  cases hbyte : byte? cs with
  | none => simp [quad?, hbyte]
  | some r =>
    obtain ⟨b, rest⟩ := r
    have hgiven : given? '.' rest = none := by
      rw [Option.eq_none_iff_forall_ne_some]
      intro rest' hrest
      have hmem : '.' ∈ rest := by
        rw [eq_cons_of_given? hrest]
        exact List.mem_cons_self
      exact h ((suffix_byte? hbyte).mem hmem)
    simp [quad?, hbyte, hgiven]

end BitTorrent.Address
