import BitTorrent.Proofs.Bencode.Delimiting

/-! What the options of the reader change. Under a lower depth limit a result is what it was, be it
a value or an error, or is that the input is nested too deep; and an accepted input has a number of
containers open at once that alone decides which limits let it pass. Whether lengths must be exact
makes a difference to one kind of input only, a byte string that goes on after its declared length,
and to none inside of a container. -/

namespace BitTorrent.Bencode

open ParseTree

/-! ### Results under a lower limit -/

/-- The first result is the second, or that the input is nested too deep. -/
def UpToDepth {α : Type} (x y : Except Error α) : Prop := x = y ∨ x = .error .nestingTooDeep

namespace UpToDepth

variable {α β : Type} {x y : Except Error α} {f g : Nat → Bytes → Except Error Value}

theorem refl (x : Except Error α) : UpToDepth x x := .inl rfl

theorem bind {p q : α → Except Error β} (h : UpToDepth x y) (hpq : ∀ a, UpToDepth (p a) (q a)) :
    UpToDepth (x >>= p) (y >>= q) := by
  rcases h with rfl | rfl
  · cases x with
    | error e => exact refl _
    | ok a => exact hpq a
  · exact .inr rfl

theorem map (h : UpToDepth x y) (p : α → β) : UpToDepth (p <$> x) (p <$> y) := by
  rcases h with rfl | rfl
  · exact refl _
  · exact .inr rfl

theorem items (h : ∀ pos token, UpToDepth (f pos token) (g pos token)) (pos : Nat) (body : Bytes) :
    UpToDepth (items f pos body) (items g pos body) := by
  fun_induction Bencode.items f pos body with
  | case1 => rw [Bencode.items]; exact refl _
  | case2 => rw [Bencode.items]; exact refl _
  | case3 pos b tail hne ih =>
    rw [items_cons hne]
    exact (refl _).bind fun n => (h _ _).bind fun v => (ih n).bind fun vs => refl _

theorem entries (h : ∀ pos token, UpToDepth (f pos token) (g pos token)) (pos : Nat)
    (body : Bytes) : UpToDepth (entries f pos body) (entries g pos body) := by
  fun_induction Bencode.entries f pos body with
  | case1 => rw [Bencode.entries]; exact refl _
  | case2 => rw [Bencode.entries]; exact refl _
  | case3 pos b tail hne ih =>
    rw [Bencode.entries]
    · refine (refl _).bind fun head => ?_
      obtain ⟨k, n⟩ := head
      dsimp only
      split
      · exact refl _
      · exact refl _
      · rename_i c more hmore hdrop
        exact (refl _).bind fun m => (h _ _).bind fun v =>
          (ih n c more hdrop m).bind fun es => refl _
    · exact hne

end UpToDepth

/-- The limit is met on the way into a container, by induction on how many may still be open. -/
theorem upToDepth_value {m n : Nat} (h : m ≤ n) (pos : Nat) (token : Bytes) :
    UpToDepth (value m pos token) (value n pos token) := by
  induction m generalizing n pos token with
  | zero =>
    cases token with
    | nil => cases n <;> exact .refl _
    | cons b w =>
      cases hlead : Lead.of b with
      | list => exact .inr (by simp only [value, hlead])
      | dict => exact .inr (by simp only [value, hlead])
      | _ => exact .inl (by cases n <;> simp only [value, hlead])
  | succ m ih =>
    obtain ⟨n, rfl⟩ : ∃ n', n = n' + 1 := ⟨n - 1, by omega⟩
    have hinner (pos : Nat) (token : Bytes) : UpToDepth (value m pos token) (value n pos token) :=
      ih (Nat.le_of_succ_le_succ h) pos token
    cases token with
    | nil => exact .refl _
    | cons b w =>
      cases hlead : Lead.of b with
      | list =>
        simp only [value, hlead]
        exact (UpToDepth.items hinner (pos + 1) w).map _
      | dict =>
        simp only [value, hlead]
        exact (UpToDepth.entries hinner (pos + 1) w).map _
      | _ => exact .inl (by simp only [value, hlead])

/-- Whatever is refused or accepted before the first element is read is so under every limit. -/
theorem upToDepth_decode (exact : Bool) {m n : Nat} (h : m ≤ n) (data : Bytes) :
    UpToDepth ((Options.mk exact m).decode data) ((Options.mk exact n).decode data) := by
  have hcontainer {b : UInt8} {w : Bytes} (hlead : Lead.of b = .list ∨ Lead.of b = .dict) :
      UpToDepth ((Options.mk exact m).decode (b :: w)) ((Options.mk exact n).decode (b :: w)) := by
    rw [decode_container hlead, decode_container hlead]
    refine (UpToDepth.refl _).bind fun stop => ?_
    split
    · exact .refl _
    · exact upToDepth_value (Nat.succ_le_succ h) 0 (b :: w)
  cases data with
  | nil => exact .refl _
  | cons b w =>
    cases hlead : Lead.of b with
    | list => exact hcontainer (.inl hlead)
    | dict => exact hcontainer (.inr hlead)
    | _ => exact .inl (by simp only [Options.decode, hlead])

/-! ### Byte strings longer than declared -/

/-- A byte string that goes on after as many bytes as it declares. All that follows the colon is
`payload`. -/
def Overlong (data payload : Bytes) (declared : Nat) : Prop :=
  ∃ l : Numeral, data = l.digits ++ 0x3a :: payload ∧ l.value = declared ∧ declared < 2 ^ 64 ∧
    declared < payload.length

section Overlong

variable {data payload : Bytes} {declared : Nat}

theorem decode_digit {b : UInt8} {d : Nat} (hlead : Lead.of b = .digit d) (options : Options)
    (w : Bytes) : options.decode (b :: w) =
      Value.bytes <$> ByteString.payload options.exactLength (b :: w) := by
  simp only [Options.decode, hlead]

theorem payload_of_lengthPrefix {n read : Nat}
    (h : ByteString.lengthPrefix 0 data = .ok (n, read, payload)) (exact : Bool) :
    ByteString.payload exact data =
      if payload.length < n ∨ (exact ∧ payload.length ≠ n) then
        .error (.lengthMismatch n payload.length) else .ok payload := by
  rw [ByteString.payload, h, ok_bind]

theorem Overlong.decode (h : Overlong data payload declared) (options : Options) :
    options.decode data = if options.exactLength then
      .error (.lengthMismatch declared payload.length) else .ok (.bytes payload) := by
  obtain ⟨l, rfl, rfl, hlimit, hlt⟩ := h
  have hprefix : ByteString.lengthPrefix 0 (l.digits ++ 0x3a :: payload) =
      .ok (l.value, l.digits.length + 1, payload) :=
    ByteString.lengthPrefix_eq_ok_iff.mpr ⟨l, rfl, rfl, hlimit, rfl⟩
  obtain ⟨b, ds, hds⟩ := List.exists_cons_of_ne_nil l.ne_nil
  have hlead := Lead.of_isDigit (l.isDigit b (by simp [hds]))
  have hdecode := decode_digit hlead options (ds ++ 0x3a :: payload)
  rw [← List.cons_append, ← hds, payload_of_lengthPrefix hprefix] at hdecode
  rw [hdecode]
  cases options.exactLength with
  | false => rw [if_neg (by simp; omega)]; rfl
  | true => rw [if_pos (.inr ⟨rfl, by omega⟩)]; rfl

/-- Only for these strings does it matter whether lengths must be exact. -/
theorem overlong_or_decode_eq (data : Bytes) :
    (∃ payload declared, Overlong data payload declared) ∨
      ∀ m, (Options.mk false m).decode data = (Options.mk true m).decode data := by
  cases data with
  | nil => exact .inr fun _ => rfl
  | cons b w =>
    cases hlead : Lead.of b with
    | digit d =>
      cases hprefix : ByteString.lengthPrefix 0 (b :: w) with
      | error e =>
        refine .inr fun m => ?_
        rw [decode_digit hlead, decode_digit hlead, ByteString.payload, ByteString.payload, hprefix]
        rfl
      | ok read =>
        obtain ⟨declared, read, payload⟩ := read
        obtain ⟨l, hdata, hdeclared, hlimit, -⟩ := ByteString.lengthPrefix_eq_ok_iff.mp hprefix
        by_cases hlt : declared < payload.length
        · exact .inl ⟨payload, declared, l, hdata, hdeclared, hlimit, hlt⟩
        · refine .inr fun m => ?_
          have hshort : payload.length ≠ declared ↔ payload.length < declared := by omega
          simp only [decode_digit hlead, payload_of_lengthPrefix hprefix, hshort,
            Bool.false_eq_true, false_and, true_and, or_false, or_self]
    | _ => exact .inr fun m => by simp only [Options.decode, hlead]

end Overlong

/-! ### Containers open at once -/

/-- The bytes are a value in which `k` is the largest number of containers open at once, those
under a key that comes again included, or a byte string longer than declared. -/
inductive OpenAtOnce : Bytes → Nat → Prop
  | derived (t : ParseTree) : OpenAtOnce t.text t.depth
  | overlong {data payload : Bytes} {declared : Nat} (h : Overlong data payload declared) :
    OpenAtOnce data 0

theorem Overlong.ne_text {data payload : Bytes} {declared : Nat}
    (h : Overlong data payload declared) (t : ParseTree) : t.text ≠ data := by
  rintro rfl
  have hdecode := h.decode ⟨true, t.depth⟩
  rw [decode_text, withinDepth, if_pos (Nat.le_succ _)] at hdecode
  cases hdecode

theorem OpenAtOnce.unique {data : Bytes} {k n : Nat} (hk : OpenAtOnce data k)
    (hn : OpenAtOnce data n) : k = n := by
  have hle {t u : ParseTree} (h : t.text = u.text) : t.depth ≤ u.depth := by
    have hvalue := value_text u u.depth 0
    rw [← h, value_text, withinDepth, withinDepth, if_pos (Nat.le_refl _)] at hvalue
    by_contra hlt
    rw [if_neg hlt] at hvalue
    cases hvalue
  generalize hdata : data = data' at hn
  cases hk with
  | derived t =>
    cases hn with
    | derived u => exact Nat.le_antisymm (hle hdata) (hle hdata.symm)
    | overlong h => exact absurd hdata (h.ne_text t)
  | overlong h =>
    cases hn with
    | derived u => exact absurd hdata.symm (h.ne_text u)
    | overlong _ => rfl

/-- How many containers an accepted input has open at once decides which limits let it pass. -/
theorem exists_openAtOnce {exact : Bool} {m : Nat} {data : Bytes} {v : Value}
    (h : (Options.mk exact m).decode data = .ok v) :
    ∃ k, OpenAtOnce data k ∧
      ∀ n, (Options.mk exact n).decode data = withinDepth (n + 1) k v := by
  have hderived (h : (Options.mk true m).decode data = .ok v) : ∃ k, OpenAtOnce data k ∧
      ∀ exact n, (Options.mk exact n).decode data = withinDepth (n + 1) k v := by
    obtain ⟨t, rfl, rfl, -⟩ := exists_of_decode rfl h
    exact ⟨t.depth, .derived t, fun exact n => decode_text ⟨exact, n⟩ t⟩
  cases exact with
  | true =>
    obtain ⟨k, hk, hall⟩ := hderived h
    exact ⟨k, hk, hall true⟩
  | false =>
    rcases overlong_or_decode_eq data with ⟨payload, declared, hover⟩ | hsame
    · rw [hover.decode] at h
      cases h
      refine ⟨0, .overlong hover, fun n => ?_⟩
      rw [hover.decode]
      exact (if_pos (Nat.zero_le _)).symm
    · rw [hsame] at h
      obtain ⟨k, hk, hall⟩ := hderived h
      exact ⟨k, hk, hall false⟩

/-! ### The options -/

/-- Under a lower limit a result is the same or that the input is nested too deep. An accepted input
passes under a limit exactly when no more containers are open in it at once than one more than the
limit. Whether lengths must be exact matters to a byte string longer than declared alone, which is
refused or is answered in full. A container is accepted only if the grammar derives it, where every
string has the length that it declares. -/
theorem decode_options (data : Bytes) :
    (∀ exact m n, m ≤ n → (Options.mk exact m).decode data = (Options.mk exact n).decode data ∨
        (Options.mk exact m).decode data = .error .nestingTooDeep) ∧
    (∀ exact m v, (Options.mk exact m).decode data = .ok v →
      ∃ k, (∀ k', OpenAtOnce data k' ↔ k' = k) ∧ ∀ n, (Options.mk exact n).decode data =
        if k ≤ n + 1 then .ok v else .error .nestingTooDeep) ∧
    (∀ m, ((¬∃ payload declared, Overlong data payload declared) →
        (Options.mk false m).decode data = (Options.mk true m).decode data) ∧
      ∀ payload declared, Overlong data payload declared →
        (Options.mk false m).decode data = .ok (.bytes payload) ∧
        (Options.mk true m).decode data = .error (.lengthMismatch declared payload.length)) ∧
    (data.head? = some 0x6c ∨ data.head? = some 0x64 → ∀ exact m v,
      (Options.mk exact m).decode data = .ok v ↔
        ∃ t : ParseTree, t.text = data ∧ t.value = v ∧ t.depth ≤ m + 1) := by
  refine ⟨fun exact m n h => upToDepth_decode exact h data, fun exact m v h => ?_,
    fun m => ⟨?_, ?_⟩, fun hhead exact m v => ?_⟩
  · obtain ⟨k, hk, hall⟩ := exists_openAtOnce h
    exact ⟨k, fun k' => ⟨fun hk' => hk'.unique hk, fun heq => heq ▸ hk⟩, hall⟩
  · intro hnot
    exact (overlong_or_decode_eq data).resolve_left hnot m
  · intro payload declared h
    exact ⟨h.decode ⟨false, m⟩, h.decode ⟨true, m⟩⟩
  · cases data with
    | nil => simp at hhead
    | cons b w =>
      have hlead := Lead.of_head? hhead
      constructor
      · intro h
        rw [decode_container hlead, ← decode_container hlead ⟨true, m⟩] at h
        exact exists_of_decode rfl h
      · rintro ⟨t, htext, rfl, hdepth⟩
        rw [← htext, decode_text, withinDepth, if_pos hdepth]

/-- Four containers open at once under a key whose later value is an empty list, and a byte string
with one byte more than it declares. -/
theorem decode_options_of_repeated :
    let data := Bytes.ofText "d1:allleee1:alee"
    (Options.mk true 3).decode data = .ok (.dict ⟨[([0x61], .list [])]⟩) ∧
      (Options.mk true 2).decode data = .error .nestingTooDeep ∧
      (Options.mk false 0).decode (Bytes.ofText "1:ab") = .ok (.bytes [0x61, 0x62]) ∧
      (Options.mk true 0).decode (Bytes.ofText "1:ab") = .error (.lengthMismatch 1 2) := by
  let a : StringForm := .ofPayload [0x61] (by decide)
  let t : ParseTree := .dict [(a, .list [.list [.list []]]), (a, .list [])]
  have htext : t.text = Bytes.ofText "d1:allleee1:alee" := by decide +kernel
  obtain ⟨-, hdepth, -, hcontainer⟩ := decode_options (Bytes.ofText "d1:allleee1:alee")
  have hok : (Options.mk true 3).decode (Bytes.ofText "d1:allleee1:alee") =
      .ok (.dict ⟨[([0x61], .list [])]⟩) :=
    (hcontainer (by decide +kernel) true 3 _).mpr ⟨t, htext, by decide +kernel, by decide +kernel⟩
  obtain ⟨k, hk, hall⟩ := hdepth true 3 _ hok
  obtain rfl : 4 = k := (hk 4).mp (htext ▸ OpenAtOnce.derived t)
  obtain ⟨-, -, hlengths, -⟩ := decode_options (Bytes.ofText "1:ab")
  have hover : Overlong (Bytes.ofText "1:ab") [0x61, 0x62] 1 :=
    ⟨.ofNat 1, by decide +kernel, by decide +kernel, by decide, by decide⟩
  obtain ⟨hfast, hexact⟩ := (hlengths 0).2 _ _ hover
  exact ⟨hok, hall 2, hfast, hexact⟩

end BitTorrent.Bencode
