import BitTorrent.Proofs.Address.Text
import BitTorrent.Proofs.Bytes.Decimal
import BitTorrent.Proofs.Bytes.Percent
import BitTorrent.Proofs.Tracker.Freshness

/-! A query is read back as what it was written for. It is cut at its ampersands and each part at
its first equals sign, and the values are percent decoded. No name has a character that cuts and no
encoded value has one, so no value can add a parameter or hide one. -/

namespace BitTorrent.Tracker

/-! ### Reading -/

/-- A name up to the first equals sign, and behind it a value that is percent encoded. -/
def readParameter? (part : List Char) : Option (String × Bytes) :=
  match part.dropWhile (· ≠ '=') with
  | [] => none
  | _ :: value => (Percent.decode? value).map (String.ofList (part.takeWhile (· ≠ '=')), ·)

/-- The parameters between the ampersands. -/
def readQuery? (q : String) : Option (List (String × Bytes)) :=
  (q.toList.splitOn '&').mapM readParameter?

/-- A parameter as it stands in a query. -/
def part (p : String × Bytes) : List Char := p.1.toList ++ '=' :: Percent.encodeChars p.2

theorem toList_part (p : String × Bytes) :
    (p.1 ++ "=" ++ Percent.encode p.2).toList = part p := by
  simp [part]

variable {p : String × Bytes}

theorem readParameter?_part (h : '=' ∉ p.1.toList) : readParameter? (part p) = some p := by
  have hname : ∀ c ∈ p.1.toList, decide (c ≠ '=') := by
    intro c hc
    rw [decide_eq_true_eq]
    rintro rfl
    exact h hc
  rw [readParameter?, part, List.dropWhile_append_of_pos hname, List.takeWhile_append_of_pos hname]
  simp [Percent.decode?_encodeChars]

theorem ampersand_notMem_part (h : '&' ∉ p.1.toList) : '&' ∉ part p := by
  simp only [part, List.mem_append, List.mem_cons, not_or]
  exact ⟨h, by decide, Percent.notMem_encodeChars List.mem_cons_self p.2⟩

theorem mapM_readParameter? {ps : List (String × Bytes)} (h : ∀ p ∈ ps, '=' ∉ p.1.toList) :
    (ps.map part).mapM readParameter? = some ps := by
  induction ps with
  | nil => rfl
  | cons p ps ih =>
    obtain ⟨hp, hps⟩ := List.forall_mem_cons.mp h
    rw [List.map_cons, List.mapM_cons, readParameter?_part hp, ih hps]
    rfl

/-- The characters of a query are those of its parameters, parted by ampersands. -/
theorem toList_intercalate (ps : List (String × Bytes)) :
    ("&".intercalate (ps.map fun p => p.1 ++ "=" ++ Percent.encode p.2)).toList =
      ['&'].intercalate (ps.map part) := by
  rw [String.toList_intercalate, List.map_map]
  exact congrArg _ (List.map_congr_left fun p _ => toList_part p)

/-- Parameters are read back, if no name has a character that parts a query. -/
theorem readQuery?_intercalate {ps : List (String × Bytes)} (hne : ps ≠ [])
    (hps : ∀ p ∈ ps, '&' ∉ p.1.toList ∧ '=' ∉ p.1.toList) :
    readQuery? ("&".intercalate (ps.map fun p => p.1 ++ "=" ++ Percent.encode p.2)) = some ps := by
  have hparts : ∀ cs ∈ ps.map part, '&' ∉ cs := by
    rw [List.forall_mem_map]
    intro p hp
    exact ampersand_notMem_part (hps p hp).1
  rw [readQuery?, toList_intercalate, List.splitOn_intercalate '&' hparts (by simpa using hne)]
  exact mapM_readParameter? fun p hp => (hps p hp).2

/-! ### What is written -/

namespace Announce

/-- The names of the parameters in their order. -/
def names : List String :=
  ["info_hash", "peer_id", "port", "uploaded", "downloaded", "left", "ip", "event", "compact",
    "no_peer_id", "numwant"]

/-- What each name stands for: raw bytes, or a text. Nothing for a parameter that is left out. -/
def values (a : Announce) : List (Option Bytes) :=
  [some a.infoHash.bytes, some a.peerId.bytes, some (Bytes.ofText (toString a.port)),
    some (Bytes.ofText (toString a.uploaded)), some (Bytes.ofText (toString a.downloaded)),
    some (Bytes.ofText (toString a.left)), a.ip.map fun ip => Bytes.ofText ip.text,
    if a.event = .none then none else some (Bytes.ofText a.event.text),
    if a.compact then some (Bytes.ofText "1") else none,
    if a.noPeerId then some (Bytes.ofText "1") else none,
    if a.numWant = 50 then none else some (Bytes.ofText (toString a.numWant))]

end Announce

/-- The names that have values, with their values. -/
def present : List String → List (Option Bytes) → List (String × Bytes)
  | name :: names, value :: values => (value.map (name, ·)).toList ++ present names values
  | _, _ => []

theorem mem_present {names : List String} {values : List (Option Bytes)}
    (h : p ∈ present names values) : p.1 ∈ names := by
  fun_induction present names values with
  | case1 name names value values ih =>
    rcases List.mem_append.mp h with h | h
    · obtain ⟨v, -, rfl⟩ : ∃ v, value = some v ∧ (name, v) = p := by simpa using h
      exact List.mem_cons_self
    · exact List.mem_cons_of_mem _ (ih h)
  | case2 => cases h

/-- Names that differ keep the values apart, whichever of them are left out. -/
theorem present_inj {names : List String} (hnodup : names.Nodup) {vs ws : List (Option Bytes)}
    (hvs : vs.length = names.length) (hws : ws.length = names.length)
    (h : present names vs = present names ws) : vs = ws := by
  induction names generalizing vs ws with
  | nil => rw [List.eq_nil_of_length_eq_zero hvs, List.eq_nil_of_length_eq_zero hws]
  | cons name names ih =>
    obtain ⟨hname, hnodup⟩ := List.nodup_cons.mp hnodup
    obtain ⟨v, vs, rfl⟩ := List.exists_cons_of_length_eq_add_one hvs
    obtain ⟨w, ws, rfl⟩ := List.exists_cons_of_length_eq_add_one hws
    have hahead : ∀ (x : Bytes) (values : List (Option Bytes)), (name, x) ∉ present names values :=
      fun x values hmem => hname (mem_present hmem)
    have hrest : present names vs = present names ws → vs = ws :=
      ih hnodup (Nat.succ.inj hvs) (Nat.succ.inj hws)
    cases v with
    | none =>
      cases w with
      | none => rw [hrest h]
      | some y =>
        have hcons : present names vs = (name, y) :: present names ws := h
        exact absurd (hcons ▸ List.mem_cons_self) (hahead y vs)
    | some x =>
      cases w with
      | none =>
        have hcons : (name, x) :: present names vs = present names ws := h
        exact absurd (hcons ▸ List.mem_cons_self) (hahead x ws)
      | some y =>
        obtain ⟨hpair, htail⟩ := List.cons.inj h
        rw [(Prod.mk.inj hpair).2, hrest htail]

theorem Event.text_inj {e e' : Event} (h : e.text = e'.text) : e = e' := by
  revert h
  cases e <;> cases e' <;> decide

namespace Announce

theorem parameters_eq (a : Announce) : a.parameters = present names a.values := by
  have hport : Bytes.ofText (toString a.port) = Decimal.ofNat a.port.toNat :=
    Decimal.ofText_toString _
  have huploaded : Bytes.ofText (toString a.uploaded) = Decimal.ofNat a.uploaded.toNat :=
    Decimal.ofText_toString _
  have hdownloaded : Bytes.ofText (toString a.downloaded) = Decimal.ofNat a.downloaded.toNat :=
    Decimal.ofText_toString _
  have hleft : Bytes.ofText (toString a.left) = Decimal.ofNat a.left.toNat :=
    Decimal.ofText_toString _
  have hone : Bytes.ofText "1" = Decimal.ofNat 1 := Decimal.ofText_toString 1
  have hnumWant : Bytes.ofText (toString a.numWant) = Decimal.ofInt a.numWant.toInt :=
    Decimal.ofText_toString_int _
  rw [parameters, values, hport, huploaded, hdownloaded, hleft, hone, hnumWant]
  simp only [names, present, Parameters.defaultNumWant, apply_ite (Option.map _),
    apply_ite Option.toList, Option.map_some, Option.map_none, Option.toList_some,
    Option.toList_none, Option.toList_map, Option.map_map, List.cons_append, List.nil_append,
    List.append_nil, List.append_assoc]
  rfl

/-- What is left out at one value only is that value where it is left out. -/
theorem ite_none_inj {α β : Type} [DecidableEq α] {f : α → β} (hf : ∀ {x y}, f x = f y → x = y)
    {d x y : α}
    (h : (if x = d then none else some (f x)) = if y = d then none else some (f y)) : x = y := by
  split at h <;> split at h
  · rename_i hx hy
    rw [hx, hy]
  · cases h
  · cases h
  · exact hf (Option.some.inj h)

theorem flag_inj {β : Type} {v : β} {x y : Bool}
    (h : (if x then some v else none) = if y then some v else none) : x = y := by
  have hflag : ∀ b : Bool, (if b then some v else none).isSome = b := by
    intro b
    cases b <;> rfl
  rw [← hflag x, h, hflag y]

theorem values_inj {a b : Announce} (h : a.values = b.values) : a = b := by
  simp only [values, List.cons.injEq, Option.some.injEq, and_true] at h
  obtain ⟨hinfoHash, hpeerId, hport, huploaded, hdownloaded, hleft, hip, hevent, hcompact,
    hnoPeerId, hnumWant⟩ := h
  have hip' : a.ip = b.ip := Option.map_injective
    (fun _ _ h => Address.text_inj (Bytes.ofText_inj h)) hip
  have hnumWant' : a.numWant = b.numWant :=
    ite_none_inj (fun h => Int32.toInt_inj.mp (Decimal.int_of_ofText_eq h)) hnumWant
  have hevent' : a.event = b.event :=
    ite_none_inj (fun h => Event.text_inj (Bytes.ofText_inj h)) hevent
  obtain ⟨⟨_⟩, ⟨_⟩, _⟩ := a
  obtain ⟨⟨_⟩, ⟨_⟩, _⟩ := b
  simp only [Announce.mk.injEq, InfoHash.mk.injEq, PeerId.mk.injEq]
  exact ⟨Octets.ext hinfoHash, Octets.ext hpeerId, hip',
    UInt16.toNat_inj.mp (Decimal.nat_of_ofText_eq hport),
    UInt64.toNat_inj.mp (Decimal.nat_of_ofText_eq huploaded),
    UInt64.toNat_inj.mp (Decimal.nat_of_ofText_eq hdownloaded),
    UInt64.toNat_inj.mp (Decimal.nat_of_ofText_eq hleft), hevent', flag_inj hcompact,
    flag_inj hnoPeerId, hnumWant'⟩

theorem readQuery?_query (a : Announce) : readQuery? a.query = some (present names a.values) := by
  have hne : a.parameters ≠ [] := by simp [parameters]
  have hnames : ∀ name ∈ names, '&' ∉ name.toList ∧ '=' ∉ name.toList := by decide
  rw [query, readQuery?_intercalate hne, parameters_eq]
  intro p hp
  rw [parameters_eq] at hp
  exact hnames _ (mem_present hp)

theorem query_inj {a b : Announce} (h : a.query = b.query) : a = b := by
  have hread := readQuery?_query a
  rw [h, readQuery?_query b] at hread
  exact (values_inj (present_inj (by decide) rfl rfl (Option.some.inj hread))).symm

end Announce

/-! ### Requests -/

/-- However a request came about, its query is read back as its fields, each under its name and in
the order of the names, and as nothing else. So requests that differ in a field have different
queries. -/
theorem readQuery?_of_run (infoHash : InfoHash) (peerId : PeerId) (turns : List Turn) :
    ∀ r ∈ (run Request.call [.new infoHash peerId] turns).2,
      readQuery? r.query.1 = some (present Announce.names r.announce.values) ∧
      ∀ infoHash' peerId' turns', ∀ r' ∈ (run Request.call [.new infoHash' peerId'] turns').2,
        r.announce ≠ r'.announce → r.query.1 ≠ r'.query.1 := by
  intro r hr
  rw [(Request.fresh_of_mem_run hr).fst_query]
  refine ⟨r.announce.readQuery?_query, ?_⟩
  intro infoHash' peerId' turns' r' hr' hne heq
  rw [(Request.fresh_of_mem_run hr').fst_query] at heq
  exact hne (Announce.query_inj heq)

/-- Separators and percent signs within an info hash, an IPv6 address, and fewer than no peers. -/
theorem readQuery?_of_run_of_separators :
    let infoHash : InfoHash := ⟨⟨[0x26, 0x3d, 0x25] ++ List.replicate 17 0xff, rfl⟩⟩
    let peerId : PeerId := ⟨.zero 20⟩
    let turns : List Turn := [.call 0 (.set (.ip (some (.v6 (.zero 16))))), .call 0 .query,
      .call 0 (.set (.numWant (-1))), .clone 0, .call 1 (.set (.event .stopped))]
    let a : Announce :=
      { Announce.initial infoHash peerId with ip := some (.v6 (.zero 16)), numWant := -1 }
    let r : Request := ⟨a, none⟩
    let r' : Request := ⟨{ a with event := .stopped }, none⟩
    (run Request.call [.new infoHash peerId] turns).2 = [r, r'] ∧
      readQuery? r.query.1 = some [("info_hash", infoHash.bytes), ("peer_id", peerId.bytes),
        ("port", Bytes.ofText "6881"), ("uploaded", Bytes.ofText "0"),
        ("downloaded", Bytes.ofText "0"), ("left", Bytes.ofText "0"), ("ip", Bytes.ofText "::"),
        ("numwant", Bytes.ofText "-1")] ∧
      r.query.1 ≠ r'.query.1 := by
  intro infoHash peerId turns a r r'
  have hrs : (run Request.call [.new infoHash peerId] turns).2 = [r, r'] := by decide +kernel
  obtain ⟨hread, hdiffer⟩ := readQuery?_of_run infoHash peerId turns r (by simp [hrs])
  refine ⟨hrs, hread.trans (by decide +kernel), ?_⟩
  exact hdiffer infoHash peerId turns r' (by simp [hrs]) (by decide +kernel)

end BitTorrent.Tracker
