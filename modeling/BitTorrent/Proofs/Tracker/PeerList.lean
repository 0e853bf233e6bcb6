import BitTorrent.Proofs.Bencode.Value
import BitTorrent.Proofs.Bytes.BigEndian
import BitTorrent.Proofs.Except
import BitTorrent.Tracker.PeerList
import Mathlib.Data.List.Forall2

/-! Lists of peers. A compact list is the bytes of some endpoints one after the other, and is read
as these endpoints in this order; a list of dictionaries is read as one peer for each of them. What
is refused is of a wrong size, of a wrong kind, or has a first entry that does not name a
peer, and the flaw tells which. -/

namespace BitTorrent

/-! ### Compact lists -/

/-- Records are cut off again as they were put together. -/
theorem records_flatMap {n : Nat} (rs : List (Octets (n + 1))) :
    records n (rs.flatMap Octets.toList) = rs := by
  induction rs with
  | nil =>
    rw [records, dif_neg]
    simp
  | cons r rs ih =>
    have hlen : n + 1 ≤ (r.toList ++ rs.flatMap Octets.toList).length := by
      rw [List.length_append, r.length_toList]
      omega
    have hslice : Octets.slice (n + 1) 0 (r.toList ++ rs.flatMap Octets.toList) (by omega) = r :=
      Octets.slice_eq [] _ rfl rfl _
    rw [List.flatMap_cons, records, dif_pos (Bytes.hasAtLeast_eq_true_iff.mpr hlen),
      List.drop_left' r.length_toList, ih]
    exact congrArg (· :: rs) hslice

/-- The address and the port in network order. -/
def Endpoint.bytes (e : Endpoint) : Bytes := e.address.bytes ++ BigEndian.encode 2 e.port.toNat

namespace Tracker.Peer

open Bencode

/-- The peer at an endpoint, of which nothing else is known. -/
def ofEndpoint (e : Endpoint) : Peer := ⟨none, e.address.text, e.port⟩

section Compact

variable {n : Nat} (family : Octets n → Address)

/-- The bytes list some endpoints of one family, and the peers are at these, in order. -/
def Compact (b : Bytes) (ps : List Peer) : Prop :=
  ∃ es : List (Octets n × UInt16),
    b = es.flatMap (fun e => Endpoint.bytes ⟨family e.1, e.2⟩) ∧
      ps = es.map fun e => ofEndpoint ⟨family e.1, e.2⟩

variable {family}

theorem bytes_endpoint (hfamily : ∀ o, (family o).bytes = o.toList) (o : Octets n) (port : UInt16) :
    Endpoint.bytes ⟨family o, port⟩ = o.toList ++ BigEndian.encode 2 port.toNat := by
  rw [Endpoint.bytes, hfamily]

theorem length_bytes_endpoint (hfamily : ∀ o, (family o).bytes = o.toList) (o : Octets n)
    (port : UInt16) : (Endpoint.bytes ⟨family o, port⟩).length = n + 2 := by
  rw [bytes_endpoint hfamily, List.length_append, o.length_toList, BigEndian.length_encode]

/-- Every record is the bytes of one endpoint, and is read as the peer there. -/
theorem exists_endpoint (hfamily : ∀ o, (family o).bytes = o.toList) (r : Octets (n + 2)) :
    ∃ e : Octets n × UInt16, r.toList = Endpoint.bytes ⟨family e.1, e.2⟩ ∧
      ofRecord family r = ofEndpoint ⟨family e.1, e.2⟩ := by
  have hport : (r.toList.drop n).length = 2 := by
    rw [List.length_drop, r.length_toList]
    omega
  have hlt := BigEndian.decode_lt (r.toList.drop n)
  rw [hport] at hlt
  refine ⟨⟨.slice n 0 r.toList (by simp [r.length_toList]),
    UInt16.ofNat (BigEndian.decode (r.toList.drop n))⟩, ?_, rfl⟩
  have hword : (UInt16.ofNat (BigEndian.decode (r.toList.drop n))).toNat =
      BigEndian.decode (r.toList.drop n) := UInt16.toNat_ofNat_of_lt' hlt
  have hencode := BigEndian.encode_decode (r.toList.drop n)
  rw [hport] at hencode
  rw [bytes_endpoint hfamily, hword, hencode]
  exact (List.take_append_drop n r.toList).symm

/-- The bytes of an endpoint are a record, and it is read as the peer there. -/
theorem exists_record (hfamily : ∀ o, (family o).bytes = o.toList) (e : Octets n × UInt16) :
    ∃ r : Octets (n + 2), r.toList = Endpoint.bytes ⟨family e.1, e.2⟩ ∧
      ofRecord family r = ofEndpoint ⟨family e.1, e.2⟩ := by
  obtain ⟨o, port⟩ := e
  have hbytes := bytes_endpoint hfamily o port
  have hlen := length_bytes_endpoint hfamily o port
  rw [hbytes] at hlen
  have hslice : Octets.slice n 0 (o.toList ++ BigEndian.encode 2 port.toNat) (by omega) = o :=
    Octets.slice_eq [] _ rfl rfl _
  refine ⟨⟨o.toList ++ BigEndian.encode 2 port.toNat, hlen⟩, hbytes.symm, ?_⟩
  simp only [ofRecord, ofAddress, ofEndpoint, hslice, List.drop_left' o.length_toList]
  rw [BigEndian.decode_encode port.toNat_lt, UInt16.ofNat_toNat]

/-- A string is cut into records exactly if it lists endpoints, and what is read are their peers. -/
theorem compact_iff (hfamily : ∀ o, (family o).bytes = o.toList) {b : Bytes} {ps : List Peer} :
    Compact family b ps ↔
      b.length % (n + 2) = 0 ∧ (records (n + 1) b).map (ofRecord family) = ps := by
  constructor
  · rintro ⟨es, rfl, rfl⟩
    obtain ⟨rs, hbytes, hpeers⟩ : ∃ rs : List (Octets (n + 2)),
        rs.flatMap Octets.toList = es.flatMap (fun e => Endpoint.bytes ⟨family e.1, e.2⟩) ∧
          rs.map (ofRecord family) = es.map fun e => ofEndpoint ⟨family e.1, e.2⟩ := by
      induction es with
      | nil => exact ⟨[], rfl, rfl⟩
      | cons e es ih =>
        obtain ⟨rs, hbytes, hpeers⟩ := ih
        obtain ⟨r, hr, hp⟩ := exists_record hfamily e
        exact ⟨r :: rs, by rw [List.flatMap_cons, List.flatMap_cons, hr, hbytes],
          by rw [List.map_cons, List.map_cons, hp, hpeers]⟩
    have hsize : (rs.flatMap Octets.toList).length = (n + 2) * rs.length := by
      simp [List.length_flatMap, Octets.length_toList, Nat.mul_comm]
    rw [← hbytes]
    refine ⟨?_, ?_⟩
    · rw [hsize, Nat.mul_mod_right]
    · rw [records_flatMap, hpeers]
  · rintro ⟨hsize, rfl⟩
    rw [Compact, ← flatMap_records hsize, records_flatMap]
    induction records (n + 1) b with
    | nil => exact ⟨[], rfl, rfl⟩
    | cons r rs ih =>
      obtain ⟨es, hbytes, hpeers⟩ := ih
      obtain ⟨e, he, hp⟩ := exists_endpoint hfamily r
      exact ⟨e :: es, by rw [List.flatMap_cons, List.flatMap_cons, he, hbytes],
        by rw [List.map_cons, List.map_cons, hp, hpeers]⟩

theorem ofBytes?_toList (r : Octets (n + 2)) :
    ofBytes? family r.toList = some (ofRecord family r) := by
  rw [ofBytes?, Octets.ofBytes?_toList, Option.map_some]

/-- No record that is cut off is left out. -/
theorem filterMap_ofBytes? (rs : List (Octets (n + 2))) :
    (rs.filterMap fun r => ofBytes? family r.toList) = rs.map (ofRecord family) := by
  simp only [ofBytes?_toList, List.filterMap_eq_map']

/-- A list that is refused for its size alone is read exactly if it lists endpoints. -/
theorem listOfBytes_eq_ok_iff (hfamily : ∀ o, (family o).bytes = o.toList) {b : Bytes}
    {ps : List Peer} {flaw : Nat → PeerListFlaw} :
    listOfBytes family flaw b = .ok ps ↔ Compact family b ps := by
  rw [compact_iff hfamily, listOfBytes, filterMap_ofBytes?]
  by_cases h : b.length % (n + 2) = 0 <;> simp [h]

end Compact

theorem listOfBytes4_eq_ok_iff {b : Bytes} {ps : List Peer} :
    listOfBytes4 b = .ok ps ↔ Compact .v4 b ps :=
  listOfBytes_eq_ok_iff fun _ => rfl

theorem listOfBytes6_eq_ok_iff {b : Bytes} {ps : List Peer} :
    listOfBytes6 b = .ok ps ↔ Compact .v6 b ps :=
  listOfBytes_eq_ok_iff fun _ => rfl

/-! ### Lists of dictionaries -/

/-- What the dictionary of a peer says: an address or host name, a port of 16 bits, and the peer's
id if there is a byte string for it. -/
structure Describes (d : Dict Value) (p : Peer) : Prop where
  ip : d.HasText "ip" p.ip
  port : d.HasNat "port" p.port.toNat
  id (b : Bytes) : p.id = some b ↔ d.HasBytes "peer id" b

def Named (v : Value) (p : Peer) : Prop := ∃ d, v = .dict d ∧ Describes d p

/-- The first thing that keeps a value from naming a peer. -/
inductive Unnamed : Value → EntryFlaw → Prop
  | notDict {v : Value} : (∀ d, v ≠ .dict d) → Unnamed v .notDict
  | missingIp {d : Dict Value} : (∀ s, ¬d.HasText "ip" s) → Unnamed (.dict d) .missingIp
  | badPort {d : Dict Value} {ip : String} : d.HasText "ip" ip →
    (∀ port < 2 ^ 16, ¬d.HasNat "port" port) → Unnamed (.dict d) .badPort

theorem ofValue_of_named {v : Value} {p : Peer} (h : Named v p) : ofValue v = .ok p := by
  obtain ⟨d, rfl, hp⟩ := h
  have hip := Dict.bind_text?_eq_some_iff.mpr hp.ip
  have hport : (d.get? (Bytes.ofText "port")).bind (Value.natBelow? (Nat.pow 2 16)) =
      some p.port.toNat := Dict.bind_natBelow?_eq_some_iff.mpr ⟨p.port.toNat_lt, hp.port⟩
  have hid : (d.get? (Bytes.ofText "peer id")).bind Value.bytes? = p.id := by
    ext b
    exact Dict.bind_bytes?_eq_some_iff.trans (hp.id b).symm
  simp only [ofValue, Value.dict?, hip, hport, hid, UInt16.ofNat_toNat]

theorem ofValue_of_unnamed {v : Value} {f : EntryFlaw} (h : Unnamed v f) :
    ofValue v = .error f := by
  cases h with
  | notDict hv =>
    have hnone : v.dict? = none := by
      rw [Option.eq_none_iff_forall_ne_some]
      exact fun d hd => hv d (Value.dict?_eq_some_iff.mp hd)
    rw [ofValue, hnone]
  | missingIp hip =>
    have hnone := Dict.bind_text?_eq_none_iff.mpr hip
    simp only [ofValue, Value.dict?, hnone]
  | @badPort d ip hip hport =>
    have hsome := Dict.bind_text?_eq_some_iff.mpr hip
    have hnone : (d.get? (Bytes.ofText "port")).bind (Value.natBelow? (Nat.pow 2 16)) = none :=
      Dict.bind_natBelow?_eq_none_iff.mpr hport
    simp only [ofValue, Value.dict?, hsome, hnone]

/-- Every value names a peer or has a flaw. -/
theorem named_or_unnamed (v : Value) : (∃ p, Named v p) ∨ ∃ f, Unnamed v f := by
  by_cases hdict : ∃ d, v = .dict d
  · obtain ⟨d, rfl⟩ := hdict
    by_cases hip : ∃ ip, d.HasText "ip" ip
    · obtain ⟨ip, hip⟩ := hip
      by_cases hport : ∃ port < 2 ^ 16, d.HasNat "port" port
      · obtain ⟨port, hlt, hport⟩ := hport
        have hword : (UInt16.ofNat port).toNat = port := UInt16.toNat_ofNat_of_lt' hlt
        refine .inl ⟨⟨(d.get? (Bytes.ofText "peer id")).bind Value.bytes?, ip, .ofNat port⟩,
          d, rfl, hip, ?_, fun b => Dict.bind_bytes?_eq_some_iff⟩
        rwa [hword]
      · exact .inr ⟨.badPort, .badPort hip fun port hlt h => hport ⟨port, hlt, h⟩⟩
    · exact .inr ⟨.missingIp, .missingIp fun ip h => hip ⟨ip, h⟩⟩
  · exact .inr ⟨.notDict, .notDict fun d h => hdict ⟨d, h⟩⟩

theorem listFrom_of_named {vs : List Value} {ps : List Peer} (h : List.Forall₂ Named vs ps)
    (index : Nat) : listFrom index vs = .ok ps := by
  induction h generalizing index with
  | nil => rfl
  | cons hp _ ih =>
    rw [listFrom, ofValue_of_named hp, mapError_ok, ok_bind, ih, ok_bind]
    rfl

/-- The first entry that does not name a peer is told by its index, whatever comes after it. -/
theorem listFrom_of_unnamed {before after : List Value} {v : Value} {f : EntryFlaw}
    (hbefore : ∀ w ∈ before, ∃ p, Named w p) (h : Unnamed v f) (index : Nat) :
    listFrom index (before ++ v :: after) =
      .error (.malformedPeerList (.entry (index + before.length) f)) := by
  induction before generalizing index with
  | nil =>
    rw [List.nil_append, listFrom, ofValue_of_unnamed h]
    rfl
  | cons w before ih =>
    obtain ⟨⟨p, hp⟩, hbefore⟩ := List.forall_mem_cons.mp hbefore
    rw [List.cons_append, listFrom, ofValue_of_named hp, mapError_ok, ok_bind, ih hbefore,
      List.length_cons, Nat.add_right_comm, Nat.add_assoc]
    rfl

/-- All values name peers, or there is a first one that does not. -/
theorem forall_named_or_exists_unnamed (vs : List Value) :
    (∃ ps, List.Forall₂ Named vs ps) ∨ ∃ before v after f, vs = before ++ v :: after ∧
      (∀ w ∈ before, ∃ p, Named w p) ∧ Unnamed v f := by
  induction vs with
  | nil => exact .inl ⟨[], .nil⟩
  | cons v vs ih =>
    rcases named_or_unnamed v with ⟨p, hp⟩ | ⟨f, hf⟩
    · rcases ih with ⟨ps, hps⟩ | ⟨before, w, after, f, rfl, hbefore, hf⟩
      · exact .inl ⟨p :: ps, .cons hp hps⟩
      · exact .inr ⟨v :: before, w, after, f, rfl, List.forall_mem_cons.mpr ⟨⟨p, hp⟩, hbefore⟩, hf⟩
    · exact .inr ⟨[], v, vs, f, rfl, nofun, hf⟩

/-! ### Either form -/

/-- The peers that the entry under `peers` lists. -/
inductive Listed4 : Option Value → List Peer → Prop
  | absent : Listed4 none []
  | compact {b : Bytes} {ps : List Peer} : Compact .v4 b ps → Listed4 (some (.bytes b)) ps
  | dicts {vs : List Value} {ps : List Peer} : List.Forall₂ Named vs ps →
    Listed4 (some (.list vs)) ps

/-- What is wrong with the entry under `peers`. -/
inductive Flawed4 : Option Value → PeerListFlaw → Prop
  | size {b : Bytes} : b.length % 6 ≠ 0 → Flawed4 (some (.bytes b)) (.compactSize b.length)
  | entry {before after : List Value} {v : Value} {f : EntryFlaw} :
    (∀ w ∈ before, ∃ p, Named w p) → Unnamed v f →
      Flawed4 (some (.list (before ++ v :: after))) (.entry before.length f)
  | kind {v : Value} : (∀ b, v ≠ .bytes b) → (∀ vs, v ≠ .list vs) → Flawed4 (some v) .wrongKind

/-- The peers that the entry under `peers6` lists. -/
inductive Listed6 : Option Value → List Peer → Prop
  | absent : Listed6 none []
  | compact {b : Bytes} {ps : List Peer} : Compact .v6 b ps → Listed6 (some (.bytes b)) ps

/-- What is wrong with the entry under `peers6`. -/
inductive Flawed6 : Option Value → PeerListFlaw → Prop
  | size {b : Bytes} : b.length % 18 ≠ 0 → Flawed6 (some (.bytes b)) (.compactSize6 b.length)
  | kind {v : Value} : (∀ b, v ≠ .bytes b) → Flawed6 (some v) .wrongKind6

variable {v : Option Value} {ps : List Peer} {f : PeerListFlaw}

theorem listOf4_of_listed (h : Listed4 v ps) : listOf4 v = .ok ps := by
  cases h with
  | absent => rfl
  | compact h => exact listOfBytes4_eq_ok_iff.mpr h
  | dicts h => exact listFrom_of_named h 0

theorem listOf4_of_flawed (h : Flawed4 v f) : listOf4 v = .error (.malformedPeerList f) := by
  cases h with
  | size h => exact if_neg h
  | @entry before after v f hbefore h =>
    have hfrom : listFrom 0 (before ++ v :: after) = _ := listFrom_of_unnamed hbefore h 0
    rwa [Nat.zero_add] at hfrom
  | @kind v hbytes hlist =>
    cases v with
    | bytes b => exact absurd rfl (hbytes b)
    | list vs => exact absurd rfl (hlist vs)
    | _ => rfl

theorem listed4_or_flawed4 (v : Option Value) : (∃ ps, Listed4 v ps) ∨ ∃ f, Flawed4 v f := by
  cases v with
  | none => exact .inl ⟨[], .absent⟩
  | some v =>
    cases v with
    | bytes b =>
      by_cases hsize : b.length % 6 = 0
      · exact .inl ⟨_, .compact ((compact_iff fun _ => rfl).mpr ⟨hsize, rfl⟩)⟩
      · exact .inr ⟨_, .size hsize⟩
    | list vs =>
      rcases forall_named_or_exists_unnamed vs with ⟨ps, hps⟩ | ⟨_, _, _, _, rfl, hbefore, hf⟩
      · exact .inl ⟨ps, .dicts hps⟩
      · exact .inr ⟨_, .entry hbefore hf⟩
    | _ => exact .inr ⟨_, .kind nofun nofun⟩

theorem listOf6_of_listed (h : Listed6 v ps) : listOf6 v = .ok ps := by
  cases h with
  | absent => rfl
  | compact h => exact listOfBytes6_eq_ok_iff.mpr h

theorem listOf6_of_flawed (h : Flawed6 v f) : listOf6 v = .error (.malformedPeerList f) := by
  cases h with
  | size h => exact if_neg h
  | @kind v hbytes =>
    cases v with
    | bytes b => exact absurd rfl (hbytes b)
    | _ => rfl

theorem listed6_or_flawed6 (v : Option Value) : (∃ ps, Listed6 v ps) ∨ ∃ f, Flawed6 v f := by
  cases v with
  | none => exact .inl ⟨[], .absent⟩
  | some v =>
    cases v with
    | bytes b =>
      by_cases hsize : b.length % 18 = 0
      · exact .inl ⟨_, .compact ((compact_iff fun _ => rfl).mpr ⟨hsize, rfl⟩)⟩
      · exact .inr ⟨_, .size hsize⟩
    | _ => exact .inr ⟨_, .kind nofun⟩

end Tracker.Peer

end BitTorrent
