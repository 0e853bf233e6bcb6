import BitTorrent.Proofs.Address.Text
import BitTorrent.Proofs.Tracker.PeerList

/-! Compact lists lose nothing. There is one peer for each record, in the order of the records, and
the endpoint that is read off the text of its address is the one that the bytes of the record give,
whatever its address is. The endpoints of all peers make the bytes of the list again. -/

namespace BitTorrent.Tracker.Peer

/-! ### Records -/

/-- The bytes of one record among records of `n` bytes. -/
def recordAt (n i : Nat) (data : Bytes) : Bytes := (data.drop (n * i)).take n

theorem recordAt_flatMap {α : Type} {f : α → Bytes} {n : Nat} (hf : ∀ e, (f e).length = n)
    {es : List α} {i : Nat} {e : α} (h : es[i]? = some e) : recordAt n i (es.flatMap f) = f e := by
  unfold recordAt
  induction es generalizing i with
  | nil => simp at h
  | cons e' es ih =>
    rw [List.flatMap_cons]
    cases i with
    | zero =>
      obtain rfl : e' = e := by simpa using h
      rw [Nat.mul_zero, List.drop_zero, List.take_left' (hf e')]
    | succ i =>
      rw [Nat.mul_succ, Nat.add_comm, ← List.drop_drop, List.drop_left' (hf e')]
      exact ih (by simpa using h)

/-! ### Endpoints -/

/-- An address is read off its text again. -/
theorem endpoint?_ofEndpoint (e : Endpoint) : (ofEndpoint e).endpoint? = some e := by
  rw [endpoint?, ofEndpoint, Address.ofText?_text]
  rfl

section ReadBack

variable {n : Nat} (family : Octets n → Address) (read : Bytes → Option Peer)

/-- The peers are those of the records of `data`, each of an address of `n` bytes and a port, in
their order and one for each of them. `read` reads a single record. -/
structure ReadBack (data : Bytes) (ps : List Peer) : Prop where
  length : data.length = (n + 2) * ps.length
  id : ∀ p ∈ ps, p.id = none
  record : ∀ i p, ps[i]? = some p → read (recordAt (n + 2) i data) = some p
  endpoint : ∀ i p, ps[i]? = some p → ∃ o : Octets n,
    p.endpoint? = some ⟨family o, p.port⟩ ∧ o.toList = (recordAt (n + 2) i data).take n ∧
      p.port.toNat = BigEndian.decode ((recordAt (n + 2) i data).drop n)
  bytes : (ps.filterMap endpoint?).flatMap Endpoint.bytes = data

variable {family}

/-- What is read for endpoints of one family is read back as these endpoints. -/
theorem Compact.readBack (hfamily : ∀ o, (family o).bytes = o.toList) {data : Bytes}
    {ps : List Peer} (h : Compact family data ps) :
    ReadBack family (ofBytes? family) data ps := by
  obtain ⟨es, rfl, rfl⟩ := h
  have hlen (e : Octets n × UInt16) : (Endpoint.bytes ⟨family e.1, e.2⟩).length = n + 2 :=
    length_bytes_endpoint hfamily e.1 e.2
  have hrecord {i : Nat} {p : Peer}
      (hp : (es.map fun e => ofEndpoint ⟨family e.1, e.2⟩)[i]? = some p) :
      ∃ o port, p = ofEndpoint ⟨family o, port⟩ ∧
        recordAt (n + 2) i (es.flatMap fun e => Endpoint.bytes ⟨family e.1, e.2⟩) =
          Endpoint.bytes ⟨family o, port⟩ := by
    rw [List.getElem?_map] at hp
    obtain ⟨e, he, rfl⟩ := Option.map_eq_some_iff.mp hp
    exact ⟨e.1, e.2, rfl, recordAt_flatMap hlen he⟩
  refine ⟨?_, ?_, fun i p hp => ?_, fun i p hp => ?_, ?_⟩
  · rw [List.length_flatMap, List.length_map, List.map_congr_left fun e _ => hlen e,
      List.map_const', List.sum_replicate_nat, Nat.mul_comm]
  · intro p hp
    obtain ⟨e, -, rfl⟩ := List.mem_map.mp hp
    rfl
  · obtain ⟨o, port, rfl, hi⟩ := hrecord hp
    obtain ⟨r, hr, hpeer⟩ := exists_record hfamily (o, port)
    rw [hi, ← hr, ofBytes?_toList, hpeer]
  · obtain ⟨o, port, rfl, hi⟩ := hrecord hp
    rw [hi, bytes_endpoint hfamily, List.take_left' o.length_toList,
      List.drop_left' o.length_toList]
    exact ⟨o, endpoint?_ofEndpoint _, rfl, (BigEndian.decode_encode port.toNat_lt).symm⟩
  · have hread : (endpoint? ∘ fun e : Octets n × UInt16 => ofEndpoint ⟨family e.1, e.2⟩) =
        some ∘ fun e => ⟨family e.1, e.2⟩ := funext fun e => endpoint?_ofEndpoint _
    rw [List.filterMap_map, hread, List.filterMap_eq_map, List.flatMap_map]

end ReadBack

/-- A compact list of whole records is read as their peers, each of which has the address and port
of its record, and a list of any other length is refused. Every address is read off its text. -/
theorem listOfBytes_readBack (data : Bytes) :
    (data.length % 6 = 0 → ∃ ps, listOfBytes4 data = .ok ps ∧ ReadBack .v4 ofBytes4? data ps) ∧
    (data.length % 6 ≠ 0 →
      listOfBytes4 data = .error (.malformedPeerList (.compactSize data.length))) ∧
    (data.length % 18 = 0 → ∃ ps, listOfBytes6 data = .ok ps ∧ ReadBack .v6 ofBytes6? data ps) ∧
    (data.length % 18 ≠ 0 →
      listOfBytes6 data = .error (.malformedPeerList (.compactSize6 data.length))) ∧
    ∀ a : Address, Address.ofText? a.text = some a := by
  refine ⟨fun h => ?_, fun h => if_neg h, fun h => ?_, fun h => if_neg h, Address.ofText?_text⟩
  · have hcompact : Compact .v4 data _ := (compact_iff fun _ => rfl).mpr ⟨h, rfl⟩
    exact ⟨_, listOfBytes4_eq_ok_iff.mpr hcompact, hcompact.readBack fun _ => rfl⟩
  · have hcompact : Compact .v6 data _ := (compact_iff fun _ => rfl).mpr ⟨h, rfl⟩
    exact ⟨_, listOfBytes6_eq_ok_iff.mpr hcompact, hcompact.readBack fun _ => rfl⟩

/-- Two records, of an address that maps an IPv4 address and of one with two runs of zeros that are
equally long, and a list that is a byte short. -/
theorem listOfBytes_readBack_of_zeros :
    let mapped : Octets 16 := ⟨List.replicate 10 0 ++ [0xff, 0xff, 10, 0, 0, 1], rfl⟩
    let runs : Octets 16 := ⟨[0x20, 1, 0, 0, 0, 0, 0, 7, 0, 7, 0, 0, 0, 0, 0, 1], rfl⟩
    let data := mapped.toList ++ [0x1a, 0xe1] ++ runs.toList ++ [0, 80]
    (∃ p q, listOfBytes6 data = .ok [p, q] ∧ p.ip = "::ffff:10.0.0.1" ∧ q.ip = "2001::7:7:0:0:1" ∧
      p.endpoint? = some ⟨.v6 mapped, 6881⟩ ∧ q.endpoint? = some ⟨.v6 runs, 80⟩) ∧
    listOfBytes6 (data.drop 1) = .error (.malformedPeerList (.compactSize6 35)) := by
  intro mapped runs data
  let p : Peer := ofEndpoint ⟨.v6 mapped, 6881⟩
  let q : Peer := ofEndpoint ⟨.v6 runs, 80⟩
  have hcompact : listOfBytes6 data = .ok [p, q] :=
    listOfBytes6_eq_ok_iff.mpr ⟨[(mapped, 6881), (runs, 80)], by decide +kernel, rfl⟩
  obtain ⟨-, -, hread, -, -⟩ := listOfBytes_readBack data
  obtain ⟨-, -, -, hsize, -⟩ := listOfBytes_readBack (data.drop 1)
  obtain ⟨ps, hps, hback⟩ := hread (by decide)
  obtain rfl : ps = [p, q] := Except.ok.inj (hps.symm.trans hcompact)
  obtain ⟨o, hp, ho, -⟩ := hback.endpoint 0 p rfl
  obtain ⟨o', hq, ho', -⟩ := hback.endpoint 1 q rfl
  obtain rfl : o = mapped := Octets.ext (ho.trans (by decide +kernel))
  obtain rfl : o' = runs := Octets.ext (ho'.trans (by decide +kernel))
  exact ⟨⟨p, q, hps, by decide +kernel, by decide +kernel, hp, hq⟩, hsize (by decide)⟩

end BitTorrent.Tracker.Peer
