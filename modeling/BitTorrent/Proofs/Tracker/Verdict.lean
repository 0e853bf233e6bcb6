import BitTorrent.Proofs.Tracker.PeerList
import BitTorrent.Tracker.Response

/-! What becomes of a tracker's answer. The bytes decide it by the first thing that is wrong with
them: they do not decode, they are no dictionary, the tracker gives a reason for failure, there is
no interval, the peers or the peers of the other family cannot be read. If nothing is wrong, the
response says what the entries say, and an entry of another kind or out of range counts as absent.
No other entry has a part in it. -/

namespace BitTorrent.Tracker.Response

open Bencode

theorem bind_word? (o : Option Value) :
    o.bind word? = (o.bind (Value.natBelow? (Nat.pow 2 32))).map UInt32.ofNat := by
  cases o <;> rfl

theorem bind_word?_eq_some_iff {d : Dict Value} {key : String} {w : UInt32} :
    (d.get? (Bytes.ofText key)).bind word? = some w ↔ d.HasNat key w.toNat := by
  rw [bind_word?, Option.map_eq_some_iff]
  constructor
  · rintro ⟨n, hn, rfl⟩
    obtain ⟨hlt, hn⟩ := Dict.bind_natBelow?_eq_some_iff.mp hn
    have hword : (UInt32.ofNat n).toNat = n := UInt32.toNat_ofNat_of_lt' hlt
    rwa [hword]
  · intro h
    exact ⟨w.toNat, Dict.bind_natBelow?_eq_some_iff.mpr ⟨w.toNat_lt, h⟩, UInt32.ofNat_toNat⟩

theorem bind_word?_eq_none_iff {d : Dict Value} {key : String} :
    (d.get? (Bytes.ofText key)).bind word? = none ↔ ∀ w : UInt32, ¬d.HasNat key w.toNat := by
  simp only [Option.eq_none_iff_forall_ne_some, ne_eq, bind_word?_eq_some_iff]

/-- The optional entries of a response. What is of another kind or out of range is as if it were
not there. -/
structure Describes (d : Dict Value) (r : Response) : Prop where
  warning (s : String) : r.warning = some s ↔ d.HasText "warning message" s
  minInterval (n : UInt32) : r.minInterval = some n ↔ d.HasNat "min interval" n.toNat
  trackerId (b : Bytes) : r.trackerId = some b ↔ d.HasBytes "tracker id" b
  complete (n : UInt32) : r.complete = some n ↔ d.HasNat "complete" n.toNat
  incomplete (n : UInt32) : r.incomplete = some n ↔ d.HasNat "incomplete" n.toNat

/-- What a dictionary comes to, by the first condition that fails. -/
inductive DictVerdict (d : Dict Value) : Except Tracker.Error Response → Prop
  | failed {reason : Value} : d.get? (Bytes.ofText "failure reason") = some reason →
    DictVerdict d (.error (.failure (failureText reason)))
  | missingInterval : d.get? (Bytes.ofText "failure reason") = none →
    (∀ n : UInt32, ¬d.HasNat "interval" n.toNat) →
    DictVerdict d (.error (.invalidResponse .missingInterval))
  | malformedPeers {n : UInt32} {f : PeerListFlaw} :
    d.get? (Bytes.ofText "failure reason") = none →
    d.HasNat "interval" n.toNat →
    Peer.Flawed4 (d.get? (Bytes.ofText "peers")) f →
    DictVerdict d (.error (.malformedPeerList f))
  | malformedPeers6 {n : UInt32} {ps : List Peer} {f : PeerListFlaw} :
    d.get? (Bytes.ofText "failure reason") = none →
    d.HasNat "interval" n.toNat →
    Peer.Listed4 (d.get? (Bytes.ofText "peers")) ps →
    Peer.Flawed6 (d.get? (Bytes.ofText "peers6")) f →
    DictVerdict d (.error (.malformedPeerList f))
  | accepted {r : Response} {ps ps6 : List Peer} :
    d.get? (Bytes.ofText "failure reason") = none →
    d.HasNat "interval" r.interval.toNat →
    Peer.Listed4 (d.get? (Bytes.ofText "peers")) ps →
    Peer.Listed6 (d.get? (Bytes.ofText "peers6")) ps6 →
    r.peers = ps ++ ps6 → Describes d r →
    DictVerdict d (.ok r)

/-- What bytes come to. -/
inductive Verdict (data : Bytes) : Except Tracker.Error Response → Prop
  | undecodable {e : Bencode.Error} : decode data = .error e → Verdict data (.error (.bencode e))
  | notDict {v : Value} : decode data = .ok v → (∀ d, v ≠ .dict d) →
    Verdict data (.error (.invalidResponse .notDict))
  | dict {d : Dict Value} {result : Except Tracker.Error Response} :
    decode data = .ok (.dict d) → DictVerdict d result → Verdict data result

/-! ### What the reader does in each case -/

section Dict

variable {d : Dict Value}

/-- The response of a dictionary with this interval and these peers. -/
def ofEntries (d : Dict Value) (interval : UInt32) (peers : List Peer) : Response where
  interval := interval
  warning := (d.get? (Bytes.ofText "warning message")).bind Value.text?
  minInterval := (d.get? (Bytes.ofText "min interval")).bind word?
  trackerId := (d.get? (Bytes.ofText "tracker id")).bind Value.bytes?
  complete := (d.get? (Bytes.ofText "complete")).bind word?
  incomplete := (d.get? (Bytes.ofText "incomplete")).bind word?
  peers := peers

theorem describes_ofEntries (d : Dict Value) (interval : UInt32) (peers : List Peer) :
    Describes d (ofEntries d interval peers) where
  warning _ := Dict.bind_text?_eq_some_iff
  minInterval _ := bind_word?_eq_some_iff
  trackerId _ := Dict.bind_bytes?_eq_some_iff
  complete _ := bind_word?_eq_some_iff
  incomplete _ := bind_word?_eq_some_iff

/-- The entries leave nothing open. -/
theorem Describes.eq_ofEntries {r : Response} (h : Describes d r) :
    r = ofEntries d r.interval r.peers := by
  have hof := describes_ofEntries d r.interval r.peers
  have hwarning := Option.ext fun s => (h.warning s).trans (hof.warning s).symm
  have hmin := Option.ext fun n => (h.minInterval n).trans (hof.minInterval n).symm
  have hid := Option.ext fun b => (h.trackerId b).trans (hof.trackerId b).symm
  have hcomplete := Option.ext fun n => (h.complete n).trans (hof.complete n).symm
  have hincomplete := Option.ext fun n => (h.incomplete n).trans (hof.incomplete n).symm
  cases r
  rw [ofEntries, mk.injEq]
  exact ⟨hwarning, rfl, hmin, hid, hcomplete, hincomplete, rfl⟩

/-- Once there is no failure and an interval, the peers are all that can be refused. -/
theorem ofDict_of_interval {n : UInt32}
    (hreason : d.get? (Bytes.ofText "failure reason") = none)
    (hinterval : d.HasNat "interval" n.toNat) :
    ofDict d = (do
      let peers ← Peer.listOf4 (d.get? (Bytes.ofText "peers"))
      let peers6 ← Peer.listOf6 (d.get? (Bytes.ofText "peers6"))
      return ofEntries d n (peers ++ peers6)) := by
  simp only [ofDict, hreason, bind_word?_eq_some_iff.mpr hinterval]
  rfl

theorem ofDict_of_verdict {result : Except Tracker.Error Response} (h : DictVerdict d result) :
    ofDict d = result := by
  cases h with
  | failed hreason => simp only [ofDict, hreason]
  | missingInterval hreason hinterval =>
    simp only [ofDict, hreason, bind_word?_eq_none_iff.mpr hinterval]
  | malformedPeers hreason hinterval hpeers =>
    rw [ofDict_of_interval hreason hinterval, Peer.listOf4_of_flawed hpeers, error_bind]
  | malformedPeers6 hreason hinterval hpeers hpeers6 =>
    rw [ofDict_of_interval hreason hinterval, Peer.listOf4_of_listed hpeers, ok_bind,
      Peer.listOf6_of_flawed hpeers6, error_bind]
  | accepted hreason hinterval hpeers hpeers6 hboth hr =>
    rw [ofDict_of_interval hreason hinterval, Peer.listOf4_of_listed hpeers, ok_bind,
      Peer.listOf6_of_listed hpeers6, ok_bind, ← hboth, ← hr.eq_ofEntries]
    rfl

/-- The conditions leave no dictionary out. -/
theorem exists_dictVerdict (d : Dict Value) : ∃ result, DictVerdict d result := by
  cases hreason : d.get? (Bytes.ofText "failure reason") with
  | some reason => exact ⟨_, .failed hreason⟩
  | none =>
    by_cases hinterval : ∃ n : UInt32, d.HasNat "interval" n.toNat
    · obtain ⟨n, hn⟩ := hinterval
      rcases Peer.listed4_or_flawed4 (d.get? (Bytes.ofText "peers")) with ⟨ps, hps⟩ | ⟨f, hf⟩
      · rcases Peer.listed6_or_flawed6 (d.get? (Bytes.ofText "peers6")) with ⟨ps6, hps6⟩ | ⟨f, hf⟩
        · exact ⟨_, .accepted (r := ofEntries d n (ps ++ ps6)) hreason hn hps hps6 rfl
            (describes_ofEntries d n _)⟩
        · exact ⟨_, .malformedPeers6 hreason hn hps hf⟩
      · exact ⟨_, .malformedPeers hreason hn hf⟩
    · exact ⟨_, .missingInterval hreason fun n hn => hinterval ⟨n, hn⟩⟩

end Dict

/-! ### Bytes -/

theorem ofBytes_of_decode {data : Bytes} {d : Dict Value} (h : decode data = .ok (.dict d)) :
    ofBytes data = ofDict d := by
  rw [ofBytes, h]
  rfl

theorem ofBytes_of_verdict {data : Bytes} {result : Except Tracker.Error Response}
    (h : Verdict data result) : ofBytes data = result := by
  cases h with
  | undecodable he =>
    rw [ofBytes, he]
    rfl
  | @notDict v hv hdict =>
    have hnone : v.dict? = none := by
      rw [Option.eq_none_iff_forall_ne_some]
      exact fun d hd => hdict d (Value.dict?_eq_some_iff.mp hd)
    simp only [ofBytes, hv, mapError_ok, ok_bind, hnone]
  | dict hd hverdict => rw [ofBytes_of_decode hd, ofDict_of_verdict hverdict]

theorem exists_verdict (data : Bytes) : ∃ result, Verdict data result := by
  cases hdata : decode data with
  | error e => exact ⟨_, .undecodable hdata⟩
  | ok v =>
    by_cases hdict : ∃ d, v = .dict d
    · obtain ⟨d, rfl⟩ := hdict
      obtain ⟨result, hresult⟩ := exists_dictVerdict d
      exact ⟨result, .dict hdata hresult⟩
    · exact ⟨_, .notDict hdata fun d hd => hdict ⟨d, hd⟩⟩

/-! ### What has no part in it -/

/-- The entries on which it depends whether an answer is accepted. -/
def decisive : List String := ["failure reason", "interval", "peers", "peers6"]

/-- What is refused is refused for the decisive entries, and so are the interval and the peers read
from them alone. -/
theorem ofDict_congr {d d' : Dict Value}
    (h : ∀ key ∈ decisive, d.get? (Bytes.ofText key) = d'.get? (Bytes.ofText key)) :
    (fun r => (r.interval, r.peers)) <$> ofDict d =
      (fun r => (r.interval, r.peers)) <$> ofDict d' := by
  have hreason := h "failure reason" (by decide)
  have hinterval := h "interval" (by decide)
  have hpeers := h "peers" (by decide)
  have hpeers6 := h "peers6" (by decide)
  simp only [ofDict, hreason, hinterval, hpeers, hpeers6]
  cases d'.get? (Bytes.ofText "failure reason") with
  | some reason => rfl
  | none =>
    cases (d'.get? (Bytes.ofText "interval")).bind word? with
    | none => rfl
    | some n =>
      cases Peer.listOf4 (d'.get? (Bytes.ofText "peers")) with
      | error e => rfl
      | ok ps => cases Peer.listOf6 (d'.get? (Bytes.ofText "peers6")) <;> rfl

/-- Every answer comes to what the first failing condition says, and to a response that says what
the entries say if none fails. Answers with the same decisive entries are refused with the same
error or accepted with the same interval and the same peers, whatever the other entries are. -/
theorem ofBytes_decided :
    (∀ (data : Bytes) (result : Except Tracker.Error Response),
      ofBytes data = result ↔ Verdict data result) ∧
    ∀ (data data' : Bytes) (d d' : Dict Value),
      decode data = .ok (.dict d) → decode data' = .ok (.dict d') →
      (∀ key ∈ decisive, d.get? (Bytes.ofText key) = d'.get? (Bytes.ofText key)) →
      (fun r => (r.interval, r.peers)) <$> ofBytes data =
        (fun r => (r.interval, r.peers)) <$> ofBytes data' := by
  constructor
  · intro data result
    constructor
    · rintro rfl
      obtain ⟨result, hresult⟩ := exists_verdict data
      rwa [ofBytes_of_verdict hresult]
    · exact ofBytes_of_verdict
  · intro data data' d d' hd hd' hsame
    rw [ofBytes_of_decode hd, ofBytes_of_decode hd']
    exact ofDict_congr hsame

/-- A negative number of seeders and an id that is an integer are absent, and do not keep the peers
from being read. -/
theorem ofBytes_decided_of_bad_entries :
    let data := Bytes.ofText "d8:completei-1e8:intervali9e5:peers6:abcdef10:tracker idi1ee"
    let data' := Bytes.ofText "d8:intervali9e5:peers6:abcdefe"
    ∃ r, ofBytes data = .ok r ∧ Verdict data (.ok r) ∧ r.complete = none ∧ r.trackerId = none ∧
      (r.interval, r.peers) = (9, [⟨none, "97.98.99.100", 25958⟩]) ∧
      (fun r => (r.interval, r.peers)) <$> ofBytes data' = .ok (r.interval, r.peers) := by
  intro data data'
  have hdata : decode data = .ok (.dict ⟨[(Bytes.ofText "complete", .integer (-1)),
      (Bytes.ofText "interval", .integer 9), (Bytes.ofText "peers", .bytes (Bytes.ofText "abcdef")),
      (Bytes.ofText "tracker id", .integer 1)]⟩) := by decide +kernel
  have hdata' : decode data' = .ok (.dict ⟨[(Bytes.ofText "interval", .integer 9),
      (Bytes.ofText "peers", .bytes (Bytes.ofText "abcdef"))]⟩) := by decide +kernel
  have hread : (fun r => (r.complete, r.trackerId, r.interval, r.peers)) <$> ofBytes data =
      .ok (none, none, 9, [⟨none, "97.98.99.100", 25958⟩]) := by decide +kernel
  obtain ⟨r, hr, hentries⟩ := map_eq_ok_iff.mp hread
  simp only [Prod.mk.injEq] at hentries
  obtain ⟨hcomplete, hid, hinterval, hpeers⟩ := hentries
  obtain ⟨hverdict, hdecisive⟩ := ofBytes_decided
  have hsame := hdecisive data data' _ _ hdata hdata' (by decide +kernel)
  rw [hr, map_ok] at hsame
  exact ⟨r, hr, (hverdict data (.ok r)).mp hr, hcomplete, hid, by rw [hinterval, hpeers],
    hsame.symm⟩

end BitTorrent.Tracker.Response
