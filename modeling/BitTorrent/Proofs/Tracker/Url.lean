import BitTorrent.Proofs.Tracker.Query
import BitTorrent.Tracker.Client

/-! Where the query of a request ends up. A URL has a path, a query and a fragment, and a text is
cut into them in one way only. The announce URL of a base without a fragment has its path, and the
request at the end of its query. A base with a fragment takes the request into the fragment, which
a client does not send, so that the tracker is asked without it. -/

namespace BitTorrent.Tracker

/-! ### Cutting at a separator -/

/-- What stands in front of the first `c`, and what stands behind it if there is one. -/
def cut (c : Char) : List Char → List Char × Option (List Char)
  | [] => ([], none)
  | d :: cs => if d = c then ([], some cs) else (d :: (cut c cs).1, (cut c cs).2)

/-- A part with its separator, or nothing if there is no such part. -/
def ledBy (c : Char) : Option (List Char) → List Char
  | none => []
  | some cs => c :: cs

variable {c d : Char}

@[simp] theorem mem_ledBy {part : Option (List Char)} :
    d ∈ ledBy c part ↔ ∃ cs, part = some cs ∧ (d = c ∨ d ∈ cs) := by
  cases part <;> simp [ledBy]

theorem fst_append_ledBy_cut (c : Char) (cs : List Char) :
    (cut c cs).1 ++ ledBy c (cut c cs).2 = cs := by
  induction cs with
  | nil => rfl
  | cons d cs ih =>
    by_cases hd : d = c
    · simp [cut, hd, ledBy]
    · simpa [cut, hd] using ih

theorem notMem_fst_cut (c : Char) (cs : List Char) : c ∉ (cut c cs).1 := by
  induction cs with
  | nil => simp [cut]
  | cons d cs ih =>
    by_cases hd : d = c
    · simp [cut, hd]
    · simpa [cut, hd, Ne.symm hd] using ih

theorem cut_append_ledBy {front : List Char} (h : c ∉ front) (rest : Option (List Char)) :
    cut c (front ++ ledBy c rest) = (front, rest) := by
  induction front with
  | nil => cases rest <;> simp [cut, ledBy]
  | cons d front ih =>
    rw [List.mem_cons, not_or] at h
    simp [cut, Ne.symm h.1, ih h.2]

/-! ### The parts of a URL -/

/-- A URL in its parts. The path is all that stands in front of the first `?`, the query what stands
behind that, and the fragment what stands behind the first `#`. -/
@[ext] structure Url where
  path : List Char
  query : Option (List Char)
  fragment : Option (List Char)
  plain_path : '?' ∉ path ∧ '#' ∉ path
  plain_query : ∀ q, query = some q → '#' ∉ q

namespace Url

variable {u : Url} {s : String} {q : List Char}

/-- What is sent of a URL. -/
def front (u : Url) : List Char := u.path ++ ledBy '?' u.query

def chars (u : Url) : List Char := u.front ++ ledBy '#' u.fragment

theorem hash_notMem_front (u : Url) : '#' ∉ u.front := by
  simpa [front, u.plain_path.2] using u.plain_query

theorem hash_mem_chars : '#' ∈ u.chars ↔ u.fragment ≠ none := by
  simp [chars, u.hash_notMem_front, Option.ne_none_iff_exists']

theorem question_mem_front : '?' ∈ u.front ↔ u.query ≠ none := by
  simp [front, u.plain_path.1, Option.ne_none_iff_exists']

/-- The parts of any text. -/
def ofText (s : String) : Url where
  path := (cut '?' (cut '#' s.toList).1).1
  query := (cut '?' (cut '#' s.toList).1).2
  fragment := (cut '#' s.toList).2
  plain_path := by
    have hfront := notMem_fst_cut '#' s.toList
    rw [← fst_append_ledBy_cut '?' (cut '#' s.toList).1] at hfront
    exact ⟨notMem_fst_cut _ _, fun h => hfront (List.mem_append_left _ h)⟩
  plain_query := by
    intro q hq h
    have hfront := notMem_fst_cut '#' s.toList
    rw [← fst_append_ledBy_cut '?' (cut '#' s.toList).1, hq] at hfront
    exact hfront (List.mem_append_right _ (List.mem_cons_of_mem _ h))

theorem chars_ofText (s : String) : (ofText s).chars = s.toList := by
  simp only [chars, front, ofText, fst_append_ledBy_cut]

/-- The text that parts make up is cut into these parts. -/
theorem ofText_eq (h : s.toList = u.chars) : ofText s = u := by
  have hfront : cut '#' s.toList = (u.front, u.fragment) := by
    rw [h, chars, cut_append_ledBy u.hash_notMem_front]
  have hpath : cut '?' u.front = (u.path, u.query) := cut_append_ledBy u.plain_path.1 u.query
  ext1 <;> simp only [ofText, hfront, hpath]

/-! ### Adding parameters -/

/-- The query with parameters added to it, or made of them alone. -/
def queryWith (u : Url) (q : List Char) : List Char :=
  match u.query with
  | none => q
  | some own => own ++ '&' :: q

theorem queryWith_ne (u : Url) (q : List Char) : u.query ≠ some (u.queryWith q) := by
  intro h
  rw [queryWith, h] at h
  simp at h

theorem hash_notMem_queryWith (u : Url) (hq : '#' ∉ q) : '#' ∉ u.queryWith q := by
  have hown := u.plain_query
  unfold queryWith
  cases hquery : u.query with
  | none => exact hq
  | some own => simpa [hq] using hown own hquery

/-- The URL with parameters added to its query. -/
def extend (u : Url) (q : List Char) (hq : '#' ∉ q) : Url :=
  { u with
    query := some (u.queryWith q)
    plain_query := by
      intro own hown
      rw [← Option.some.inj hown]
      exact u.hash_notMem_queryWith hq }

/-- At the end of a URL without a fragment, parameters are added to the query. -/
theorem chars_extend (h : u.fragment = none) (hq : '#' ∉ q) :
    (u.extend q hq).chars = u.chars ++ (if '?' ∈ u.chars then '&' else '?') :: q := by
  have hchars : u.chars = u.front := by simp [chars, h, ledBy]
  simp only [hchars, question_mem_front]
  cases hquery : u.query <;> simp [chars, front, extend, queryWith, h, hquery, ledBy]

/-- At the end of any other URL they are added to the fragment. -/
theorem chars_of_fragment {f : List Char} (h : u.fragment = some f) (added : List Char) :
    ({ u with fragment := some (f ++ added) } : Url).chars = u.chars ++ added := by
  simp [chars, front, h, ledBy]

end Url

theorem notMem_intercalate {sep : List Char} {ps : List (List Char)} (hsep : c ∉ sep)
    (hps : ∀ p ∈ ps, c ∉ p) : c ∉ sep.intercalate ps := by
  induction ps with
  | nil => simp
  | cons p ps ih =>
    obtain ⟨hp, hps⟩ := List.forall_mem_cons.mp hps
    cases ps with
    | nil => simpa using hp
    | cons p' ps => simpa [hp, hsep] using ih hps

namespace Announce

/-- The query has no character that would end it. -/
theorem hash_notMem_query (a : Announce) : '#' ∉ a.query.toList := by
  have hnames : ∀ name ∈ names, '#' ∉ name.toList := by decide
  rw [query, toList_intercalate]
  apply notMem_intercalate (by decide)
  rw [List.forall_mem_map]
  intro p hp
  rw [parameters_eq] at hp
  simp [part, hnames _ (mem_present hp), Percent.notMem_encodeChars]

theorem toList_url (a : Announce) (base : String) :
    (a.url base).toList =
      base.toList ++ (if '?' ∈ base.toList then '&' else '?') :: a.query.toList := by
  simp only [url, String.toList_append]
  split <;> simp

/-- What is sent of an announce URL: all of it but for a base with a fragment, and of such a base
what is sent of itself. -/
theorem front_url (a : Announce) (base : String) :
    (Url.ofText (a.url base)).path = (Url.ofText base).path ∧
      (Url.ofText (a.url base)).query = if '#' ∈ base.toList then (Url.ofText base).query
        else some ((Url.ofText base).queryWith a.query.toList) := by
  have hbase := Url.chars_ofText base
  have hurl := a.toList_url base
  cases hfragment : (Url.ofText base).fragment with
  | none =>
    have hplain : '#' ∉ base.toList := by simp [← hbase, Url.hash_mem_chars, hfragment]
    rw [← hbase, ← Url.chars_extend hfragment a.hash_notMem_query] at hurl
    simp [Url.ofText_eq hurl, hplain, Url.extend]
  | some f =>
    have hhash : '#' ∈ base.toList := by simp [← hbase, Url.hash_mem_chars, hfragment]
    rw [← hbase, ← Url.chars_of_fragment hfragment] at hurl
    simp [Url.ofText_eq hurl, hhash]

end Announce

/-! ### Trackers -/

/-- A server that goes by the path and the query of what it is asked for. -/
def serve (server : List Char → Option (List Char) → Reply) (url : String) : Reply :=
  server (Url.ofText url).path (Url.ofText url).query

namespace Client

theorem url_of_new {base : String} {client : Client} (h : new base = .ok client) :
    client.url = base := by
  unfold new withAgent at h
  split at h
  · cases h
  · split at h
    · cases h
    · cases h
      rfl

/-- One announce asks once, for the announce URL. -/
theorem announce_congr {client : Client} {r : Request} {exchange exchange' : String → Reply}
    (h : exchange (r.url client.url).1 = exchange' (r.url client.url).1) :
    client.announce exchange r = client.announce exchange' r := by
  simp only [announce, h]

end Client

/-- The announce URL keeps the path of its base, and has the query of the base with that of the
request behind it exactly if the base has no fragment, or else the query of the base alone. This
holds for every request, however it came about, and so a tracker is asked for its path, and for the
parameters that the request was built with as long as its URL has no fragment. -/
theorem url_carries_query (infoHash : InfoHash) (peerId : PeerId) (turns : List Turn) :
    ∀ r ∈ (run Request.call [.new infoHash peerId] turns).2, ∀ base : String,
      let u := Url.ofText base
      let u' := Url.ofText (r.url base).1
      let q := u.queryWith r.query.1.toList
      u'.path = u.path ∧ (u'.query = some q ↔ '#' ∉ base.toList) ∧
      (u'.query = u.query ↔ '#' ∈ base.toList) ∧
      ∀ client, Client.new base = .ok client → ∀ server,
        client.announce (serve server) r =
          client.announce
            (fun _ => server u.path (if '#' ∈ base.toList then u.query else some q)) r := by
  intro r hr base u u' q
  have hfresh := Request.fresh_of_mem_run hr
  have hparts : u'.path = u.path ∧ u'.query = if '#' ∈ base.toList then u.query else some q := by
    show (Url.ofText (r.url base).1).path = u.path ∧ (Url.ofText (r.url base).1).query = _
    rw [hfresh.url_eq, show q = u.queryWith r.announce.query.toList by rw [← hfresh.fst_query]]
    exact r.announce.front_url base
  obtain ⟨hpath, hquery⟩ := hparts
  have hne : u.query ≠ some q := u.queryWith_ne _
  refine ⟨hpath, ?_, ?_, ?_⟩
  · by_cases hhash : '#' ∈ base.toList
    · simpa [hquery, hhash] using hne
    · simp [hquery, hhash]
  · by_cases hhash : '#' ∈ base.toList
    · simp [hquery, hhash]
    · simpa [hquery, hhash] using hne.symm
  · intro client hclient server
    apply Client.announce_congr
    rw [Client.url_of_new hclient]
    show server u'.path u'.query = _
    rw [hpath, hquery]

/-- A query of its own with a `?` in it, and a fragment with a `?` in it. -/
theorem url_carries_query_of_question_marks :
    let infoHash : InfoHash := ⟨.zero 20⟩
    let peerId : PeerId := ⟨.zero 20⟩
    let turns : List Turn := [.call 0 .query, .call 0 (.set (.event .started))]
    let r : Request := ⟨{ Announce.initial infoHash peerId with event := .started }, none⟩
    let client : Client := ⟨"http://t/a?k=?", Parameters.userAgent⟩
    let asked := "k=?&".toList ++ r.query.1.toList
    r ∈ (run Request.call [.new infoHash peerId] turns).2 ∧
      Client.new "http://t/a?k=?" = .ok client ∧
      (Url.ofText (r.url "http://t/a?k=?").1).query = some asked ∧
      (∀ server, client.announce (serve server) r =
        client.announce (fun _ => server "http://t/a".toList (some asked)) r) ∧
      (Url.ofText (r.url "http://t/a#?k=1").1).query = none := by
  intro infoHash peerId turns r client asked
  have hr : r ∈ (run Request.call [.new infoHash peerId] turns).2 := by decide +kernel
  have hnew : Client.new "http://t/a?k=?" = .ok client := by decide +kernel
  have hpath : (Url.ofText "http://t/a?k=?").path = "http://t/a".toList := by decide +kernel
  have hown : (Url.ofText "http://t/a?k=?").query = some "k=?".toList := by decide +kernel
  have hasked : (Url.ofText "http://t/a?k=?").queryWith r.query.1.toList = asked := by
    simp [Url.queryWith, hown, asked]
  obtain ⟨-, hiff, -, hserved⟩ := url_carries_query infoHash peerId turns r hr "http://t/a?k=?"
  obtain ⟨-, -, hlost, -⟩ := url_carries_query infoHash peerId turns r hr "http://t/a#?k=1"
  have hplain : '#' ∉ "http://t/a?k=?".toList := by decide
  refine ⟨hr, hnew, by rw [hiff.mpr hplain, hasked], ?_, ?_⟩
  · intro server
    rw [hserved client hnew server, hpath, hasked, if_neg hplain]
  · rw [hlost.mpr (by decide)]
    decide +kernel

/-- A base with a fragment is accepted, and its announce URL has no query. -/
theorem url_drops_query :
    let r := Request.new ⟨⟨List.replicate 20 0x61, rfl⟩⟩ ⟨⟨List.replicate 20 0x62, rfl⟩⟩
    let base := "http://t/a#f"
    (∃ client, Client.new base = .ok client) ∧ (Url.ofText base).query = none ∧
      (Url.ofText (r.url base).1).query = none ∧
      (Url.ofText (r.url base).1).query ≠ some r.query.1.toList := by
  intro r base
  have hnew : Client.new base = .ok ⟨base, Parameters.userAgent⟩ := by decide +kernel
  have hquery : (Url.ofText (r.url base).1).query = none := by decide +kernel
  exact ⟨⟨_, hnew⟩, by decide +kernel, hquery, by simp [hquery]⟩

end BitTorrent.Tracker
