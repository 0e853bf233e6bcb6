import BitTorrent.Proofs.Torrent.Saving
import BitTorrent.Proofs.Torrent.Acceptance
import Mathlib.Data.List.Induction
import Mathlib.Data.Prod.Lex

/-! The trackers of a torrent, in the order in which a reader of its root comes upon them: the
announce URL first, and then the texts of every tier that is a list. A text that stands in several
places is listed for the first of them. -/

namespace BitTorrent.Torrent

open Bencode

/-- A place in a root: a tier and an entry of it, with the announce URL in front of the first tier.
-/
abbrev Place := ℕ ×ₗ ℕ

/-- Where a tracker stands in a root. -/
inductive Stands (root : Dict Value) : Place → String → Prop
  | announce {url : String} (h : root.HasText "announce" url) : Stands root (toLex (0, 0)) url
  | entry {tiers tier : List Value} {i j : ℕ} {url : String}
    (htiers : root.get? (Bytes.ofText "announce-list") = some (.list tiers))
    (htier : tiers[i]? = some (.list tier)) (hurl : tier[j]? = some (.bytes (Bytes.ofText url))) :
    Stands root (toLex (i + 1, j)) url

/-- One tracker comes up before the other. -/
def Before (root : Dict Value) (a b : String) : Prop :=
  ∃ p, Stands root p a ∧ ∀ q, Stands root q b → p < q

variable {root : Dict Value} {p : Place} {a b url : String}

theorem Before.asymm (h : Before root a b) : ¬Before root b a := by
  rintro ⟨q, hq, hba⟩
  obtain ⟨p, hp, hab⟩ := h
  exact lt_asymm (hab q hq) (hba p hp)

theorem nodup_of_before {urls : List String} (h : urls.Pairwise (Before root)) : urls.Nodup := by
  refine h.imp ?_
  rintro a b hab rfl
  exact hab.asymm hab

/-! ### Listing each text once -/

theorem eraseDups_concat (urls : List String) (url : String) :
    (urls ++ [url]).eraseDups = if url ∈ urls then urls.eraseDups else urls.eraseDups ++ [url] := by
  rw [List.eraseDups_append]
  by_cases h : url ∈ urls
  · simp [h, List.removeAll]
  · simp [h, List.removeAll, List.eraseDups_cons]

theorem trackers_eq (m : Torrent) :
    m.trackers = (m.announce :: m.announceList.flatten).eraseDups := by
  unfold trackers
  induction m.announceList.flatten using List.reverseRecOn with
  | nil => simp [List.eraseDups_cons]
  | append_singleton urls url ih =>
    rw [List.foldl_append, ih, ← List.cons_append, eraseDups_concat]
    simp only [List.foldl_cons, List.foldl_nil, List.mem_eraseDups]

/-- Of texts at places in order, each is listed for the first place at which it stands. -/
theorem pairwise_eraseDups {ps : List (Place × String)} (h : ps.Pairwise (·.1 < ·.1)) :
    (ps.map Prod.snd).eraseDups.Pairwise fun a b =>
      ∃ p, (p, a) ∈ ps ∧ ∀ q, (q, b) ∈ ps → p < q := by
  induction ps using List.reverseRecOn with
  | nil => simp
  | append_singleton ps last ih =>
    obtain ⟨hps, -, hlast⟩ := List.pairwise_append.mp h
    have hbehind : ∀ p a, (p, a) ∈ ps → p < last.1 :=
      fun p a hp => hlast (p, a) hp last List.mem_cons_self
    have hkept : (ps.map Prod.snd).eraseDups.Pairwise fun a b =>
        ∃ p, (p, a) ∈ ps ++ [last] ∧ ∀ q, (q, b) ∈ ps ++ [last] → p < q := by
      refine (ih hps).imp ?_
      rintro a b ⟨p, hp, hfirst⟩
      refine ⟨p, List.mem_append_left _ hp, ?_⟩
      intro q hq
      rcases List.mem_append.mp hq with hq | hq
      · exact hfirst q hq
      · obtain rfl := List.mem_singleton.mp hq
        exact hbehind p a hp
    rw [List.map_append, List.map_singleton, eraseDups_concat]
    split
    · exact hkept
    · rename_i hnew
      refine List.pairwise_append.mpr ⟨hkept, List.pairwise_singleton _ _, ?_⟩
      intro a ha b hb
      obtain rfl := List.mem_singleton.mp hb
      obtain ⟨⟨p, _⟩, hp, rfl⟩ := List.mem_map.mp (List.mem_eraseDups.mp ha)
      refine ⟨p, List.mem_append_left _ hp, ?_⟩
      intro q hq
      rcases List.mem_append.mp hq with hq | hq
      -- what is new stands at no place in front of its own
      · exact absurd (List.mem_map_of_mem hq) hnew
      · rw [← List.mem_singleton.mp hq] at hbehind
        exact hbehind p _ hp

/-! ### Reading the tiers -/

/-- The texts of the tier behind `i` others, each with its place. -/
def placedTier (i : ℕ) (vs : List Value) : List (Place × String) :=
  vs.zipIdx.filterMap fun v => v.1.text?.map fun url => (toLex (i + 1, v.2), url)

/-- The texts of tiers, each with its place. -/
def placed (vs : List Value) : List (Place × String) :=
  vs.zipIdx.flatMap fun v => placedTier v.2 (v.1.list?.getD [])

theorem mem_placedTier {i : ℕ} {vs : List Value} :
    (p, url) ∈ placedTier i vs ↔
      ∃ j, toLex (i + 1, j) = p ∧ vs[j]? = some (.bytes (Bytes.ofText url)) := by
  simp only [placedTier, List.mem_filterMap, Prod.exists, List.mem_zipIdx_iff_getElem?,
    Option.map_eq_some_iff, Prod.mk.injEq, Value.text?_eq_some_iff]
  constructor
  · rintro ⟨_, j, hv, _, rfl, rfl, rfl⟩
    exact ⟨j, rfl, hv⟩
  · rintro ⟨j, rfl, hv⟩
    exact ⟨_, j, hv, url, rfl, rfl, rfl⟩

theorem mem_placed {vs : List Value} :
    (p, url) ∈ placed vs ↔ ∃ i j tier, toLex (i + 1, j) = p ∧ vs[i]? = some (.list tier) ∧
      tier[j]? = some (.bytes (Bytes.ofText url)) := by
  simp only [placed, List.mem_flatMap, Prod.exists, List.mem_zipIdx_iff_getElem?, mem_placedTier]
  constructor
  · rintro ⟨v, i, hv, j, rfl, hurl⟩
    cases v with
    | list tier => exact ⟨i, j, tier, rfl, hv, hurl⟩
    | _ => simp [Value.list?] at hurl
  · rintro ⟨i, j, tier, rfl, hv, hurl⟩
    exact ⟨.list tier, i, hv, j, rfl, hurl⟩

theorem pairwise_zipIdx {α : Type} (vs : List α) : vs.zipIdx.Pairwise (·.2 < ·.2) := by
  rw [← List.pairwise_map, List.zipIdx_map_snd]
  exact List.pairwise_lt_range'

theorem pairwise_placedTier (i : ℕ) (vs : List Value) :
    (placedTier i vs).Pairwise (·.1 < ·.1) := by
  refine List.pairwise_filterMap.mpr ((pairwise_zipIdx vs).imp ?_)
  intro v w hlt a ha b hb
  obtain ⟨_, -, rfl⟩ := Option.map_eq_some_iff.mp ha
  obtain ⟨_, -, rfl⟩ := Option.map_eq_some_iff.mp hb
  exact Prod.Lex.toLex_lt_toLex.mpr (.inr ⟨rfl, hlt⟩)

theorem pairwise_placed (vs : List Value) : (placed vs).Pairwise (·.1 < ·.1) := by
  refine List.pairwise_flatMap.mpr ⟨fun v _ => pairwise_placedTier _ _, ?_⟩
  refine (pairwise_zipIdx vs).imp ?_
  rintro v w hlt ⟨p, _⟩ hp ⟨q, _⟩ hq
  obtain ⟨_, rfl, -⟩ := mem_placedTier.mp hp
  obtain ⟨_, rfl, -⟩ := mem_placedTier.mp hq
  exact Prod.Lex.toLex_lt_toLex.mpr (.inl (Nat.succ_lt_succ hlt))

theorem map_snd_placedTier (i : ℕ) (vs : List Value) :
    (placedTier i vs).map Prod.snd = texts vs := by
  conv => rhs; rw [texts, ← List.zipIdx_map_fst 0 vs, List.filterMap_map]
  simp [placedTier, List.map_filterMap, Function.comp_def]

/-- A tier that is not a list has no texts, and one without texts is not missed. -/
theorem flatten_tiers (vs : List Value) :
    (tiers vs).flatten = vs.flatMap fun v => texts (v.list?.getD []) := by
  have hnone : texts [] = [] := rfl
  rw [tiers, List.flatten_filter_ne_nil]
  induction vs with
  | nil => rfl
  | cons v vs ih => cases hv : v.list? <;> simp [hv, hnone, ih]

theorem map_snd_placed (vs : List Value) : (placed vs).map Prod.snd = (tiers vs).flatten := by
  conv => rhs; rw [flatten_tiers, ← List.zipIdx_map_fst 0 vs, List.flatMap_map]
  simp only [placed, List.map_flatMap, map_snd_placedTier]

/-! ### Torrents -/

/-- The tiers of a root; there are none if they are not in a list. -/
def announceTiers (root : Dict Value) : List Value :=
  ((root.get? (Bytes.ofText "announce-list")).bind Value.list?).getD []

theorem get?_of_getElem?_announceTiers {i : ℕ} {v : Value}
    (h : (announceTiers root)[i]? = some v) :
    root.get? (Bytes.ofText "announce-list") = some (.list (announceTiers root)) := by
  unfold announceTiers at h ⊢
  cases htiers : (root.get? (Bytes.ofText "announce-list")).bind Value.list? with
  | none => simp [htiers] at h
  | some vs =>
    obtain ⟨w, hw, hvs⟩ := Option.bind_eq_some_iff.mp htiers
    rw [hw, Value.list?_eq_some_iff.mp hvs, Option.getD_some]

theorem stands_iff :
    Stands root p url ↔ (toLex (0, 0) = p ∧ root.HasText "announce" url) ∨
      (p, url) ∈ placed (announceTiers root) := by
  constructor
  · rintro (h | ⟨htiers, htier, hurl⟩)
    · exact .inl ⟨rfl, h⟩
    · rw [announceTiers, htiers]
      exact .inr (mem_placed.mpr ⟨_, _, _, rfl, htier, hurl⟩)
  · rintro (⟨rfl, h⟩ | h)
    · exact .announce h
    · obtain ⟨i, j, tier, rfl, htier, hurl⟩ := mem_placed.mp h
      exact .entry (get?_of_getElem?_announceTiers htier) htier hurl

/-- The announce URL and the tiers of a torrent are read off its root. -/
theorem Made.announce_root {m : Torrent} (h : Made m) :
    m.root.HasText "announce" m.announce ∧ m.announceList = tiers (announceTiers m.root) := by
  obtain ⟨root, raw, h⟩ := h.exists_ofRoot
  obtain ⟨announce, hannounce, h⟩ := bind_eq_ok_iff.mp h
  obtain ⟨info, -, h⟩ := bind_eq_ok_iff.mp h
  rw [orFlaw_eq_ok_iff, announce_eq_some_iff] at hannounce
  cases h
  exact ⟨hannounce.2, rfl⟩

/-- The trackers are the texts that stand in the root, read place by place. -/
theorem Made.exists_places {m : Torrent} (h : Made m) : ∃ ps : List (Place × String),
    ps.Pairwise (·.1 < ·.1) ∧ (∀ p url, (p, url) ∈ ps ↔ Stands m.root p url) ∧
      m.trackers = (ps.map Prod.snd).eraseDups := by
  obtain ⟨hannounce, htiers⟩ := h.announce_root
  refine ⟨(toLex (0, 0), m.announce) :: placed (announceTiers m.root), ?_, ?_, ?_⟩
  · refine List.pairwise_cons.mpr ⟨?_, pairwise_placed _⟩
    rintro ⟨p, url⟩ hp
    obtain ⟨i, j, -, rfl, -⟩ := mem_placed.mp hp
    exact Prod.Lex.toLex_lt_toLex.mpr (.inl i.succ_pos)
  · intro p url
    have hunique : m.root.HasText "announce" url ↔ m.announce = url := by
      rw [← Dict.bind_text?_eq_some_iff] at hannounce ⊢
      rw [hannounce, Option.some.injEq]
    rw [stands_iff, hunique, List.mem_cons, Prod.mk.injEq, eq_comm (a := p), eq_comm (a := url)]
  · rw [trackers_eq, htiers, List.map_cons, map_snd_placed]

/-- The trackers of a torrent start with the announce URL, name no tracker twice, and are just the
announce URL and the texts in those tiers that are lists, in the order in which these come up first
when the root is read from the announce URL to the last tier. No other list is like this. -/
theorem trackers_by_first_place (m : Torrent) (h : Made m) :
    m.root.HasText "announce" m.announce ∧ m.trackers.head? = some m.announce ∧ m.trackers.Nodup ∧
      (∀ url, url ∈ m.trackers ↔ ∃ p, Stands m.root p url) ∧ m.trackers.Pairwise (Before m.root) ∧
      ∀ urls : List String, (∀ url, url ∈ urls ↔ ∃ p, Stands m.root p url) →
        urls.Pairwise (Before m.root) → urls = m.trackers := by
  obtain ⟨ps, hsorted, hplaces, htrackers⟩ := h.exists_places
  have hmem : ∀ url, url ∈ m.trackers ↔ ∃ p, Stands m.root p url := by
    intro url
    simp [htrackers, hplaces]
  have hbefore : m.trackers.Pairwise (Before m.root) := by
    rw [htrackers]
    refine (pairwise_eraseDups hsorted).imp ?_
    rintro a b ⟨p, hp, hfirst⟩
    exact ⟨p, (hplaces p a).mp hp, fun q hq => hfirst q ((hplaces q b).mpr hq)⟩
  refine ⟨h.announce_root.1, ?_, nodup_of_before hbefore, hmem, hbefore, ?_⟩
  · rw [trackers_eq, List.eraseDups_cons, List.head?_cons]
  · intro urls hurls hpairwise
    have hperm : urls.Perm m.trackers :=
      (List.perm_ext_iff_of_nodup (nodup_of_before hpairwise) (nodup_of_before hbefore)).mpr
        fun url => (hurls url).trans (hmem url).symm
    exact hperm.eq_of_pairwise (fun _ _ _ _ hab hba => (hab.asymm hba).elim) hpairwise hbefore

/-- A text comes twice in one tier, and again in another; a tier is an integer, and texts have an
integer and a string that is not UTF-8 among them. -/
theorem trackers_by_first_place_of_repeated :
    let info := "4:infod6:lengthi1e4:name1:n12:piece lengthi1e6:pieces0:e"
    let data := Bytes.ofText "d8:announce1:a13:announce-listll1:b1:be1:di0el1:" ++ [0xff] ++
      Bytes.ofText "i1e1:c1:b1:aleelee" ++ Bytes.ofText info ++ Bytes.ofText "e"
    ∃ m, ofBytes data = .ok m ∧ m.trackers = ["a", "b", "c"] ∧ m.trackers.Nodup ∧
      (∀ p, ¬Stands m.root p "d") ∧ Before m.root "b" "c" := by
  intro info data
  have hread : trackers <$> ofBytes data = .ok ["a", "b", "c"] := by decide +kernel
  obtain ⟨m, hm, htrackers⟩ := map_eq_ok_iff.mp hread
  obtain ⟨-, -, hnodup, hmem, hbefore, -⟩ := trackers_by_first_place m (.ofBytes hm)
  have hd : "d" ∉ m.trackers := by simp [htrackers]
  refine ⟨m, hm, htrackers, hnodup, ?_, ?_⟩
  · exact fun p hp => hd ((hmem "d").mpr ⟨p, hp⟩)
  · rw [htrackers] at hbefore
    simp only [List.pairwise_cons] at hbefore
    exact hbefore.2.1 "c" (by simp)

end BitTorrent.Torrent
