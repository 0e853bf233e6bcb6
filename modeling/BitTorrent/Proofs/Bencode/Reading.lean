import BitTorrent.Proofs.Bencode.Closed

/-! The places that the reader comes to. A place is entered by a step of the reader that has
succeeded, so what stands in front of it is known: containers that are open, and in each
of them whole elements only. What stands behind it is a body that the bracket scan has
passed over already. Every error of the reader is raised at one of these places. -/

namespace BitTorrent.Bencode.Reading

open ParseTree (textOfItems textOfEntries textOfItems_eq_flatMap textOfEntries_eq_flatMap)

/-! ### Places -/

inductive Place where
  /-- At the opening bracket of a container. -/
  | container
  /-- In a list, at an element or the closing bracket. -/
  | item
  /-- In a dictionary, at a key or the closing bracket. -/
  | key
  /-- In a dictionary, after a key. -/
  | value
  deriving DecidableEq

/-- An element may stand at the first place and leads to the second. -/
inductive Place.Next : Place → Place → Prop
  | item : Next .item .item
  | value : Next .value .key

/-- The reader comes to a place at offset `pos`, with `k` containers that may still be opened.
What it may look at there is the container, or else the rest of the body of one. -/
inductive Reached (options : Options) (data : Bytes) : Place → Nat → Nat → Bytes → Prop
  | outermost {b : UInt8} {w : Bytes} : data = b :: w → (Lead.of b = .list ∨ Lead.of b = .dict) →
      closingAt data 0 = .ok w.length →
      Reached options data .container (options.maxDepth + 1) 0 data
  | list {k pos : Nat} {body : Bytes} : Reached options data .container (k + 1) pos (0x6c :: body) →
      Reached options data .item k (pos + 1) body
  | dict {k pos : Nat} {body : Bytes} : Reached options data .container (k + 1) pos (0x64 :: body) →
      Reached options data .key k (pos + 1) body
  | key {k pos n : Nat} {b : UInt8} {tail name : Bytes} :
      Reached options data .key k pos (b :: tail) → tail ≠ [] →
      key pos (b :: tail) = .ok (name, n) →
      Reached options data .value k (pos + n + 1) (tail.drop n)
  | element {place next : Place} {k pos n : Nat} {b : UInt8} {tail : Bytes} {v : Value} :
      Reached options data place k pos (b :: tail) → place.Next next → tail ≠ [] →
      elementTail pos (b :: tail) = .ok n → value k pos (b :: tail.take n) = .ok v →
      Reached options data next k (pos + n + 1) (tail.drop n)
  | inner {place next : Place} {k pos n : Nat} {b : UInt8} {tail : Bytes} :
      Reached options data place k pos (b :: tail) → place.Next next → tail ≠ [] →
      elementTail pos (b :: tail) = .ok n → (Lead.of b = .list ∨ Lead.of b = .dict) →
      Reached options data .container k pos (b :: tail.take n)

/-- Bytes that may stand in front of a value: open containers with whole elements in them. -/
inductive Before : Bytes → Prop
  | outermost : Before []
  | item {front : Bytes} (ts : List ParseTree) : Before front →
      Before (front ++ (0x6c :: textOfItems ts))
  | value {front : Bytes} (es : List (StringForm × ParseTree)) (s : StringForm) : Before front →
      Before (front ++ (0x64 :: textOfEntries es ++ s.text))

/-- Bytes that may stand in front of a place. -/
def Passed : Place → Bytes → Prop
  | .container, front => Before front
  | .item, front => ∃ outer ts, Before outer ∧ front = outer ++ (0x6c :: textOfItems ts)
  | .key, front => ∃ outer es, Before outer ∧ front = outer ++ (0x64 :: textOfEntries es)
  | .value, front => ∃ outer es, ∃ s : StringForm, Before outer ∧
      front = outer ++ (0x64 :: textOfEntries es ++ s.text)

theorem Passed.key {front : Bytes} (h : Passed .key front) (s : StringForm) :
    Passed .value (front ++ s.text) := by
  obtain ⟨outer, es, houter, rfl⟩ := h
  exact ⟨outer, es, s, houter, List.append_assoc _ _ _⟩

theorem Passed.element {place next : Place} {front : Bytes} (h : Passed place front)
    (hnext : place.Next next) (t : ParseTree) : Passed next (front ++ t.text) := by
  cases hnext with
  | item =>
    obtain ⟨outer, ts, houter, rfl⟩ := h
    refine ⟨outer, ts ++ [t], houter, ?_⟩
    simp [textOfItems_eq_flatMap]
  | value =>
    obtain ⟨outer, es, s, houter, rfl⟩ := h
    refine ⟨outer, es ++ [(s, t)], houter, ?_⟩
    simp [textOfEntries_eq_flatMap]

theorem Passed.inner {place next : Place} {front : Bytes} (h : Passed place front)
    (hnext : place.Next next) : Before front := by
  cases hnext with
  | item =>
    obtain ⟨outer, ts, houter, rfl⟩ := h
    exact .item ts houter
  | value =>
    obtain ⟨outer, es, s, houter, rfl⟩ := h
    exact .value es s houter

/-- What the bracket scan has found out about the bytes at a place. -/
def Scanned : Place → Nat → Bytes → Prop
  | .container, pos, token => ∃ b body,
      token = b :: body ∧ (Lead.of b = .list ∨ Lead.of b = .dict) ∧ Closed (pos + 1) body
  | _, pos, body => Closed pos body

theorem scanned_iff_closed {place : Place} {pos : Nat} {body : Bytes} (h : place ≠ .container) :
    Scanned place pos body ↔ Closed pos body := by
  cases place with
  | container => exact absurd rfl h
  | _ => rfl

theorem Place.Next.ne_container {place next : Place} (h : place.Next next) :
    place ≠ .container ∧ next ≠ .container := by
  cases h <;> exact ⟨by decide, by decide⟩

/-- What is known of a place that the reader comes to. -/
structure Placed (data : Bytes) (place : Place) (pos : Nat) (rest : Bytes) : Prop where
  exists_front :
    ∃ front back, data = front ++ rest ++ back ∧ front.length = pos ∧ Passed place front
  scanned : Scanned place pos rest

section Reached

variable {options : Options} {data rest : Bytes} {place : Place} {k pos : Nat}

/-- Every step of the reader keeps what is known of the place. -/
theorem Reached.placed (h : Reached options data place k pos rest) :
    Placed data place pos rest := by
  induction h with
  | @outermost b w hdata hlead hclosing =>
    subst hdata
    have hrun : Scan.run 0 (.payload 0) 1 w = .ok w.length := by
      have hbracket : Lead.of b = .integer ∨ Lead.of b = .list ∨ Lead.of b = .dict := .inr hlead
      rwa [← closing_cons hbracket 0 w]
    exact ⟨⟨[], [], by simp, rfl, .outermost⟩, b, w, rfl, hlead, w.length, hrun, Nat.add_comm _ 1⟩
  | list h ih =>
    obtain ⟨⟨front, back, hdata, hpos, hpassed⟩, b, body, htoken, -, hclosed⟩ := ih
    cases htoken
    exact ⟨⟨front ++ [0x6c], back, by simp [hdata], by simp [hpos], front, [], hpassed, rfl⟩,
      hclosed⟩
  | dict h ih =>
    obtain ⟨⟨front, back, hdata, hpos, hpassed⟩, b, body, htoken, -, hclosed⟩ := ih
    cases htoken
    exact ⟨⟨front ++ [0x64], back, by simp [hdata], by simp [hpos], front, [], hpassed, rfl⟩,
      hclosed⟩
  | key h hne hkey ih =>
    obtain ⟨⟨front, back, hdata, hpos, hpassed⟩, hclosed⟩ := ih
    obtain ⟨s, hs, hlen, hrest⟩ := Closed.after_key hclosed hkey
    refine ⟨⟨front ++ s.text, back, ?_, ?_, hpassed.key s⟩, hrest⟩
    · rw [hdata, hs, List.append_assoc front s.text]
    · rw [List.length_append, hpos, hlen, Nat.add_assoc]
  | element h hnext hne hn hv ih =>
    obtain ⟨⟨front, back, hdata, hpos, hpassed⟩, hscanned⟩ := ih
    have hclosed := (scanned_iff_closed hnext.ne_container.1).mp hscanned
    obtain ⟨t, ht, hlen, hrest⟩ := hclosed.after_element hn hv
    refine ⟨⟨front ++ t.text, back, ?_, ?_, hpassed.element hnext t⟩,
      (scanned_iff_closed hnext.ne_container.2).mpr hrest⟩
    · rw [hdata, ht, List.append_assoc front t.text]
    · rw [List.length_append, hpos, hlen, Nat.add_assoc]
  | @inner _ _ _ _ n b tail h hnext hne hn hlead ih =>
    obtain ⟨⟨front, back, hdata, hpos, hpassed⟩, hscanned⟩ := ih
    have hclosed := (scanned_iff_closed hnext.ne_container.1).mp hscanned
    refine ⟨⟨front, tail.drop n ++ back, ?_, hpos, hpassed.inner hnext⟩, b, tail.take n, rfl, hlead,
      hclosed.inner hn hlead⟩
    rw [hdata, List.append_assoc, List.append_assoc, List.cons_append, List.cons_append,
      ← List.append_assoc (tail.take n), List.take_append_drop]

/-! ### Errors -/

/-- The reader stops at a place with an error that it has not got from another place. -/
inductive Stops : Place → Nat → Nat → Bytes → Error → Prop
  | tooDeep {pos : Nat} {token : Bytes} : Stops .container 0 pos token .nestingTooDeep
  | key {k pos : Nat} {b : UInt8} {tail : Bytes} {e : Error} : tail ≠ [] →
      key pos (b :: tail) = .error e → Stops .key k pos (b :: tail) e
  | noValue {k pos : Nat} {c : UInt8} : Stops .value k pos [c] (.unterminatedContainer pos)
  | extent {place next : Place} {k pos : Nat} {b : UInt8} {tail : Bytes} {e : Error} :
      place.Next next → tail ≠ [] → elementTail pos (b :: tail) = .error e →
      Stops place k pos (b :: tail) e
  | leaf {place next : Place} {k pos n : Nat} {b : UInt8} {tail : Bytes} {e : Error} :
      place.Next next → tail ≠ [] → elementTail pos (b :: tail) = .ok n →
      ¬(Lead.of b = .list ∨ Lead.of b = .dict) → value k pos (b :: tail.take n) = .error e →
      Stops place k pos (b :: tail) e

/-- An error comes from a place. -/
def Sourced (options : Options) (data : Bytes) (e : Error) : Prop :=
  ∃ place k pos rest, Reached options data place k pos rest ∧ Stops place k pos rest e

variable {e : Error}

theorem sourced_of_element {next : Place} {n : Nat} {b : UInt8} {tail : Bytes}
    (hvalue : ∀ pos token, Reached options data .container k pos token →
      value k pos token = .error e → Sourced options data e)
    (h : Reached options data place k pos (b :: tail)) (hnext : place.Next next) (hne : tail ≠ [])
    (hn : elementTail pos (b :: tail) = .ok n) (he : value k pos (b :: tail.take n) = .error e) :
    Sourced options data e := by
  by_cases hlead : Lead.of b = .list ∨ Lead.of b = .dict
  · exact hvalue pos (b :: tail.take n) (h.inner hnext hne hn hlead) he
  · exact ⟨place, k, pos, b :: tail, h, .leaf hnext hne hn hlead he⟩

theorem sourced_of_items {body : Bytes}
    (hvalue : ∀ pos token, Reached options data .container k pos token →
      value k pos token = .error e → Sourced options data e)
    (h : Reached options data .item k pos body) (he : items (value k) pos body = .error e) :
    Sourced options data e := by
  fun_induction items (value k) pos body with
  | case1 => cases he
  | case2 => cases he
  | case3 pos b tail hne ih =>
    rcases bind_eq_error_iff.mp he with he | ⟨n, hn, he⟩
    · exact ⟨.item, k, pos, b :: tail, h, .extent .item hne he⟩
    rcases bind_eq_error_iff.mp he with he | ⟨v, hv, he⟩
    · exact sourced_of_element hvalue h .item hne hn he
    · exact ih n (h.element .item hne hn hv) (bind_pure_eq_error_iff.mp he)

theorem sourced_of_entries {body : Bytes}
    (hvalue : ∀ pos token, Reached options data .container k pos token →
      value k pos token = .error e → Sourced options data e)
    (h : Reached options data .key k pos body) (he : entries (value k) pos body = .error e) :
    Sourced options data e := by
  fun_induction entries (value k) pos body with
  | case1 => cases he
  | case2 => cases he
  | case3 pos b tail hne ih =>
    rcases bind_eq_error_iff.mp he with he | ⟨⟨name, n⟩, hkey, he⟩
    · exact ⟨.key, k, pos, b :: tail, h, .key hne he⟩
    have hafter : Reached options data .value k (pos + n + 1) (tail.drop n) := h.key hne hkey
    dsimp only at he
    split at he
    · rename_i hdrop
      exact absurd hdrop hafter.placed.scanned.ne_nil
    · rename_i c hdrop
      cases he
      have hlen : pos + tail.length = pos + n + 1 := by
        have := congrArg List.length hdrop
        rw [List.length_drop, List.length_singleton] at this
        omega
      rw [hdrop] at hafter
      rw [hlen]
      exact ⟨.value, k, pos + n + 1, [c], hafter, .noValue⟩
    · rename_i c more hmore hdrop
      rw [hdrop] at hafter
      rcases bind_eq_error_iff.mp he with he | ⟨m, hm, he⟩
      · exact ⟨.value, k, pos + n + 1, c :: more, hafter, .extent .value hmore he⟩
      rcases bind_eq_error_iff.mp he with he | ⟨v, hv, he⟩
      · exact sourced_of_element hvalue hafter .value hmore hm he
      · have hnext : Reached options data .key k (pos + n + m + 2) (more.drop m) := by
          have hpos : pos + n + m + 2 = pos + n + 1 + m + 1 := by omega
          rw [hpos]
          exact hafter.element .value hmore hm hv
        exact ih n c more hdrop m hnext (bind_pure_eq_error_iff.mp he)

/-- Every error that comes out of a container is raised at a place that the reader comes to. -/
theorem sourced_of_value {token : Bytes} (h : Reached options data .container k pos token)
    (he : value k pos token = .error e) : Sourced options data e := by
  obtain ⟨b, body, rfl, hlead, -⟩ := h.placed.scanned
  induction k generalizing pos b body with
  | zero =>
    rw [value_zero hlead] at he
    cases he
    exact ⟨.container, 0, pos, b :: body, h, .tooDeep⟩
  | succ k ih =>
    have hinner : ∀ pos token, Reached options data .container k pos token →
        value k pos token = .error e → Sourced options data e := by
      intro pos token h he
      obtain ⟨b, body, rfl, hlead, -⟩ := h.placed.scanned
      exact ih b body h he hlead
    rcases hlead with hlead | hlead
    · obtain rfl := Lead.of_eq_list_iff.mp hlead
      rw [value_list hlead] at he
      exact sourced_of_items hinner h.list (map_eq_error_iff.mp he)
    · obtain rfl := Lead.of_eq_dict_iff.mp hlead
      rw [value_dict hlead] at he
      exact sourced_of_entries hinner h.dict (map_eq_error_iff.mp he)

end Reached

end BitTorrent.Bencode.Reading
