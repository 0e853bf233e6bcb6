/-! Byte strings as lists. The cuts that the formats make are here: a prefix of a
given length, whole records of one size, and strings whose size is part of their
type. A cut of `n` bytes looks at no more than `n` of them. -/

namespace BitTorrent

abbrev Bytes := List UInt8

namespace Bytes

/-- The UTF-8 bytes of a text. -/
def ofText (s : String) : Bytes := s.toList.flatMap String.utf8EncodeChar

theorem ofText_append (s t : String) : ofText (s ++ t) = ofText s ++ ofText t := by
  rw [ofText, String.toList_append, List.flatMap_append]
  rfl

theorem ofText_inj {s t : String} (h : ofText s = ofText t) : s = t := by
  have hbytes := congrArg List.toByteArray h
  rw [← String.toByteArray_inj, ← String.ofList_toList (s := s), ← String.ofList_toList (s := t)]
  exact hbytes

/-- The bytes of characters below 128; of any other character the low eight bits. -/
def ofAscii (cs : List Char) : Bytes := cs.map Char.toUInt8

/-- Whether there are at least `n` bytes. -/
def hasAtLeast : Nat → Bytes → Bool
  | 0, _ => true
  | _ + 1, [] => false
  | n + 1, _ :: bs => hasAtLeast n bs

@[simp] theorem hasAtLeast_eq_true_iff {n : Nat} {bs : Bytes} :
    hasAtLeast n bs = true ↔ n ≤ bs.length := by
  fun_induction hasAtLeast n bs <;> simp_all

/-- The first `n` bytes and what follows them, when there are that many. -/
def splitAt? (n : Nat) (bs : Bytes) : Option (Bytes × Bytes) :=
  if hasAtLeast n bs then some (bs.take n, bs.drop n) else none

theorem splitAt?_eq_some {n : Nat} {bs a b : Bytes} (h : splitAt? n bs = some (a, b)) :
    n ≤ bs.length ∧ a = bs.take n ∧ b = bs.drop n := by
  unfold splitAt? at h
  split at h
  · rename_i hn
    cases h
    exact ⟨hasAtLeast_eq_true_iff.mp hn, rfl, rfl⟩
  · cases h

/-- The cut of a prefix that is there does not depend on what comes after it. -/
theorem splitAt?_append {n : Nat} {bs a b : Bytes} (h : splitAt? n bs = some (a, b))
    (more : Bytes) : splitAt? n (bs ++ more) = some (a, b ++ more) := by
  obtain ⟨hn, rfl, rfl⟩ := splitAt?_eq_some h
  have hlen : hasAtLeast n (bs ++ more) := by
    rw [hasAtLeast_eq_true_iff, List.length_append]
    omega
  rw [splitAt?, if_pos hlen, List.take_append_of_le_length hn, List.drop_append_of_le_length hn]

theorem splitAt?_append_of_length {n : Nat} {a : Bytes} (h : a.length = n) (b : Bytes) :
    splitAt? n (a ++ b) = some (a, b) := by
  have hlen : hasAtLeast n (a ++ b) := by
    rw [hasAtLeast_eq_true_iff, List.length_append]
    omega
  rw [splitAt?, if_pos hlen, List.take_left' h, List.drop_left' h]

end Bytes

/-! ### Strings of a fixed size -/

/-- A byte string of exactly `n` bytes. -/
structure Octets (n : Nat) where
  toList : Bytes
  length_toList : toList.length = n
  deriving DecidableEq

namespace Octets

variable {n : Nat}

def ofBytes? (n : Nat) (bs : Bytes) : Option (Octets n) :=
  if h : bs.length = n then some ⟨bs, h⟩ else none

@[ext] theorem ext {a b : Octets n} (h : a.toList = b.toList) : a = b := by
  cases a; cases b; cases h; rfl

@[simp] theorem ofBytes?_toList (a : Octets n) : ofBytes? n a.toList = some a := by
  simp [ofBytes?, a.length_toList]

theorem ofBytes?_eq_some_iff {bs : Bytes} {a : Octets n} :
    ofBytes? n bs = some a ↔ bs = a.toList := by
  constructor
  · intro h
    unfold ofBytes? at h
    split at h
    · cases h; rfl
    · cases h
  · rintro rfl
    exact ofBytes?_toList a

/-- The bytes from `start` on, as many as the type says. -/
def slice (n start : Nat) (bs : Bytes) (h : start + n ≤ bs.length) : Octets n :=
  ⟨(bs.drop start).take n, by simp; omega⟩

theorem slice_eq {start : Nat} {bs : Bytes} {o : Octets n} (front back : Bytes)
    (hbs : bs = front ++ (o.toList ++ back)) (hfront : front.length = start)
    (h : start + n ≤ bs.length) : slice n start bs h = o := by
  subst hbs
  ext1
  show ((front ++ (o.toList ++ back)).drop start).take n = o.toList
  rw [List.drop_left' hfront, List.take_left' o.length_toList]

def zero (n : Nat) : Octets n := ⟨List.replicate n 0, by simp⟩

end Octets

/-- The whole records of `n + 1` bytes at the head of a string; what is left over is dropped. -/
def records (n : Nat) (bs : Bytes) : List (Octets (n + 1)) :=
  if h : Bytes.hasAtLeast (n + 1) bs then
    have h' := Bytes.hasAtLeast_eq_true_iff.mp h
    .slice (n + 1) 0 bs (by omega) :: records n (bs.drop (n + 1))
  else []
termination_by bs.length
decreasing_by rw [List.length_drop]; omega

/-- Records put together again are the string that they were cut from, if nothing was left over. -/
theorem flatMap_records {n : Nat} {bs : Bytes} (h : bs.length % (n + 1) = 0) :
    (records n bs).flatMap Octets.toList = bs := by
  fun_induction records n bs with
  | case1 bs hlen hle ih =>
    have hrest : (bs.drop (n + 1)).length % (n + 1) = 0 := by
      rw [List.length_drop, ← Nat.mod_eq_sub_mod hle, h]
    rw [List.flatMap_cons, ih hrest]
    exact List.take_append_drop (n + 1) bs
  | case2 bs hlen =>
    rw [Bytes.hasAtLeast_eq_true_iff] at hlen
    have hnil : bs.length = 0 := by rwa [Nat.mod_eq_of_lt (by omega)] at h
    rw [List.flatMap_nil, List.eq_nil_of_length_eq_zero hnil]

end BitTorrent
