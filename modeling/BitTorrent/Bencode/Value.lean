import BitTorrent.Bencode.Dict
import BitTorrent.Text.Utf8

/-! Bencode values: 64-bit integers, byte strings, lists and dictionaries. -/

namespace BitTorrent.Bencode

inductive Value where
  | integer (n : Int64)
  | bytes (b : Bytes)
  | list (items : List Value)
  | dict (d : Dict Value)
  deriving Inhabited

namespace Value

/-! ### Reading a value as one of the four kinds -/

def integer? : Value → Option Int64
  | .integer n => some n
  | _ => none

def bytes? : Value → Option Bytes
  | .bytes b => some b
  | _ => none

/-- A byte string that is UTF-8, as text. -/
def text? : Value → Option String
  | .bytes b => Utf8.decode? b
  | _ => none

def list? : Value → Option (List Value)
  | .list items => some items
  | _ => none

def dict? : Value → Option (Dict Value)
  | .dict d => some d
  | _ => none

def get? (v : Value) (key : Bytes) : Option Value := v.dict?.bind (·.get? key)

/-- An integer from 0 up to but not including `bound`. -/
def natBelow? (bound : Nat) (v : Value) : Option Nat :=
  v.integer?.bind fun n =>
    if 0 ≤ n.toInt ∧ n.toInt < bound then some n.toInt.toNat else none

/-! ### Depth -/

mutual
/-- How many containers enclose one another: none for an integer or a byte string, and for
a container one more than for its deepest element. -/
def depth : Value → Nat
  | .integer _ => 0
  | .bytes _ => 0
  | .list items => 1 + depthOfItems items
  | .dict d => 1 + depthOfEntries d.entries
def depthOfItems : List Value → Nat
  | [] => 0
  | v :: vs => max (depth v) (depthOfItems vs)
def depthOfEntries : List (Bytes × Value) → Nat
  | [] => 0
  | (_, v) :: es => max (depth v) (depthOfEntries es)
end

/-! ### Equality -/

mutual
def decEq : (a b : Value) → Decidable (a = b)
  | .integer m, .integer n => decidable_of_iff (m = n) (by simp)
  | .bytes a, .bytes b => decidable_of_iff (a = b) (by simp)
  | .list as, .list bs =>
    match decEqItems as bs with
    | isTrue h => isTrue (by rw [h])
    | isFalse h => isFalse fun e => h (Value.list.inj e)
  | .dict ⟨as⟩, .dict ⟨bs⟩ =>
    match decEqEntries as bs with
    | isTrue h => isTrue (by rw [h])
    | isFalse h => isFalse fun e => h (Dict.mk.inj (Value.dict.inj e))
  | .integer _, .bytes _ | .integer _, .list _ | .integer _, .dict _
  | .bytes _, .integer _ | .bytes _, .list _ | .bytes _, .dict _
  | .list _, .integer _ | .list _, .bytes _ | .list _, .dict _
  | .dict _, .integer _ | .dict _, .bytes _ | .dict _, .list _ => isFalse nofun
def decEqItems : (as bs : List Value) → Decidable (as = bs)
  | [], [] => isTrue rfl
  | [], _ :: _ | _ :: _, [] => isFalse nofun
  | a :: as, b :: bs =>
    match decEq a b with
    | isFalse h => isFalse fun e => h (List.cons.inj e).1
    | isTrue h =>
      match decEqItems as bs with
      | isTrue hs => isTrue (by rw [h, hs])
      | isFalse hs => isFalse fun e => hs (List.cons.inj e).2
def decEqEntries : (as bs : List (Bytes × Value)) → Decidable (as = bs)
  | [], [] => isTrue rfl
  | [], _ :: _ | _ :: _, [] => isFalse nofun
  | (k, a) :: as, (l, b) :: bs =>
    if hk : k = l then
      match decEq a b with
      | isFalse h => isFalse fun e => h (Prod.mk.inj (List.cons.inj e).1).2
      | isTrue h =>
        match decEqEntries as bs with
        | isTrue hs => isTrue (by rw [hk, h, hs])
        | isFalse hs => isFalse fun e => hs (List.cons.inj e).2
    else isFalse fun e => hk (Prod.mk.inj (List.cons.inj e).1).1
end

instance : DecidableEq Value := decEq

end Value

end BitTorrent.Bencode
