import BitTorrent.Bytes

/-! Dictionaries keyed by byte strings, in the order in which the keys came. A key
that comes again keeps its place and takes the new value. -/

namespace BitTorrent.Bencode

structure Dict (α : Type) where
  entries : List (Bytes × α)
  deriving BEq, DecidableEq, Inhabited

namespace Dict

variable {α : Type}

def empty : Dict α := ⟨[]⟩

def get? (d : Dict α) (key : Bytes) : Option α := d.entries.lookup key

def contains (d : Dict α) (key : Bytes) : Bool := (d.get? key).isSome

def size (d : Dict α) : Nat := d.entries.length

def isEmpty (d : Dict α) : Bool := d.entries.isEmpty

def keys (d : Dict α) : List Bytes := d.entries.map Prod.fst

/-- The entries with one value set, and the value that was there before. -/
def insertEntry (key : Bytes) (value : α) : List (Bytes × α) → Option α × List (Bytes × α)
  | [] => (none, [(key, value)])
  | (k, v) :: es =>
    if k = key then (some v, (k, value) :: es)
    else
      let (old, es') := insertEntry key value es
      (old, (k, v) :: es')

/-- The entries without a key, and the value that it had. -/
def eraseEntry (key : Bytes) : List (Bytes × α) → Option α × List (Bytes × α)
  | [] => (none, [])
  | (k, v) :: es =>
    if k = key then (some v, es)
    else
      let (old, es') := eraseEntry key es
      (old, (k, v) :: es')

/-- Sets the value of a key, answering the value that it replaces. -/
def insert (d : Dict α) (key : Bytes) (value : α) : Option α × Dict α :=
  let (old, es) := insertEntry key value d.entries
  (old, ⟨es⟩)

/-- Removes a key, answering its value. -/
def erase (d : Dict α) (key : Bytes) : Option α × Dict α :=
  let (old, es) := eraseEntry key d.entries
  (old, ⟨es⟩)

def ofList (es : List (Bytes × α)) : Dict α :=
  es.foldl (fun d e => (d.insert e.1 e.2).2) empty

end Dict

end BitTorrent.Bencode
