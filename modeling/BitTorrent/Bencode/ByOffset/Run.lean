import BitTorrent.Bencode.Error

/-! Runs of a reader that works by offsets into one buffer. What can go wrong with an offset is told
apart from the input being refused: a run is trapped at a byte or a slice that is not there, at an
offset that is too large for a word of 64 bits, at a counter that would fall below zero, and in a
loop that does not move on. What a run comes by is recorded. -/

namespace BitTorrent.Bencode.ByOffset

inductive Trap where
  | index
  | slice
  | overflow
  | underflow
  /-- A turn of a loop leaves its offset where it was, or moves it back or out of bounds. A loop
  that is never trapped here comes to an end. -/
  | stalled
  deriving DecidableEq

/-- Why a run has no value. -/
inductive Halt where
  | trap (t : Trap)
  | refused (e : Error)
  deriving DecidableEq

inductive Event where
  /-- A container is entered that stands inside of `depth` others and is closed at `stop`. -/
  | entered (start stop depth : Nat)
  /-- One turn of a loop, which leads from an offset to the next. -/
  | turned (pos next limit : Nat)
  /-- The loop over what is in a container ends at `pos`, and the container at `stop`. -/
  | left (pos stop : Nat)
  deriving DecidableEq

abbrev Run := ExceptT Halt (StateM (List Event))

variable {α β σ : Type}

/-- The result, and what has been recorded after `log`. -/
def Run.exec (m : Run α) (log : List Event) : Except Halt α × List Event :=
  (ExceptT.run m).run log

/-! ### Steps -/

def trap (t : Trap) : Run α := throw (.trap t)

def refuse (e : Error) : Run α := throw (.refused e)

def record (e : Event) : Run Unit := modify (· ++ [e])

def add (a b : Nat) : Run Nat := if a + b < UInt64.size then pure (a + b) else trap .overflow

def sub (a b : Nat) : Run Nat := if b ≤ a then pure (a - b) else trap .underflow

def index (data : Bytes) (i : Nat) : Run UInt8 :=
  match data[i]? with
  | some b => pure b
  | none => trap .index

/-- Bytes from `start` up to but not including `stop`. -/
def slice (data : Bytes) (start stop : Nat) : Run Bytes :=
  if start ≤ stop ∧ stop ≤ data.length then pure ((data.drop start).take (stop - start))
  else trap .slice

/-- Turns until one has a value. A turn that has none goes on in another state, at an offset that
is further on. -/
def loop (limit : Nat) (offset : σ → Nat) (turn : σ → Run (α ⊕ σ)) (s : σ) : Run α := do
  match ← turn s with
  | .inl a => return a
  | .inr next => do
    record (.turned (offset s) (offset next) limit)
    if offset s < offset next ∧ offset next ≤ limit then loop limit offset turn next
    else trap .stalled
termination_by limit - offset s

/-- Reads a container, whose value comes with the offset where the loop over it ends. -/
def enclosed (start stop depth : Nat) (m : Run (α × Nat)) : Run α := do
  record (.entered start stop depth)
  let r ← m
  record (.left r.2 stop)
  return r.1

end BitTorrent.Bencode.ByOffset
