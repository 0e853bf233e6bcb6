import BitTorrent.Proofs.Wire.Connection

/-! Two connections joined by two channels. A channel keeps all bytes in order, takes what
is written in parts of any size, and brings what is in flight in parts of any size but
empty ones. The steps of the two sides come in any order. A call in progress is the
operation of the connection on what the channels have done for it so far; where that
finds the end of what has arrived the call waits, since channels are never closed. -/

namespace BitTorrent.Wire

inductive End where
  | near
  | far
  deriving DecidableEq

def End.other : End → End
  | .near => .far
  | .far => .near

@[simp] theorem End.other_other (e : End) : e.other.other = e := by
  cases e <;> rfl

inductive Call where
  | handshake
  | send (m : Message)
  | receive
  deriving DecidableEq

/-- One side, with what its calls have returned so far. -/
structure Side where
  /-- Its arrivals and acceptances are those of the call in progress. -/
  connection : Connection
  call : Option Call
  /-- How many bytes of the call in progress the channel has taken. -/
  written : Nat
  handshake : Option (Except Error Handshake)
  sends : List (Message × Except Error Unit)
  receives : List (Except Error Message)

/-- Whether an operation has come to the end of what has arrived. -/
def Outcome.waits {α : Type} (o : Outcome α) : Bool :=
  match o.result with
  | .error .connectionClosed => true
  | _ => false

namespace Side

def new : Side := ⟨.new [] [], none, 0, none, [], []⟩

/-! ### The call in progress -/

/-- All the bytes that it writes. -/
def output (ours : Handshake) (s : Side) : Bytes :=
  match s.call with
  | none => []
  | some .handshake => (s.connection.handshake ours).sent
  | some (.send m) => (s.connection.send m).sent
  | some .receive => s.connection.receive.sent

/-- Whether it needs more bytes, once its own are written. -/
def waits (ours : Handshake) (s : Side) : Bool :=
  match s.call with
  | none => false
  | some .handshake => (s.connection.handshake ours).waits
  | some (.send m) => (s.connection.send m).waits
  | some .receive => s.connection.receive.waits

/-- The call is over, and leaves the connection `c`. -/
def close (s : Side) (c : Connection) : Side :=
  { s with connection := c, call := none, written := 0 }

def recordHandshake (s : Side) (r : Except Error Handshake) : Side :=
  { s with handshake := some r }

def recordSend (s : Side) (m : Message) (r : Except Error Unit) : Side :=
  { s with sends := s.sends ++ [(m, r)] }

def recordReceive (s : Side) (r : Except Error Message) : Side :=
  { s with receives := s.receives ++ [r] }

/-- What there is after it returns. -/
def returned (ours : Handshake) (s : Side) : Side :=
  match s.call with
  | none => s
  | some .handshake =>
    let o := s.connection.handshake ours
    (s.close o.connection).recordHandshake o.result
  | some (.send m) =>
    let o := s.connection.send m
    (s.close o.connection).recordSend m o.result
  | some .receive =>
    let o := s.connection.receive
    (s.close o.connection).recordReceive o.result

/-- It returns once all of its bytes are written and it waits for none. -/
def settle (ours : Handshake) (s : Side) : Side :=
  if s.written < (s.output ours).length ∨ s.waits ours then s else s.returned ours

/-- The handshake is called first and once, then sends and receives in any order. -/
def mayStart (s : Side) (call : Call) : Bool :=
  s.call.isNone &&
    match call with
    | .handshake => s.handshake.isNone
    | .send _ | .receive => s.handshake.isSome

def start (s : Side) (call : Call) : Side := { s with call := some call }

/-- The channel takes `n` more bytes. -/
def accept (s : Side) (n : Nat) : Side :=
  { s with
    written := s.written + n
    connection.acceptances := s.connection.acceptances ++ [.limit n] }

/-- The channel brings some bytes. -/
def arrive (s : Side) (data : Bytes) : Side :=
  { s with connection.arrivals := s.connection.arrivals ++ [.chunk data] }

/-- The messages for which a send returned without an error, in order. -/
def accepted (s : Side) : List Message :=
  s.sends.filterMap fun (m, result) =>
    match result with
    | .ok () => some m
    | .error _ => none

end Side

/-! ### Both sides -/

structure Link where
  side : End → Side
  /-- The bytes that an end has written and the other has not read. -/
  inFlight : End → Bytes

inductive Action where
  | start (call : Call)
  | write (n : Nat)
  | read (n : Nat)

structure Turn where
  actor : End
  action : Action

namespace Link

def new : Link := ⟨fun _ => .new, fun _ => []⟩

/-- One side changed, and what is in flight from it and to it. -/
def replace (l : Link) (e : End) (s : Side) (out back : Bytes) : Link where
  side i := if i = e then s else l.side i
  inFlight i := if i = e then out else back

/-- A step of one side, which lies within one poll of its call. A poll goes on until the stream has
to be waited for, so the call returns in the poll in which its last byte is written or read, and
the byte and the return are one step. A step that is not possible changes nothing. -/
def step (ours : End → Handshake) (l : Link) (turn : Turn) : Link :=
  let e := turn.actor
  let s := l.side e
  let out := l.inFlight e
  let back := l.inFlight e.other
  match turn.action with
  | .start call =>
    if s.mayStart call then l.replace e ((s.start call).settle (ours e)) out back else l
  | .write n =>
    let left := (s.output (ours e)).drop s.written
    if 0 < n ∧ n ≤ left.length then
      l.replace e ((s.accept n).settle (ours e)) (out ++ left.take n) back
    else l
  | .read n =>
    if 0 < n ∧ n ≤ back.length ∧ s.written = (s.output (ours e)).length ∧ s.waits (ours e) then
      l.replace e ((s.arrive (back.take n)).settle (ours e)) out (back.drop n)
    else l

/-- Any number of steps in any order, each side with its own handshake. -/
def run (ours : End → Handshake) (turns : List Turn) : Link := turns.foldl (step ours) new

end Link

end BitTorrent.Wire
