import BitTorrent.Log
import BitTorrent.Wire.Frame
import BitTorrent.Wire.Handshake

/-! Handshakes and messages over a byte stream. The stream is given by what its next
reads and writes come to. What has been read and not yet used stays in a buffer, so
bytes that arrive together with a handshake or a message are kept, also across errors. -/

namespace BitTorrent.Wire

/-- What one read comes to. An empty chunk is the end of the stream. A stall lasts up to the
deadline of the read: what comes right after it is still in time, a second stall is not. -/
inductive Arrival where
  | chunk (data : Bytes)
  | fault (f : Fault)
  | stall
  deriving DecidableEq

/-- What one write comes to: at most `limit` bytes are accepted, or none. A stall lasts up to the
deadline for all of the data: what is accepted right after it is in time, a second stall is not. -/
inductive Acceptance where
  | limit (n : Nat)
  | fault (f : Fault)
  | stall
  deriving DecidableEq

/-- After the last arrival every read finds the end of the stream; after the last acceptance
every write is accepted whole. -/
structure Connection where
  arrivals : List Arrival
  acceptances : List Acceptance
  buffer : Bytes
  deriving DecidableEq

/-- What an operation comes to: its result, the bytes it sent, the log of it, and the
connection afterwards. -/
structure Outcome (α : Type) where
  result : Except Error α
  sent : Bytes
  log : Log
  connection : Connection

namespace Connection

def new (arrivals : List Arrival) (acceptances : List Acceptance) : Connection :=
  ⟨arrivals, acceptances, []⟩

/-! ### Writing -/

/-- Writes all of `data` in as many writes as it takes; `stalled` tells whether there has been a
stall. Answers the result, the bytes that were accepted, and the acceptances that are left. -/
def writeAll (stalled : Bool) (data : Bytes) :
    List Acceptance → Except Error Unit × Bytes × List Acceptance
  | [] => (.ok (), data, [])
  | a :: rest =>
    if data = [] then (.ok (), [], a :: rest)
    else
      match a with
      | .fault f => (.error (.fault f), [], rest)
      | .stall => if stalled then (.error .timeout, [], rest) else writeAll true data rest
      | .limit 0 => (.error (.fault .writeZero), [], rest)
      | .limit n =>
        let (result, accepted, rest) := writeAll stalled (data.drop n) rest
        (result, data.take n ++ accepted, rest)

def write (c : Connection) (data : Bytes) : Outcome Unit :=
  let (result, sent, acceptances) := writeAll false data c.acceptances
  ⟨result, sent, [], { c with acceptances }⟩

def sendHandshake (c : Connection) (h : Handshake) : Outcome Unit := c.write h.encode

/-- Sends a message, unless it is longer than a frame may be. -/
def send (c : Connection) (m : Message) : Outcome Unit :=
  if Parameters.maxMessageSize < m.frameLength then
    ⟨.error (.malformedMessage (.tooLarge m.frameLength)), [], [], c⟩
  else c.write m.encode

/-! ### Reading -/

/-- Reads until `take` finds something at the head of the buffer; `stalled` tells whether the read
under way has stalled. Answers what was found, the buffer, and the arrivals that are left. -/
def readUntil {α : Type} (take : Bytes → Option (Except Error α) × Bytes) (stalled : Bool) :
    List Arrival → Bytes → Except Error α × Bytes × List Arrival
  | [], buffer =>
    match take buffer with
    | (some result, rest) => (result, rest, [])
    | (none, rest) => (.error .connectionClosed, rest, [])
  | a :: arrivals, buffer =>
    match take buffer with
    | (some result, rest) => (result, rest, a :: arrivals)
    | (none, rest) =>
      match a with
      | .chunk [] => (.error .connectionClosed, rest, arrivals)
      | .chunk data => readUntil take false arrivals (rest ++ data)
      | .fault f => (.error (.fault f), rest, arrivals)
      | .stall =>
        if stalled then (.error .timeout, rest, arrivals)
        else readUntil take true arrivals rest

/-- Takes a handshake off a buffer, once all of it is there. -/
def takeHandshake (buffer : Bytes) : Option (Except Error Handshake) × Bytes :=
  match Bytes.splitAt? Parameters.handshakeLength buffer with
  | none => (none, buffer)
  | some (data, rest) => (some (Handshake.decode data), rest)

def receiveHandshake (c : Connection) : Outcome Handshake :=
  let (result, buffer, arrivals) := readUntil takeHandshake false c.arrivals c.buffer
  ⟨result, [], [], { c with buffer, arrivals }⟩

def receive (c : Connection) : Outcome Message :=
  let (result, buffer, arrivals) := readUntil takeMessage false c.arrivals c.buffer
  ⟨result, [], [], { c with buffer, arrivals }⟩

/-! ### Both -/

/-- Sends our handshake, reads the peer's, and checks that it is for the same torrent. -/
def handshake (c : Connection) (ours : Handshake) : Outcome Handshake :=
  let sending := c.sendHandshake ours
  match sending.result with
  | .error e => { sending with result := .error e }
  | .ok () =>
    let receiving := sending.connection.receiveHandshake
    match receiving.result with
    | .error e => { receiving with result := .error e, sent := sending.sent }
    | .ok theirs =>
      if theirs.infoHash = ours.infoHash then { receiving with sent := sending.sent }
      else
        let found := theirs.infoHash.hex
        let expected := ours.infoHash.hex
        { receiving with
          result := .error .infoHashMismatch
          sent := sending.sent
          log := .debug s!"Peer handshake for {found} does not match {expected}" }

end Connection

end BitTorrent.Wire
