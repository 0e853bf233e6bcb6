/-! Failures of what lies outside the formats: files, buffers and connections. -/

namespace BitTorrent

inductive Fault where
  | bufferFull
  | noSuchFile
  | connectionReset
  | connectionAborted
  | brokenPipe
  | writeZero
  deriving DecidableEq, Repr

def Fault.message : Fault → String
  | .bufferFull => "failed to write whole buffer"
  | .noSuchFile => "No such file or directory (os error 2)"
  | .connectionReset => "connection reset"
  | .connectionAborted => "connection aborted"
  | .brokenPipe => "broken pipe"
  | .writeZero => "write zero"

end BitTorrent
