/-! Log lines, returned by the operations that write them. -/

namespace BitTorrent

inductive Level where
  | debug
  | warn
  deriving DecidableEq, Repr

structure LogLine where
  level : Level
  text : String
  deriving DecidableEq, Repr

abbrev Log := List LogLine

def Log.debug (text : String) : Log := [⟨.debug, text⟩]

def Log.warn (text : String) : Log := [⟨.warn, text⟩]

end BitTorrent
