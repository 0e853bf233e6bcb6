/-! Joining path segments. A segment goes after a `/`; one that begins with `/` is
absolute and replaces everything before it. -/

namespace BitTorrent.Path

/-- Adds a segment to a path given as characters. -/
def push (path segment : List Char) : List Char :=
  if segment.head? = some '/' then segment
  else if path = [] ∨ path.getLast? = some '/' then path ++ segment
  else path ++ '/' :: segment

def join (segments : List String) : String :=
  String.ofList (segments.foldl (fun path s => push path s.toList) [])

end BitTorrent.Path
