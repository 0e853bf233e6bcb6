import BitTorrent.Log
import BitTorrent.Tracker.Announce
import BitTorrent.Tracker.Response

/-! Trackers that are announced to over HTTP. The exchange itself is a function from
the announce URL to what came of asking for it. -/

namespace BitTorrent.Tracker

structure Client where
  url : String
  userAgent : String
  deriving DecidableEq

/-- What came of an HTTP exchange. -/
inductive Reply where
  | none
  /-- A status other than success, with its reason phrase. -/
  | refused (code : UInt16) (phrase : String)
  | body (data : Bytes)

namespace Client

def hasHttpScheme (url : String) : Bool :=
  "http://".toList.isPrefixOf url.toList || "https://".toList.isPrefixOf url.toList

/-- Whether bytes can be the value of a header: no controls but the tab. -/
def isHeaderValue (bs : Bytes) : Bool :=
  bs.all fun b => (0x20 ≤ b && b != 0x7f) || b == 0x09

def withAgent (url userAgent : String) : Except Error Client :=
  if ¬ hasHttpScheme url then .error (.invalidUrl url)
  else if ¬ isHeaderValue (Bytes.ofText userAgent) then .error .http
  else .ok ⟨url, userAgent⟩

def new (url : String) : Except Error Client := withAgent url Parameters.userAgent

/-- Announces once, with the log of it. -/
def announce (t : Client) (exchange : String → Reply) (r : Request) :
    Except Error Response × Log :=
  let asked := Log.debug s!"Announcing to {t.url} (event: {r.announce.event.name})"
  match exchange (r.url t.url).1 with
  | .none => (.error .http, asked)
  | .refused code phrase =>
    (.error (.httpStatus code),
      asked ++ .warn s!"Tracker {t.url} responded with status {code.toNat} {phrase}")
  | .body data =>
    match Response.ofBytes data with
    | .ok response =>
      let count := response.peers.length
      let seconds := response.interval.toNat
      (.ok response,
        asked ++ .debug s!"Tracker {t.url} returned {count} peers, interval {seconds}s")
    | .error e => (.error e, asked ++ .warn s!"Announce to {t.url} failed: {e.message}")

end Client

end BitTorrent.Tracker
