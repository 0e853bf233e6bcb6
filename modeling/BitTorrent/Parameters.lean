import BitTorrent.Bytes

/-! Constants of the protocol and defaults of this client. Times are in seconds. -/

namespace BitTorrent.Parameters

/-- What a generated peer id begins with. -/
def clientPrefix : String := "-BW0100-"

def userAgent : String := "bitwire/0.1.0"

def defaultPort : UInt16 := 6881

/-- How many containers may enclose a container, unless a decoder is told otherwise. -/
def maxBencodeDepth : Nat := 64

/-- The number of peers that a tracker returns when it is not asked for another. -/
def defaultNumWant : Int32 := 50

def httpTimeout : Nat := 30

def protocolString : Bytes := Bytes.ofText "BitTorrent protocol"

/-- The length of the protocol string and the string, reserved bytes, info hash and peer id. -/
def handshakeLength : Nat := 1 + 19 + 8 + 20 + 20

def connectionTimeout : Nat := 3

def readTimeout : Nat := 180

def writeTimeout : Nat := 30

/-- The longest frame sent or accepted, without its length. -/
def maxMessageSize : Nat := 16 * 1024 * 1024

end BitTorrent.Parameters
