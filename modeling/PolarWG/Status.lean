import PolarWG.GetBuffer

/-!
# The status text

`wg_session_status`: a line about the session and one about each active peer, written by
`snprintf` at a running offset. `long` has 32 or 64 bits, by the platform.
-/

namespace PolarWG

/-- A conversion to a signed type of so many bits. -/
def signed (bits : ℕ) (z : ℤ) : ℤ := Int.bmod z (2 ^ bits)

def statusHeader (s : WgSession) : Text :=
  "peers: ".toList ++ fmtUnsigned s.nPeers ++ "  listen_port: ".toList
    ++ fmtUnsigned s.listenPort ++ ['\n']

def statusPeer (longBits : ℕ) (now : ℤ) (i : ℕ) (peer : WgsPeer) : Text :=
  "peer #".toList ++ fmtUnsigned i
    ++ ": tx=".toList ++ fmtUnsigned peer.txPkts ++ '/' :: fmtUnsigned peer.txBytes
    ++ "B rx=".toList ++ fmtUnsigned peer.rxPkts ++ '/' :: fmtUnsigned peer.rxBytes
    ++ "B kp_age=".toList
    ++ fmtSigned (if peer.keypairBirth ≠ 0 then signed longBits (now - peer.keypairBirth) else -1)
    ++ "s hs=".toList ++ (if peer.hsPending then "pending" else "idle").toList ++ ['\n']

/-- What the loop adds for slot `i`. -/
def statusLine (longBits : ℕ) (now : ℤ) (s : WgSession) (i : ℕ) : Text :=
  if (s.peers i).active then statusPeer longBits now i (s.peers i) else []

/-- `off += snprintf(buf + off, buf_len - off, ...)`. -/
def statusAppend (bufLen : ℕ) (b : Memory × ℕ) (t : Text) : Memory × ℕ :=
  (vsnprintf b.1 b.2 (bufLen - b.2) t, b.2 + t.length)

/-- The pass of the loop at slot `i`; one that ends the loop leaves what the next ones find. -/
def statusPass (longBits : ℕ) (now : ℤ) (s : WgSession) (bufLen : ℕ) (b : Memory × ℕ) (i : ℕ) :
    Memory × ℕ :=
  if (b.2 : ℤ) < signed 32 bufLen then
    if (s.peers i).active then statusAppend bufLen b (statusPeer longBits now i (s.peers i)) else b
  else b

/-- The length returned, and the memory with the buffer in its first `bufLen` bytes. -/
def wgSessionStatus (longBits : ℕ) (now : ℤ) (s : WgSession) (mem : Memory) (bufLen : ℕ) :
    ℕ × Memory :=
  if bufLen = 0 then (0, mem)
  else
    let (mem, off) := (List.range s.nPeers).foldl (statusPass longBits now s bufLen)
      (statusAppend bufLen (mem, 0) (statusHeader s))
    (off, mem)

end PolarWG
