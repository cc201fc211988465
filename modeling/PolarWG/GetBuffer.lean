import PolarWG.Get

/-!
# Reading the configuration out into a buffer

`append_fmt` and the calls of it that `wg_session_get_uapi` makes. The memory is addressed from the
start of the buffer, and a write past its end is a write.
-/

namespace PolarWG

abbrev Memory := ℕ → Char

def nul : Char := Char.ofNat 0

def Memory.write (mem : Memory) (off : ℕ) (t : Text) : Memory := fun a =>
  if off ≤ a ∧ a < off + t.length then t.getD (a - off) nul else mem a

/-- `vsnprintf` of a text into `cap` bytes: what fits and a NUL, or nothing where there are none. -/
def vsnprintf (mem : Memory) (off cap : ℕ) (t : Text) : Memory :=
  if 0 < cap then mem.write off (t.take (cap - 1) ++ [nul]) else mem

/-- The cursor, the capacity after it and the length so far. -/
structure Appended where
  mem : Memory
  off : ℕ
  cap : ℕ
  written : ℕ

def appendFmt (b : Appended) (t : Text) : Appended :=
  let need := t.length
  let mem := vsnprintf b.mem b.off b.cap t
  let written := b.written + need
  if need < b.cap then { mem, written, off := b.off + need, cap := b.cap - need }
  else if 0 < b.cap then { mem, written, off := b.off + (b.cap - 1), cap := 1 }
  else { b with mem, written }

variable (ntop : ℕ → Bytes → Text)

/-- A call that is made where there is something to append. -/
def uapiCall (t : Text) : List Text := if t = [] then [] else [t]

def uapiPeerCalls (peer : WgsPeer) : List Text :=
  [uapiField "public_key".toList (hexEncode peer.pubkey),
    uapiField "preshared_key".toList
      (if peer.hasPsk then hexEncode peer.psk else List.replicate 64 '0')]
    ++ uapiCall (uapiEndpoint ntop peer)
    ++ [uapiField "last_handshake_time_sec".toList
          (if peer.keypairBirth ≠ 0 then fmtSigned peer.keypairBirth else ['0'])
          ++ uapiField "last_handshake_time_nsec".toList ['0'],
        uapiField "tx_bytes".toList (fmtUnsigned peer.txBytes)
          ++ uapiField "rx_bytes".toList (fmtUnsigned peer.rxBytes)]
    ++ uapiCall (if peer.pkSec > 0 then
        uapiField "persistent_keepalive_interval".toList (fmtSigned peer.pkSec) else [])
    ++ peer.allowed.flatMap (fun c => uapiCall (uapiAllowed ntop c))
    ++ [uapiField "protocol_version".toList ['1']]

/-- What `append_fmt` is called with, call by call. -/
def uapiCalls (s : WgSession) : List Text :=
  [uapiField "private_key".toList "none".toList,
    uapiField "listen_port".toList (fmtUnsigned s.listenPort),
    uapiField "fwmark".toList ['0']]
    ++ (List.range s.nPeers).flatMap
      (fun i => if (s.peers i).active then uapiPeerCalls ntop (s.peers i) else [])
    ++ [uapiField "errno".toList ['0'] ++ ['\n']]

/-- The length returned, and the memory with the buffer in its first `bufLen` bytes. -/
def wgSessionGetUapiInto (s : WgSession) (mem : Memory) (bufLen : ℕ) : ℕ × Memory :=
  let b := (uapiCalls ntop s).foldl appendFmt ⟨mem, 0, bufLen, 0⟩
  let last := if bufLen - 1 < b.written then bufLen - 1 else b.written
  (b.written, if 0 < bufLen then b.mem.write last [nul] else b.mem)

end PolarWG
