import PolarWG.Uapi

/-!
# Reading the configuration out

`wg_session_get_uapi`, into a buffer that has room for all of it. `inet_ntop` is an argument: the
text of an address of a family.
-/

namespace PolarWG

def hexDigit (n : ℕ) : Char := "0123456789abcdef".toList.getD n '0'

def hexEncode (bs : Bytes) : Text :=
  bs.flatMap fun b => [hexDigit (b.toNat >>> 4), hexDigit (b.toNat &&& 0xf)]

/-- `%u` and its wider kin. -/
def fmtUnsigned (n : ℕ) : Text := Nat.toDigits 10 n

/-- `%d` and its wider kin. -/
def fmtSigned : ℤ → Text
  | .ofNat n => fmtUnsigned n
  | .negSucc n => '-' :: fmtUnsigned (n + 1)

def uapiField (key val : Text) : Text := key ++ '=' :: (val ++ ['\n'])

variable (ntop : ℕ → Bytes → Text)

def uapiEndpoint (peer : WgsPeer) : Text :=
  if peer.endpointLen > 0 then
    let port := fmtUnsigned peer.endpoint.port.toNat
    if peer.endpoint.family = afInet then
      uapiField "endpoint".toList (ntop afInet peer.endpoint.addr ++ ':' :: port)
    else if peer.endpoint.family = afInet6 then
      uapiField "endpoint".toList ('[' :: (ntop afInet6 peer.endpoint.addr ++ ']' :: ':' :: port))
    else []
  else []

/-- Of an IPv4 entry `inet_ntop` reads four bytes; it has no text for other families. -/
def uapiAllowed (c : WgsAllowedCidr) : Text :=
  let field (addr : Bytes) : Text :=
    uapiField "allowed_ip".toList (ntop c.family addr ++ '/' :: fmtUnsigned c.prefixLen)
  if c.family = afInet then field (c.addr.take 4)
  else if c.family = afInet6 then field c.addr
  else []

def uapiPeer (peer : WgsPeer) : Text :=
  uapiField "public_key".toList (hexEncode peer.pubkey)
    ++ uapiField "preshared_key".toList
      (if peer.hasPsk then hexEncode peer.psk else List.replicate 64 '0')
    ++ uapiEndpoint ntop peer
    ++ uapiField "last_handshake_time_sec".toList
      (if peer.keypairBirth ≠ 0 then fmtSigned peer.keypairBirth else ['0'])
    ++ uapiField "last_handshake_time_nsec".toList ['0']
    ++ uapiField "tx_bytes".toList (fmtUnsigned peer.txBytes)
    ++ uapiField "rx_bytes".toList (fmtUnsigned peer.rxBytes)
    ++ (if peer.pkSec > 0 then
        uapiField "persistent_keepalive_interval".toList (fmtSigned peer.pkSec) else [])
    ++ peer.allowed.flatMap (uapiAllowed ntop)
    ++ uapiField "protocol_version".toList ['1']

def uapiDevice (s : WgSession) : Text :=
  uapiField "private_key".toList "none".toList
    ++ uapiField "listen_port".toList (fmtUnsigned s.listenPort)
    ++ uapiField "fwmark".toList ['0']

/-- From the first `public_key` line on. -/
def uapiPeers (s : WgSession) : Text :=
  (List.range s.nPeers).flatMap
      (fun i => if (s.peers i).active then uapiPeer ntop (s.peers i) else [])
    ++ uapiField "errno".toList ['0'] ++ ['\n']

def wgSessionGetUapi (s : WgSession) : Text := uapiDevice s ++ uapiPeers ntop s

end PolarWG
