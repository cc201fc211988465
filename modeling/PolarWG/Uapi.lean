import PolarWG.Config

/-!
# Runtime configuration

`wg_session_set_uapi` and the peer slots it adds to and removes from. A request that fails keeps
what its earlier lines wrote, and the tries are rebuilt either way.
-/

namespace PolarWG

def hexValue (c : Char) : Option ℕ :=
  if '0' ≤ c ∧ c ≤ '9' then some (c.toNat - 48)
  else if 'a' ≤ c ∧ c ≤ 'f' then some (c.toNat - 97 + 10)
  else if 'A' ≤ c ∧ c ≤ 'F' then some (c.toNat - 65 + 10)
  else none

def hexPairs : Text → Option Bytes
  | c :: d :: rest => do
    let hi ← hexValue c
    let lo ← hexValue d
    return UInt8.ofNat (hi <<< 4 ||| lo) :: (← hexPairs rest)
  | _ => some []

def hexDecode (s : Text) (n : ℕ) : Option Bytes := if s.length ≠ 2 * n then none else hexPairs s

def findPeerByPubkey (s : WgSession) (pubkey : Bytes) : Option ℕ :=
  (List.range s.nPeers).find? fun i => (s.peers i).active ∧ (s.peers i).pubkey = pubkey

/-- The first slot not in use, or one more. -/
def allocPeerSlot (s : WgSession) : WgSession × Option ℕ :=
  match (List.range s.nPeers).find? fun i => ¬ (s.peers i).active with
  | some i => (s, some i)
  | none =>
    if wgsMaxPeers ≤ s.nPeers then (s, none)
    else ({ s with nPeers := s.nPeers + 1 }, some s.nPeers)

/-- Puts the slot's reference to its remote; the remote's handshake and keypairs stay as they are. -/
def peerTombstone (s : WgSession) (i : ℕ) : WgSession :=
  let s := match (s.peers i).remote with
    | some r => s.setNoise (noiseRemotePut (noiseRemoteDisable s.noise r) r)
    | none => s
  s.modPeer i fun _ => .blank

variable (p : Prims)

/-- `host:port`, or `[host]:port` for an IPv6 literal. -/
def splitEndpointSpec (spec : Text) : Option (Text × ℕ) :=
  match spec with
  | '[' :: rest =>
    match strchr ']' rest with
    | some (host, ':' :: portText) =>
      if host.length = 0 ∨ 128 ≤ host.length then none
      else (parsePort portText).map (host, ·)
    | _ => none
  | _ => splitEndpoint spec

def peerSetEndpointStr (resolve : Resolver) (peer : WgsPeer) (spec : Text) : Option WgsPeer := do
  let (endpointHost, endpointPort) ← splitEndpointSpec spec
  let (endpoint, endpointLen) ← resolve endpointHost endpointPort
  pure { peer with endpoint, endpointLen, hasEndpoint := true, endpointHost, endpointPort }

def rebuildAips (s : WgSession) : WgSession :=
  (List.range s.nPeers).foldl
    (fun s i => if (s.peers i).active then (s.peers i).allowed.foldl (insertAllowed i) s else s)
    { s with aipsV4 := aipsInit 32, aipsV6 := aipsInit 128 }

/-- Whether it succeeds. -/
def peerInitRuntime (s : WgSession) (i : ℕ) (pubkey : Bytes) : WgSession × Bool :=
  let peer := { WgsPeer.blank with pubkey, active := true }
  let (l, r) := noiseRemoteAlloc p s.noise i pubkey
  match noiseRemoteEnable l r with
  | (l, false) => ((s.modPeer i fun _ => peer).setNoise (noiseRemotePut l r), false)
  | (l, true) =>
    ((s.modPeer i fun _ => { peer with
      remote := some r, cookie := cookieMakerInit p pubkey, cookieInited := true }).setNoise l, true)

/-- What a line of a request does: go on, with the peer it leaves selected, or fail. -/
inductive SetResult where
  | next (s : WgSession) (cur : Option ℕ)
  | fail (s : WgSession)

/-- A `public_key` line selects the peer, or adds it. -/
def setPublicKey (s : WgSession) (val : Text) : SetResult :=
  match hexDecode val 32 with
  | none => .fail s
  | some pk =>
    match findPeerByPubkey s pk with
    | some i => .next s (some i)
    | none =>
      match allocPeerSlot s with
      | (s, none) => .fail s
      | (s, some i) =>
        match peerInitRuntime p s i pk with
        | (s, false) => .fail s
        | (s, true) => .next s (some i)

/-- A line about the selected peer. -/
def setPeerKey (resolve : Resolver) (s : WgSession) (i : ℕ) (key val : Text) : SetResult :=
  if key = "remove".toList then
    if val = "true".toList then .next (peerTombstone s i) none else .next s (some i)
  else if key = "preshared_key".toList then
    match hexDecode val 32 with
    | none => .fail s
    | some psk =>
      let s := s.modPeer i fun peer => { peer with psk, hasPsk := ¬ psk.all (· = 0) }
      match (s.peers i).remote with
      | some r => .next (s.setNoise (noiseRemoteSetPsk s.noise r psk)) (some i)
      | none => .next s (some i)
  else if key = "endpoint".toList then
    match peerSetEndpointStr resolve (s.peers i) val with
    | none => .fail s
    | some peer => .next (s.modPeer i fun _ => peer) (some i)
  else if key = "persistent_keepalive_interval".toList then
    let n := atoi val
    if n < 0 ∨ 65535 < n then .fail s
    else .next (s.modPeer i fun peer => { peer with pkSec := n }) (some i)
  else if key = "replace_allowed_ips".toList then
    if val = "true".toList then
      .next (s.modPeer i fun peer => { peer with allowed := [] }) (some i)
    else .next s (some i)
  else if key = "allowed_ip".toList then
    if wgsMaxAllowedCidrs ≤ (s.peers i).allowed.length then .fail s
    else match parseCidr p val with
    | none => .fail s
    | some c =>
      .next (s.modPeer i fun peer => { peer with allowed := peer.allowed ++ [c] }) (some i)
  -- `protocol_version`, `errno` and unknown keys are skipped
  else .next s (some i)

def rejectedKeys : List Text :=
  ["private_key".toList, "fwmark".toList, "replace_peers".toList]

def setKey (resolve : Resolver) (s : WgSession) (cur : Option ℕ) (key val : Text) : SetResult :=
  if key = "set".toList then .next s cur
  else if key ∈ rejectedKeys then .fail s
  else if key = "listen_port".toList then
    let lp := atoi val
    if lp < 0 ∨ 65535 < lp then .fail s
    else .next { s with listenPort := lp.toNat } cur
  else if key = "public_key".toList then setPublicKey p s val
  else match cur with
  | none => .next s none
  | some i => setPeerKey p resolve s i key val

/-- The key and value of a line, if it has any. -/
def uapiLine (line : Text) : Option (Text × Text) :=
  match wgsTrim line with
  | [] => none
  | t => (strchr '=' t).map fun (key, val) => (wgsTrim key, wgsTrim val)

def setLine (resolve : Resolver) (s : WgSession) (cur : Option ℕ) (line : Text) : SetResult :=
  match uapiLine line with
  | none => .next s cur
  | some (key, val) => setKey p resolve s cur key val

/-- The lines of a request until one fails: the code returned and the session before the tries are
rebuilt. -/
def setLines (resolve : Resolver) : List Text → WgSession → Option ℕ → Int × WgSession
  | [], s, _ => (0, s)
  | line :: rest, s, cur =>
    match setLine p resolve s cur line with
    | .fail s => (-1, s)
    | .next s cur => setLines resolve rest s cur

def wgSessionSetUapi (resolve : Resolver) (s : WgSession) (text : Text) : Int × WgSession :=
  let (rc, s) := setLines p resolve (strtok '\n' (cstr text)) s none
  (rc, rebuildAips s)

end PolarWG
