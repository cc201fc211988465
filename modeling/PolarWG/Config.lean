import PolarWG.Session

/-!
# Configuration text and session creation

`parse_config_text` and `wg_session_create`. A failed parse frees the session, so only a
successful one has a result. Name resolution is an argument: what `getaddrinfo` answers for a host
and a port, an address with its length.
-/

namespace PolarWG

abbrev Resolver := Text → ℕ → Option (Sockaddr × ℕ+)

def b64Value (c : Char) : Option ℕ :=
  if 'A' ≤ c ∧ c ≤ 'Z' then some (c.toNat - 65)
  else if 'a' ≤ c ∧ c ≤ 'z' then some (c.toNat - 97 + 26)
  else if '0' ≤ c ∧ c ≤ '9' then some (c.toNat - 48 + 52)
  else if c = '+' then some 62
  else if c = '/' then some 63
  else none

/-- Four characters at a time; a `=` in the third or fourth place ends the loop. -/
def b64Groups : Text → Option Bytes
  | c₀ :: c₁ :: c₂ :: c₃ :: rest => do
    let v₀ ← b64Value c₀
    let v₁ ← b64Value c₁
    let b₀ := UInt8.ofNat (v₀ <<< 2 ||| v₁ >>> 4)
    if c₂ = '=' then return [b₀]
    let v₂ ← b64Value c₂
    let b₁ := UInt8.ofNat ((v₁ &&& 0x0f) <<< 4 ||| v₂ >>> 2)
    if c₃ = '=' then return [b₀, b₁]
    let v₃ ← b64Value c₃
    let b₂ := UInt8.ofNat ((v₂ &&& 0x03) <<< 6 ||| v₃)
    return b₀ :: b₁ :: b₂ :: (← b64Groups rest)
  | _ => some []

def decodeBase64 (s : Text) : Option Bytes :=
  if s.length ≠ 44 then none
  else (b64Groups s).bind fun out => if out.length ≠ 32 then none else some out

def isTrimmed (c : Char) : Bool := c = ' ' ∨ c = '\t' ∨ c = '\r' ∨ c = '\n'

def wgsTrim (s : Text) : Text := ((s.dropWhile isTrimmed).reverse.dropWhile isTrimmed).reverse

variable (p : Prims)

/-- The address text and the prefix number after a slash, `-1` without one. -/
def splitPrefix (s : Text) : Text × ℤ :=
  match strchr '/' s with
  | some (addr, prefixText) => (addr, atoi prefixText)
  | none => (s, -1)

def parseCidr (s : Text) : Option WgsAllowedCidr :=
  if 64 ≤ s.length then none
  else
    let (tmp, prefixLen) := splitPrefix s
    let build (family bits : ℕ) (a : Bytes) : Option WgsAllowedCidr :=
      let len := if prefixLen < 0 then (bits : ℤ) else prefixLen
      if len < 0 ∨ (bits : ℤ) < len then none
      else some ⟨family, (a ++ zeros 16).take 16, len.toNat⟩
    match p.inetPton afInet tmp with
    | some a => build afInet 32 a
    | none =>
      match p.inetPton afInet6 tmp with
      | some a => build afInet6 128 a
      | none => none

/-- Without the upper bound on the prefix length that `parseCidr` has. -/
def parseIfaceAddr (s : Text) : Option WgsIfaceAddr :=
  if 64 ≤ s.length then none
  else
    let (tmp, prefixLen) := splitPrefix s
    if (p.inetPton afInet tmp).isSome then
      some ⟨afInet, tmp, if prefixLen < 0 then 32 else prefixLen⟩
    else if (p.inetPton afInet6 tmp).isSome then
      some ⟨afInet6, tmp, if prefixLen < 0 then 128 else prefixLen⟩
    else none

/-- A comma-separated list, parsed one by one onto the entries there are, up to `max` of them. -/
def parseList {α : Type*} (parse : Text → Option α) (max : ℕ) : List Text → List α →
    Option (List α)
  | [], acc => some acc
  | t :: ts, acc =>
    let t := wgsTrim t
    if t = [] then parseList parse max ts acc
    else if max ≤ acc.length then none
    else (parse t).bind fun a => parseList parse max ts (acc ++ [a])

def parseListCidrs (s : Text) (peer : WgsPeer) : Option WgsPeer :=
  if 512 ≤ s.length then none
  else (parseList (parseCidr p) wgsMaxAllowedCidrs (strtok ',' s) peer.allowed).map fun allowed =>
    { peer with allowed }

def parseListIface (s : Text) (addrs : List WgsIfaceAddr) : Option (List WgsIfaceAddr) :=
  if 256 ≤ s.length then none
  else parseList (parseIfaceAddr p) wgsMaxIfaceAddrs (strtok ',' s) addrs

def parsePort (s : Text) : Option ℕ :=
  let port := strtol s
  if port < 1 ∨ 65535 < port then none else some port.toNat

def splitEndpoint (s : Text) : Option (Text × ℕ) :=
  (strrchr ':' s).bind fun (host, portText) =>
    if host.length = 0 ∨ 128 ≤ host.length then none
    else (parsePort portText).map (host, ·)

/-- Where the parser is: the section, the peer it is in and whether it met a private key. -/
structure ConfigState where
  session : WgSession
  inInterface : Bool
  inPeer : Bool
  curPeer : Option ℕ
  gotPriv : Bool

/-- `strncmp(s, pre, strlen(pre)) == 0`. -/
def startsWith (s pre : Text) : Bool := s.take pre.length = pre

def configPeerKey (key val : Text) (peer : WgsPeer) : Option WgsPeer :=
  if key = "PublicKey".toList then
    (decodeBase64 val).map fun pubkey => { peer with pubkey }
  else if key = "Endpoint".toList then
    (splitEndpoint val).map fun (endpointHost, endpointPort) =>
      { peer with endpointHost, endpointPort, hasEndpoint := true }
  else if key = "PersistentKeepalive".toList then some { peer with pkSec := atoi val }
  else if key = "PresharedKey".toList then
    (decodeBase64 val).map fun psk => { peer with psk, hasPsk := true }
  else if key = "AllowedIPs".toList then parseListCidrs p val peer
  else some peer

def configKey (c : ConfigState) (key val : Text) : Option ConfigState :=
  let s := c.session
  if c.inInterface ∧ key = "PrivateKey".toList then
    (decodeBase64 val).map fun privateKey =>
      { c with session := { s with privateKey }, gotPriv := true }
  else if c.inInterface ∧ key = "ListenPort".toList then
    let lp := atoi val
    if lp < 1 ∨ 65535 < lp then none
    else some { c with session := { s with listenPort := lp.toNat } }
  else if c.inInterface ∧ key = "Address".toList then
    (parseListIface p val s.ifAddrs).map fun ifAddrs => { c with session := { s with ifAddrs } }
  else match c.inPeer, c.curPeer with
  | true, some i => (configPeerKey p key val (s.peers i)).map fun peer =>
      { c with session := s.modPeer i fun _ => peer }
  | _, _ => some c

def configLine (c : ConfigState) (line : Text) : Option ConfigState :=
  match wgsTrim line with
  | [] => some c
  | t@(ch :: _) =>
    if ch = '#' ∨ ch = ';' then some c
    else if ch = '[' then
      let inPeer := startsWith t "[Peer]".toList
      let c := { c with inInterface := startsWith t "[Interface]".toList, inPeer }
      if inPeer then
        if wgsMaxPeers ≤ c.session.nPeers then none
        else some { c with
          session := { c.session with nPeers := c.session.nPeers + 1 }
          curPeer := some c.session.nPeers }
      else some c
    else match strchr '=' t with
    | none => some c
    | some (key, val) => configKey p c (wgsTrim key) (wgsTrim val)

def WgSession.blank : WgSession where
  privateKey := zeros 32
  listenPort := 0
  ifAddrs := []
  peers := fun _ => .blank
  nPeers := 0
  noise := noiseLocalAlloc
  checker := ⟨zeros 32⟩
  aipsV4 := aipsInit 32
  aipsV6 := aipsInit 128

/-- Every peer has to have a public key that is not all zero. -/
def parseConfigText (text : Text) : Option WgSession :=
  ((strtok '\n' (cstr text)).foldlM (configLine p)
      ⟨.blank, false, false, none, false⟩).bind fun c =>
    if ¬ c.gotPriv ∨ c.session.nPeers = 0 then none
    else if ∃ i < c.session.nPeers, (c.session.peers i).pubkey.all (· = 0) then none
    else some c.session

/-- The entries of one peer put in the tries, first to last. -/
def insertAllowed (i : ℕ) (s : WgSession) (c : WgsAllowedCidr) : WgSession :=
  if c.family = afInet then { s with aipsV4 := (aipsInsert s.aipsV4 c.addr c.prefixLen i).2 }
  else { s with aipsV6 := (aipsInsert s.aipsV6 c.addr c.prefixLen i).2 }

/-- The first loop of `wg_session_create` at slot `i`. -/
def createPeer (resolve : Resolver) (s : WgSession) (i : ℕ) : Option WgSession :=
  let peer := s.peers i
  let (l, r) := noiseRemoteAlloc p s.noise i peer.pubkey
  match noiseRemoteEnable l r with
  | (_, false) => none
  | (l, true) =>
    let l := if peer.hasPsk then noiseRemoteSetPsk l r peer.psk else l
    let peer := { peer with
      active := true, remote := some r, cookie := cookieMakerInit p peer.pubkey
      cookieInited := true }
    let peer := if peer.hasEndpoint then
        match resolve peer.endpointHost peer.endpointPort with
        | some (endpoint, endpointLen) => { peer with endpoint, endpointLen }
        | none => { peer with endpointLen := 0 }
      else peer
    some ((s.modPeer i fun _ => peer).setNoise l)

def wgSessionCreate (resolve : Resolver) (text : Text) : Option WgSession := do
  let s ← parseConfigText p text
  let s := s.setNoise (noiseLocalPrivate p noiseLocalAlloc s.privateKey)
  let s ← (List.range s.nPeers).foldlM (createPeer p resolve) s
  let s := if s.noise.lHasIdentity then
    { s with checker := cookieCheckerUpdate p s.noise.lPublic } else s
  pure ((List.range s.nPeers).foldl (fun s i => (s.peers i).allowed.foldl (insertAllowed i) s) s)

end PolarWG
