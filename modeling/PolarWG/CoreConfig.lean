import PolarWG.Config
import PolarWG.Core

/-!
# The client's configuration file

`load_config` of `wg_core.c`, which the session's parser is a fork of. What the two have in common
(`decode_base64_32`, `trim`, `parse_cidr`, `split_endpoint`) is the session's.
-/

namespace PolarWG

def wgMaxLine : ℕ := 512
def wgMaxPeers : ℕ := 64
def wgMaxAllowedCidrs : ℕ := 16
def wgMaxIfaceAddrs : ℕ := 4

/-- What the file is read for of `struct peer_state`. -/
structure ConfigPeer where
  pubkey : Bytes
  hasEndpoint : Bool
  endpointHost : Text
  endpointPort : ℕ
  allowed : List WgsAllowedCidr
  pkSec : ℤ
deriving DecidableEq

structure ClientConfig where
  privateKey : Bytes
  listenPort : ℕ
  mtu : ℤ
  ifAddrs : List WgsIfaceAddr
  peers : ℕ → ConfigPeer
  nPeers : ℕ

def ConfigPeer.blank : ConfigPeer := ⟨zeros 32, false, [], 0, [], 0⟩

def ClientConfig.blank : ClientConfig := ⟨zeros 32, 0, 0, [], fun _ => .blank, 0⟩

/-! ## Reading lines -/

/-- The pieces that `fgets` reads, `room` characters left in the buffer after `acc`. -/
def fgetsFrom : (room : ℕ) → (acc : Text) → Text → List Text
  | _, acc, [] => if acc = [] then [] else [acc]
  | room, acc, c :: t =>
    if c = '\n' ∨ room ≤ 1 then (acc ++ [c]) :: fgetsFrom (wgMaxLine - 1) [] t
    else fgetsFrom (room - 1) (acc ++ [c]) t

def fgetsLines (text : Text) : List Text := fgetsFrom (wgMaxLine - 1) [] text

/-! ## Values -/

variable (p : Prims)

def parseIfaceAddrCore (s : Text) : Option WgsIfaceAddr :=
  if 64 ≤ s.length then none
  else
    let (tmp, prefixLen) := splitPrefix s
    let build (family bits : ℕ) : Option WgsIfaceAddr :=
      let len := if prefixLen < 0 then (bits : ℤ) else prefixLen
      if len < 0 ∨ (bits : ℤ) < len then none
      else some ⟨family, tmp, len⟩
    if (p.inetPton afInet tmp).isSome then build afInet 32
    else if (p.inetPton afInet6 tmp).isSome then build afInet6 128
    else none

def isBlankOrTab (c : Char) : Bool := c = ' ' ∨ c = '\t'

def trimEntry (s : Text) : Text :=
  ((s.dropWhile isBlankOrTab).reverse.dropWhile isBlankOrTab).reverse

/-- The session's list, but only blanks and tabs are trimmed off an entry. -/
def parseListCore {α : Type*} (parse : Text → Option α) (max : ℕ) : List Text → List α →
    Option (List α)
  | [], acc => some acc
  | t :: ts, acc =>
    let t := trimEntry t
    if t = [] then parseListCore parse max ts acc
    else if max ≤ acc.length then none
    else (parse t).bind fun a => parseListCore parse max ts (acc ++ [a])

def parseIfaceAddrs (s : Text) (addrs : List WgsIfaceAddr) : Option (List WgsIfaceAddr) :=
  if 256 ≤ s.length then none
  else parseListCore (parseIfaceAddrCore p) wgMaxIfaceAddrs (strtok ',' s) addrs

def parseAllowedIps (s : Text) (peer : ConfigPeer) : Option ConfigPeer :=
  if 512 ≤ s.length then none
  else (parseListCore (parseCidr p) wgMaxAllowedCidrs (strtok ',' s) peer.allowed).map fun allowed =>
    { peer with allowed }

/-! ## The file -/

structure LoadState where
  cfg : ClientConfig
  inInterface : Bool
  inPeer : Bool
  curPeer : Option ℕ
  gotPriv : Bool

def loadPeerKey (key val : Text) (peer : ConfigPeer) : Option ConfigPeer :=
  if key = "PublicKey".toList then
    (decodeBase64 val).map fun pubkey => { peer with pubkey }
  else if key = "Endpoint".toList then
    (splitEndpoint val).map fun (endpointHost, endpointPort) =>
      { peer with endpointHost, endpointPort, hasEndpoint := true }
  else if key = "PersistentKeepalive".toList then some { peer with pkSec := atoi val }
  else if key = "AllowedIPs".toList then parseAllowedIps p val peer
  else some peer

def loadKey (c : LoadState) (key val : Text) : Option LoadState :=
  let cfg := c.cfg
  if c.inInterface ∧ key = "PrivateKey".toList then
    (decodeBase64 val).map fun privateKey => { c with cfg := { cfg with privateKey }, gotPriv := true }
  else if c.inInterface ∧ key = "ListenPort".toList then
    let lp := atoi val
    if lp < 1 ∨ 65535 < lp then none
    else some { c with cfg := { cfg with listenPort := lp.toNat } }
  else if c.inInterface ∧ key = "MTU".toList then
    let m := atoi val
    if m < 576 ∨ (wgBufMax : ℤ) - 256 < m then none
    else some { c with cfg := { cfg with mtu := m } }
  else if c.inInterface ∧ key = "Address".toList then
    (parseIfaceAddrs p val cfg.ifAddrs).map fun ifAddrs => { c with cfg := { cfg with ifAddrs } }
  else match c.inPeer, c.curPeer with
  | true, some i => (loadPeerKey p key val (cfg.peers i)).map fun peer =>
      { c with cfg := { cfg with peers := Function.update cfg.peers i peer } }
  | _, _ => some c

def loadLine (c : LoadState) (line : Text) : Option LoadState :=
  match wgsTrim (cstr line) with
  | [] => some c
  | t@(ch :: _) =>
    if ch = '#' ∨ ch = ';' then some c
    else if ch = '[' then
      let inPeer := startsWith t "[Peer]".toList
      let c := { c with inInterface := startsWith t "[Interface]".toList, inPeer }
      if inPeer then
        if wgMaxPeers ≤ c.cfg.nPeers then none
        else some { c with
          cfg := { c.cfg with nPeers := c.cfg.nPeers + 1 }
          curPeer := some c.cfg.nPeers }
      else some c
    else match strchr '=' t with
    | none => some c
    | some (key, val) => loadKey p c (wgsTrim key) (wgsTrim val)

/-- Every peer has to have a key, and one an endpoint unless a port is listened on. -/
def loadConfig (text : Text) : Option ClientConfig :=
  ((fgetsLines text).foldlM (loadLine p) ⟨.blank, false, false, none, false⟩).bind fun c =>
    if ¬ c.gotPriv ∨ c.cfg.nPeers = 0 then none
    else if ∃ i < c.cfg.nPeers, (c.cfg.peers i).pubkey.all (· = 0) then none
    else if (¬ ∃ i < c.cfg.nPeers, (c.cfg.peers i).hasEndpoint) ∧ c.cfg.listenPort = 0 then none
    else some c.cfg

end PolarWG
