import PolarWG.Mesh

/-!
# The agent's configuration file

`WGConfig`: what the agent parses, renders, compares and builds from the server's answer. A
`Character` is a `Char`, but the pair CR LF is one `Character`, which no line break is.
-/

namespace PolarWG

/-! ## Strings -/

/-- `CharacterSet.whitespaces`: the space separators and the tab. -/
def isSpaceSeparator (c : Char) : Bool :=
  let n := c.toNat
  n = 0x20 ∨ n = 0xA0 ∨ n = 0x1680 ∨ (0x2000 ≤ n ∧ n ≤ 0x200A) ∨ n = 0x202F ∨ n = 0x205F ∨ n = 0x3000

def isWhitespaces (c : Char) : Bool := c = '\t' ∨ isSpaceSeparator c

/-- `trimmingCharacters(in: .whitespaces)`. -/
def trimmed (t : Text) : Text := ((t.dropWhile isWhitespaces).reverse.dropWhile isWhitespaces).reverse

/-- Lines up to the end of the text; a line feed right after a carriage return ends none. -/
def splitLinesFrom : (afterCr : Bool) → Text → List Text
  | _, [] => [[]]
  | afterCr, c :: t =>
    if c = '\n' ∧ ¬ afterCr then [] :: splitLinesFrom false t
    else (splitLinesFrom (c = '\r') t).modifyHead (c :: ·)

/-- `split(separator: "\n", omittingEmptySubsequences: false)`. -/
def splitLines (t : Text) : List Text := splitLinesFrom false t

/-- As far as the words of the format go: the Kelvin sign is the only other letter whose lower case
is in ASCII. -/
def lowercased (t : Text) : Text :=
  t.map fun c => if c = Char.ofNat 0x212A then 'k' else c.toLower

/-- `Int(_ text: String)`. -/
def intOfText (s : Text) : Option ℤ :=
  let digits (t : Text) : Option ℤ :=
    if t ≠ [] ∧ t.all Char.isDigit then some (digitsNat t) else none
  let n := match s with
    | '-' :: t => (digits t).map (- ·)
    | '+' :: t => digits t
    | t => digits t
  n.filter fun n => -2 ^ 63 ≤ n ∧ n < 2 ^ 63

/-! ## The configuration -/

structure WGKeyValue where
  key : Text
  value : Text
deriving DecidableEq

structure WGInterfaceSection where
  privateKey : Text
  address : Text
  listenPort : Text
  extras : List WGKeyValue
deriving DecidableEq

structure WGPeerSection where
  publicKey : Text
  endpoint : Option Text
  allowedIPs : List Text
  keepalive : Option ℤ
deriving DecidableEq

structure WGConfig where
  interface : WGInterfaceSection
  peers : List WGPeerSection
deriving DecidableEq

/-! ## Parsing -/

inductive ConfSection
  | none
  | interface
  | peer
deriving DecidableEq

structure ConfState where
  sect : ConfSection
  interface : WGInterfaceSection
  peers : List WGPeerSection
  cur : Option WGPeerSection

def ConfState.start : ConfState := ⟨.none, ⟨[], [], [], []⟩, [], none⟩

def ConfState.flushPeer (c : ConfState) : ConfState :=
  { c with
    peers := match c.cur with
      | some p => if p.publicKey ≠ [] then c.peers ++ [p] else c.peers
      | none => c.peers
    cur := none }

def WGPeerSection.blank : WGPeerSection := ⟨[], none, [], none⟩

def splitList (value : Text) : List Text := ((strtok ',' value).map trimmed).filter (· ≠ [])

def interfaceKey (i : WGInterfaceSection) (key value : Text) : WGInterfaceSection :=
  if lowercased key = "privatekey".toList then { i with privateKey := value }
  else if lowercased key = "address".toList then { i with address := value }
  else if lowercased key = "listenport".toList then { i with listenPort := value }
  else { i with extras := i.extras ++ [⟨key, value⟩] }

def peerKey (p : WGPeerSection) (key value : Text) : WGPeerSection :=
  if lowercased key = "publickey".toList then { p with publicKey := value }
  else if lowercased key = "endpoint".toList then
    { p with endpoint := if value = [] then none else some value }
  else if lowercased key = "allowedips".toList then { p with allowedIPs := splitList value }
  else if lowercased key = "persistentkeepalive".toList then { p with keepalive := intOfText value }
  else p

def confKey (c : ConfState) (key value : Text) : ConfState :=
  match c.sect with
  | .interface => { c with interface := interfaceKey c.interface key value }
  | .peer => { c with cur := c.cur.map fun p => peerKey p key value }
  | .none => c

def confLine (c : ConfState) (rawLine : Text) : ConfState :=
  match trimmed rawLine with
  | [] => c
  | line@(ch :: _) =>
    if ch = '#' then c
    else if ch = '[' then
      let name := lowercased line
      if startsWith name "[interface]".toList then { c.flushPeer with sect := .interface }
      else if startsWith name "[peer]".toList then
        { c.flushPeer with sect := .peer, cur := some .blank }
      else { c.flushPeer with sect := .none }
    else match strchr '=' line with
      | none => c
      | some (key, value) => confKey c (trimmed key) (trimmed value)

def WGConfig.parse (text : Text) : Option WGConfig :=
  let c := ((splitLines text).foldl confLine .start).flushPeer
  if c.interface.privateKey = [] then none else some ⟨c.interface, c.peers⟩

/-! ## Rendering -/

def WGPeerSection.lines (peer : WGPeerSection) : List Text :=
  ["[Peer]".toList, "PublicKey  = ".toList ++ peer.publicKey]
    ++ (match peer.endpoint with
      | some ep => if ep ≠ [] then ["Endpoint   = ".toList ++ ep] else []
      | none => [])
    ++ ["AllowedIPs = ".toList ++ joined ", ".toList peer.allowedIPs]
    ++ (match peer.keepalive with
      | some ka => if 0 < ka then ["PersistentKeepalive = ".toList ++ fmtSigned ka] else []
      | none => [])
    ++ [[]]

def WGInterfaceSection.lines (interface : WGInterfaceSection) : List Text :=
  ["[Interface]".toList,
    "PrivateKey = ".toList ++ interface.privateKey,
    "Address    = ".toList ++ interface.address,
    "ListenPort = ".toList ++ interface.listenPort]
  ++ interface.extras.map (fun kv => kv.key ++ " = ".toList ++ kv.value)
  ++ [[]]

/-- Sorted by public key; equal keys keep their order. -/
def sortedPeers (peers : List WGPeerSection) : List WGPeerSection :=
  peers.insertionSort fun a b => ¬ b.publicKey < a.publicKey

def WGConfig.render (config : WGConfig) : Text :=
  appendLines (config.interface.lines ++ (sortedPeers config.peers).flatMap WGPeerSection.lines)

/-! ## Comparison -/

def sortedTexts (ts : List Text) : List Text := ts.insertionSort fun a b => ¬ b < a

def WGPeerSection.semanticKey (peer : WGPeerSection) : Text :=
  peer.publicKey ++ '|' :: (peer.endpoint.getD []
    ++ '|' :: (joined [','] (sortedTexts peer.allowedIPs)
    ++ '|' :: fmtSigned (peer.keepalive.getD 0)))

/-- The lists are the same set. -/
def SameSet (ts us : List Text) : Prop := ∀ t, t ∈ ts ↔ t ∈ us

def extraKeys (interface : WGInterfaceSection) : List Text :=
  interface.extras.map fun kv => lowercased kv.key ++ '=' :: kv.value

def WGConfig.semanticallyEquals (config other : WGConfig) : Prop :=
  config.interface.privateKey = other.interface.privateKey ∧
    config.interface.address = other.interface.address ∧
    config.interface.listenPort = other.interface.listenPort ∧
    SameSet (extraKeys config.interface) (extraKeys other.interface) ∧
    SameSet (config.peers.map (·.semanticKey)) (other.peers.map (·.semanticKey))

def WGConfig.routeSet (config : WGConfig) : List Text := config.peers.flatMap (·.allowedIPs)

def WGConfig.routesDiffer (config other : WGConfig) : Prop :=
  ¬ SameSet config.routeSet other.routeSet

/-! ## The server's answer -/

structure PeerEntry where
  pubkey : Text
  wgIP : Option Text
  endpoint : Option Text
  allowedExtra : List Text

structure PeersResponse where
  peers : List PeerEntry
  keepaliveSec : Option ℤ
  deviceIP : Option Text

def PeerEntry.allowedIPs (entry : PeerEntry) : List Text :=
  (match entry.wgIP with
    | some ip => if ip ≠ [] then [if '/' ∈ ip then ip else ip ++ "/32".toList] else []
    | none => [])
  ++ entry.allowedExtra

def PeerEntry.peerSection (keepalive : ℤ) (entry : PeerEntry) : Option WGPeerSection :=
  if entry.pubkey = [] then none
  else if entry.allowedIPs = [] then none
  else some {
    publicKey := entry.pubkey
    endpoint := if entry.endpoint = some [] then none else entry.endpoint
    allowedIPs := entry.allowedIPs
    keepalive := if 0 < keepalive then some keepalive else none }

/-- The interface on disk, with what it lacks. -/
def WGInterfaceSection.filled (iface : WGInterfaceSection) (deviceIP : Option Text)
    (fallbackListenPort : ℤ) : WGInterfaceSection :=
  { iface with
    address := match deviceIP with
      | some ip =>
        if iface.address = [] ∧ ip ≠ [] then if '/' ∈ ip then ip else ip ++ "/24".toList
        else iface.address
      | none => iface.address
    listenPort :=
      if iface.listenPort = [] then fmtSigned fallbackListenPort else iface.listenPort }

def WGConfig.build (existing : Option WGConfig) (response : PeersResponse)
    (fallbackDeviceIP : Option Text) (fallbackListenPort : ℤ) : Option WGConfig :=
  existing.bind fun existing =>
    if existing.interface.privateKey = [] then none
    else some {
      interface :=
        existing.interface.filled (fallbackDeviceIP <|> response.deviceIP) fallbackListenPort
      peers := response.peers.filterMap
        (PeerEntry.peerSection (response.keepaliveSec.getD 25)) }

end PolarWG
