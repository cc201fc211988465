import PolarWG.Hosts
import PolarWG.Lib.Routing
import PolarWG.Lines

/-!
# The network settings of the tunnel

`PacketTunnelProvider.buildNetworkSettings`: addresses, routes and name servers of the tunnel, from
what the session says of itself, the configuration text and the user's choices.
-/

namespace PolarWG

structure NEIPv4Route where
  destinationAddress : Text
  subnetMask : Text
deriving DecidableEq

/-- `NEIPv4Route.default()`. -/
def NEIPv4Route.default : NEIPv4Route := ⟨"0.0.0.0".toList, "0.0.0.0".toList⟩

structure NEIPv6Route where
  destinationAddress : Text
  networkPrefixLength : ℤ
deriving DecidableEq

/-- `NEIPv6Route.default()`. -/
def NEIPv6Route.default : NEIPv6Route := ⟨"::".toList, 0⟩

structure NEIPv4Settings where
  addresses : List Text
  subnetMasks : List Text
  includedRoutes : List NEIPv4Route
  excludedRoutes : List NEIPv4Route

structure NEIPv6Settings where
  addresses : List Text
  networkPrefixLengths : List ℤ
  includedRoutes : List NEIPv6Route
  excludedRoutes : List NEIPv6Route

structure NEDNSSettings where
  servers : List Text
  serverURL : Option Text
  matchDomains : Option (List Text)
  searchDomains : Option (List Text)

structure NEPacketTunnelNetworkSettings where
  tunnelRemoteAddress : Text
  ipv4Settings : Option NEIPv4Settings
  ipv6Settings : Option NEIPv6Settings
  mtu : ℕ
  dnsSettings : Option NEDNSSettings

/-- An IPv4 address of an interface, as `getifaddrs` gives it. -/
structure Ifaddr where
  name : Text
  address : UInt32
  netmask : UInt32

/-- What the system answers: the text of an address, the numeric address of a host's first answer,
and the interfaces. -/
structure ProviderEnv where
  ntop : ℕ → Bytes → Text
  resolveName : Text → Option Text
  ifaddrs : List Ifaddr

/-! ## Helpers -/

/-- A shift to the left of a 32-bit word; by a negative number it is one to the right. -/
def shiftLeft32 (v : ℕ) (n : ℤ) : ℕ := if 0 ≤ n then v <<< n.toNat % 2 ^ 32 else v >>> (-n).toNat

def subnetMaskOf (prefixLen : ℤ) : ℕ :=
  if prefixLen = 0 then 0 else shiftLeft32 0xffffffff (32 - prefixLen)

def prefixLengthToSubnetMask (prefixLen : ℤ) : Text :=
  let mask := subnetMaskOf prefixLen
  joined ['.'] [fmtUnsigned (mask >>> 24 &&& 0xff), fmtUnsigned (mask >>> 16 &&& 0xff),
    fmtUnsigned (mask >>> 8 &&& 0xff), fmtUnsigned (mask &&& 0xff)]

variable (p : Prims) (env : ProviderEnv)

/-- `inet_pton` of a `String`. -/
def ptonText (family : ℕ) (host : Text) : Option Bytes := p.inetPton family (cstr host)

def isIPv4Literal (host : Text) : Bool := (ptonText p afInet host).isSome

def isIPv6Literal (host : Text) : Bool := (ptonText p afInet6 host).isSome

def networkAddress (address : Text) (prefixLength : ℤ) : Option Text :=
  if 0 ≤ prefixLength ∧ prefixLength ≤ 32 then
    (ptonText p afInet address).map fun rawAddr =>
      let hostOrder := leDec rawAddr.reverse
      env.ntop afInet (beEnc 4 (hostOrder &&& subnetMaskOf prefixLength))
  else none

/-- What is in the brackets that a text begins with. -/
def bracketedHost (t : Text) : Option Text :=
  match t with
  | '[' :: inner => (strchr ']' inner).map Prod.fst
  | _ => none

/-- The host of an endpoint: in brackets, or up to the only colon. -/
def normalizeEndpointHost (value : Text) : Text :=
  let trimmed := trimmingWhitespacesAndNewlines value
  match bracketedHost trimmed with
  | some host => host
  | none =>
    match strrchr ':' trimmed with
    | some (host, _) => if ']' ∉ trimmed ∧ ':' ∉ host then host else trimmed
    | none => trimmed

def resolvedIPAddress (host : Text) : Option Text :=
  let normalized := normalizeEndpointHost host
  if isIPv4Literal p normalized ∨ isIPv6Literal p normalized then some normalized
  else env.resolveName normalized

def isCommentLine (raw : Text) : Bool := raw.head? = some '#' ∨ raw.head? = some ';'

def firstEndpointHost (configText : Text) : Option Text :=
  (newlineSplit configText).findSome? fun line =>
    let raw := trimmingWhitespacesAndNewlines line
    if raw = [] ∨ isCommentLine raw ∨ ¬ "endpoint".toList.isPrefixOf (lowercased raw) then none
    else match strchr '=' raw with
    | none => none
    | some (_, rest) =>
      let host := normalizeEndpointHost (trimmed rest)
      if host = [] then none else some host

/-- A separator is one `Character`, so no line feed right after a carriage return is one. -/
def injectedTokensFrom : (afterCr : Bool) → Text → List Text
  | _, [] => [[]]
  | afterCr, c :: t =>
    if (c = '\n' ∧ ¬ afterCr) ∨ c = ',' ∨ c = ';' ∨ c = ' ' ∨ c = '\t' then
      [] :: injectedTokensFrom false t
    else (injectedTokensFrom (c = '\r') t).modifyHead (c :: ·)

structure InjectedCIDR where
  family : ℕ
  address : Text
  prefixLen : ℤ

def parseInjectedCIDRs (text : Text) : List InjectedCIDR :=
  ((injectedTokensFrom false text).filter (· ≠ [])).filterMap fun token =>
    let part := trimmingWhitespacesAndNewlines token
    match strrchr '/' part with
    | none => none
    | some (addr, prefixText) => (intOfText prefixText).bind fun prefixLen =>
      if isIPv4Literal p addr ∧ 0 ≤ prefixLen ∧ prefixLen ≤ 32 then some ⟨afInet, addr, prefixLen⟩
      else if isIPv6Literal p addr ∧ 0 ≤ prefixLen ∧ prefixLen ≤ 128 then
        some ⟨afInet6, addr, prefixLen⟩
      else none

def dedupeIPv4Routes (routes : List NEIPv4Route) : List NEIPv4Route :=
  Routing.firsts (fun route => route.destinationAddress ++ '/' :: route.subnetMask) routes []

def dedupeIPv6Routes (routes : List NEIPv6Route) : List NEIPv6Route :=
  Routing.firsts (fun route => route.destinationAddress ++ '/' :: fmtSigned route.networkPrefixLength)
    routes []

/-- The networks of the interfaces but loopback, tunnels and the peer-to-peer ones. -/
def localPhysicalSubnets : List NEIPv4Route :=
  let subnets := env.ifaddrs.filterMap fun ifa =>
    if ifa.name = "lo0".toList ∨ "utun".toList.isPrefixOf ifa.name
        ∨ "awdl".toList.isPrefixOf ifa.name ∨ "llw".toList.isPrefixOf ifa.name then none
    else if ifa.netmask = 0 then none
    else some ⟨env.ntop afInet (beEnc 4 (ifa.address &&& ifa.netmask).toNat),
      env.ntop afInet (beEnc 4 ifa.netmask.toNat)⟩
  dedupeIPv4Routes subnets

/-! ## Name servers -/

def parseDNSFromConfigFrom : (inInterface : Bool) → List Text → List Text
  | _, [] => []
  | inInterface, line :: lines =>
    let trimmedLine := trimmed line
    if "[interface]".toList.isPrefixOf (lowercased trimmedLine) then
      parseDNSFromConfigFrom true lines
    else if trimmedLine.head? = some '[' then parseDNSFromConfigFrom false lines
    else if inInterface ∧ "dns".toList.isPrefixOf (lowercased trimmedLine) then
      match splitOnce '=' trimmedLine with
      | [_, servers] => ((splitOmitting ',' servers).map trimmed).filter (· ≠ [])
      | _ => parseDNSFromConfigFrom inInterface lines
    else parseDNSFromConfigFrom inInterface lines

def parseDNSFromConfig (config : Text) : List Text :=
  parseDNSFromConfigFrom false (newlineComponents config)

/-- Empty lists say nothing. -/
def applyDNSDomains (dns : NEDNSSettings) (matchDomains searchDomains : List Text) :
    NEDNSSettings :=
  { dns with
    matchDomains := if matchDomains = [] then dns.matchDomains else some matchDomains
    searchDomains := if searchDomains = [] then dns.searchDomains else some searchDomains }

structure DNSPolicy where
  dnsMode : Text
  dnsServersOverride : List Text
  dnsMatchDomains : List Text
  dnsSearchDomains : List Text

def dnsSettings (configText : Text) (dns : DNSPolicy) : Option NEDNSSettings :=
  let apply (settings : NEDNSSettings) :=
    applyDNSDomains settings dns.dnsMatchDomains dns.dnsSearchDomains
  if dns.dnsMode = "system".toList then none
  else if dns.dnsMode = "doh".toList then
    some (apply ⟨["1.1.1.1".toList, "1.0.0.1".toList],
      some "https://cloudflare-dns.com/dns-query".toList, none, none⟩)
  else
    let servers := if dns.dnsServersOverride = [] then parseDNSFromConfig configText
      else dns.dnsServersOverride
    if servers = [] then none else some (apply ⟨servers, none, none, none⟩)

/-! ## Routes -/

/-- `wg_session_iface_addr_get`: the text of an interface's address. -/
def ifaceAddrText (a : WgsIfaceAddr) : Text := cstr (a.addrStr.take 63)

/-- The host of a peer's endpoint. -/
def peerEndpointHost (s : WgSession) (i : ℕ) : Option Text :=
  (wgSessionPeerEndpoint s i).map fun ep => env.ntop ep.family ep.addr

/-- `wg_session_peer_allowed_get` of all the entries of a peer in use. -/
def peerAllowed (s : WgSession) (i : ℕ) : List (ℕ × Text × ℤ) :=
  if (s.peers i).active then
    (s.peers i).allowed.map fun c =>
      (c.family, env.ntop c.family (if c.family = afInet then c.addr.take 4 else c.addr),
        (c.prefixLen : ℤ))
  else []

def allowedRoutes4 (mode : RouteMode) (allowed : List (ℕ × Text × ℤ)) : List NEIPv4Route :=
  allowed.filterMap fun (family, addr, prefixLen) =>
    if family ≠ afInet then none
    else if prefixLen = 0 then (if mode = .full then some .default else none)
    else some ⟨addr, prefixLengthToSubnetMask prefixLen⟩

def allowedRoutes6 (mode : RouteMode) (allowed : List (ℕ × Text × ℤ)) : List NEIPv6Route :=
  allowed.filterMap fun (family, addr, prefixLen) =>
    if family ≠ afInet6 then none
    else if prefixLen = 0 then (if mode = .full then some .default else none)
    else some ⟨addr, prefixLen⟩

/-- The route to a host alone, if it resolves to an address. -/
def hostRoutes (endpointHost : Text) : List NEIPv4Route × List NEIPv6Route :=
  let host := (resolvedIPAddress p env endpointHost).getD endpointHost
  if isIPv6Literal p host then ([], [⟨host, 128⟩])
  else if isIPv4Literal p host then ([⟨host, "255.255.255.255".toList⟩], [])
  else ([], [])

/-- Every peer's endpoint, or else the first one in the text. -/
def endpointRoutes (s : WgSession) (configText : Text) : List NEIPv4Route × List NEIPv6Route :=
  let routes := ((List.range s.nPeers).filterMap (peerEndpointHost env s)).map (hostRoutes p env)
  let excluded4 := routes.flatMap Prod.fst
  let excluded6 := routes.flatMap Prod.snd
  if excluded4 = [] ∧ excluded6 = [] then
    match firstEndpointHost configText with
    | some host => hostRoutes p env host
    | none => ([], [])
  else (excluded4, excluded6)

def injectedRoutes4 (splitInjectedRoutes : Text) : List NEIPv4Route :=
  ((parseInjectedCIDRs p splitInjectedRoutes).filter (·.family = afInet)).map fun cidr =>
    ⟨cidr.address, prefixLengthToSubnetMask cidr.prefixLen⟩

def injectedRoutes6 (splitInjectedRoutes : Text) : List NEIPv6Route :=
  ((parseInjectedCIDRs p splitInjectedRoutes).filter (·.family = afInet6)).map fun cidr =>
    ⟨cidr.address, cidr.prefixLen⟩

def interfaceRoutes (addrs : List WgsIfaceAddr) : List NEIPv4Route :=
  addrs.filterMap fun a => (networkAddress p env (ifaceAddrText a) a.prefixLen).map fun net =>
    ⟨net, prefixLengthToSubnetMask a.prefixLen⟩

def included4 (s : WgSession) (mode : RouteMode) (splitInjectedRoutes : Text) : List NEIPv4Route :=
  dedupeIPv4Routes ((List.range s.nPeers).flatMap (fun i => allowedRoutes4 mode (peerAllowed env s i))
    ++ (if mode = .split then injectedRoutes4 p splitInjectedRoutes else [])
    ++ interfaceRoutes p env (s.ifAddrs.filter (·.family = afInet)))

def included6 (s : WgSession) (mode : RouteMode) (splitInjectedRoutes : Text) : List NEIPv6Route :=
  dedupeIPv6Routes ((List.range s.nPeers).flatMap (fun i => allowedRoutes6 mode (peerAllowed env s i))
    ++ if mode = .split then injectedRoutes6 p splitInjectedRoutes else [])

/-- The peers, the local networks and the link-local one. -/
def excluded4 (s : WgSession) (configText : Text) : List NEIPv4Route :=
  dedupeIPv4Routes ((endpointRoutes p env s configText).1 ++ localPhysicalSubnets env
    ++ [⟨"169.254.0.0".toList, "255.255.0.0".toList⟩])

def excluded6 (s : WgSession) (configText : Text) : List NEIPv6Route :=
  dedupeIPv6Routes (endpointRoutes p env s configText).2

def ipv4Settings (s : WgSession) (configText : Text) (mode : RouteMode)
    (splitInjectedRoutes : Text) : Option NEIPv4Settings :=
  let addrs := s.ifAddrs.filter (·.family = afInet)
  let included := included4 p env s mode splitInjectedRoutes
  if addrs = [] then none
  else some
    { addresses := addrs.map ifaceAddrText
      subnetMasks := addrs.map fun a => prefixLengthToSubnetMask a.prefixLen
      includedRoutes := match mode with
        | .full => if included = [] then [.default] else included
        | .split => included
      excludedRoutes := match mode with
        | .full => excluded4 p env s configText
        | .split => [] }

def ipv6Settings (s : WgSession) (configText : Text) (mode : RouteMode)
    (splitInjectedRoutes : Text) : Option NEIPv6Settings :=
  let addrs := s.ifAddrs.filter (·.family = afInet6)
  let included := included6 p env s mode splitInjectedRoutes
  if addrs = [] then none
  else some
    { addresses := addrs.map ifaceAddrText
      networkPrefixLengths := addrs.map (·.prefixLen)
      includedRoutes := match mode with
        | .full => if included = [] then [.default] else included
        | .split => included
      excludedRoutes := match mode with
        | .full => excluded6 p env s configText
        | .split => [] }

def buildNetworkSettings (s : WgSession) (configText : Text) (mode : RouteMode)
    (splitInjectedRoutes : Text) (dns : DNSPolicy) : NEPacketTunnelNetworkSettings where
  tunnelRemoteAddress :=
    ((peerEndpointHost env s 0).or (firstEndpointHost configText)).getD "0.0.0.0".toList
  ipv4Settings := ipv4Settings p env s configText mode splitInjectedRoutes
  ipv6Settings := ipv6Settings p env s configText mode splitInjectedRoutes
  mtu := 1420
  dnsSettings := dnsSettings configText dns

end PolarWG
