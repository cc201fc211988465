import PolarWG.TunnelManager

/-!
# The platform's answer

The profiles of an account with their proxies. A proxy's configuration is a JSON object of which a
wg-quick text is made; proxies that no text is made of are skipped, and of those with one id the
last one counts.
-/

namespace PolarWG

inductive JSONValue where
  | string (v : Text)
  | int (v : ℤ)
  /-- With its description. -/
  | double (description : Text)
  | bool (v : Bool)
  | object (v : List (Text × JSONValue))
  | array (v : List JSONValue)
  | null

/-- A JSON value as a flat string for a wg-quick line. -/
def JSONValue.asString : JSONValue → Option Text
  | .string v => some v
  | .int v => some (fmtSigned v)
  | .double description => some description
  | .bool v => some (if v then "true".toList else "false".toList)
  | _ => none

/-- A proxy as it is answered. Its dictionary is given in the order of an iteration. -/
structure LatchProxyJSON where
  id : Text
  name : Text
  config : List (Text × JSONValue)
  country : Option Text
  version : ℤ

structure LatchProfile where
  id : Text
  proxies : List LatchProxyJSON

def peerKeys : List Text := ["PublicKey".toList, "Endpoint".toList, "AllowedIPs".toList,
  "PresharedKey".toList, "PersistentKeepalive".toList]

def wgQuickLine (key strVal : Text) : Text := key ++ " = ".toList ++ strVal

/-- The lines whose keys are, or are not, keys of a peer. -/
def wgQuickLines (ofPeer : Bool) (config : List (Text × JSONValue)) : List Text :=
  config.filterMap fun (key, value) =>
    if peerKeys.contains key = ofPeer then value.asString.map (wgQuickLine key) else none

def toWGQuickConfig (config : List (Text × JSONValue)) : Option Text :=
  let ifaceLines := wgQuickLines false config
  let peerLines := wgQuickLines true config
  if ifaceLines.any ("PrivateKey".toList.isPrefixOf ·)
      ∧ peerLines.any ("PublicKey".toList.isPrefixOf ·) then
    some ("[Interface]\n".toList ++ joined ['\n'] ifaceLines ++ "\n\n[Peer]\n".toList
      ++ joined ['\n'] peerLines ++ ['\n'])
  else none

def LatchProfile.convertible (lp : LatchProfile) : List LatchProxy :=
  lp.proxies.filterMap fun proxy =>
    (toWGQuickConfig proxy.config).map fun wgConfig =>
      ⟨proxy.id, proxy.name, proxy.country, proxy.version, lp.id, wgConfig⟩

/-- The proxies with a configuration, in the order in which they are answered. -/
def convertible (latchProfiles : List LatchProfile) : List LatchProxy :=
  latchProfiles.flatMap LatchProfile.convertible

/-- The dictionary under the proxies' ids. -/
def incomingProxies (latchProfiles : List LatchProfile) : List LatchProxy :=
  (convertible latchProfiles).foldl
    (fun incoming proxy => incoming.filter (·.id ≠ proxy.id) ++ [proxy]) []

/-! ## The nodes by their source -/

def TunnelManager.platformNodes (s : TunnelManager) : List VPNNode :=
  s.profiles.filter (·.source = .platform)

def TunnelManager.manualNodes (s : TunnelManager) : List VPNNode :=
  s.profiles.filter (·.source = .manual)

end PolarWG
