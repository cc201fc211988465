import PolarWG.PublicIP

/-!
# The profiles of the iOS application

`TunnelManager`: the profiles, which of them is selected, and the editor's copy of the selected one.
All of it happens on the main actor, so what comes between two suspensions is one step. The
Keychain takes what it is given.
-/

namespace PolarWG

abbrev UUID := ℕ

inductive RouteMode where
  | full
  | split
deriving DecidableEq

inductive DNSMode where
  | system
  | plain
  | doh
deriving DecidableEq

inductive NodeSource where
  | manual
  | platform
deriving DecidableEq

/-- What the editor shows of a profile. -/
structure Draft where
  config : Text
  routeMode : RouteMode
  dnsMode : DNSMode
  splitInjectedRoutes : Text
deriving DecidableEq

structure VPNNode extends Draft where
  id : UUID
  name : Text
  source : NodeSource
  country : Text
  dnsServers : Option Text
  dnsMatchDomains : Option Text
  dnsSearchDomains : Option Text
  platformProxyId : Option Text
  platformProfileId : Option Text
  proxyVersion : Option ℤ
deriving DecidableEq

inductive ProfileStorageMode where
  | local
  | iCloud
deriving DecidableEq

structure StoredProfiles where
  selectedProfileID : Option UUID
  profiles : List VPNNode

/-- What is kept of a registration, as far as leaving needs it. -/
structure MeshMeta where
  deviceId : Text
  token : Text
  server : Text
deriving DecidableEq

structure MeshDns where
  servers : Option (List Text)
  matchDomains : Option (List Text)
  searchDomains : Option (List Text)

/-- The answer to a registration, as far as the applications make a profile of it. -/
structure MeshJoinResponse extends MeshRegisterResponse where
  deviceId : Text
  hubSlug : Option Text
  meshCidr : Option Text
  token : Option Text
  dns : Option MeshDns

/-- A proxy of the platform that has a configuration. -/
structure LatchProxy where
  id : Text
  name : Text
  country : Option Text
  version : ℤ
  profileId : Text
  wgConfig : Text

def defaultConfigText : Text :=
  joined ['\n'] ["[Interface]".toList,
    "PrivateKey = yPDHiay/NDkJE9OyUT0J8qhuJXpihZw1aD7Xl4JJEVw=".toList,
    "Address    = 10.88.0.2/24".toList,
    [],
    "[Peer]".toList,
    "PublicKey  = XXFzbjDln02y/aWfo2RFVZ/foiMC/NEo9QKXDdk9SXk=".toList,
    "Endpoint   = 172.16.203.128:51820".toList,
    "AllowedIPs = 0.0.0.0/0".toList,
    "PersistentKeepalive = 25".toList]

def trimmingWhitespacesAndNewlines (t : Text) : Text :=
  ((t.dropWhile isWhitespaceOrNewline).reverse.dropWhile isWhitespaceOrNewline).reverse

def normalizedProfileName (raw : Option Text) : Option Text :=
  (raw.map trimmingWhitespacesAndNewlines).filter (· ≠ [])

def csvJoin (list : Option (List Text)) : Option Text :=
  (list.map fun ts => (ts.map trimmed).filter (· ≠ [])).bind fun cleaned =>
    if cleaned = [] then none else some (joined [','] cleaned)

def firstID (profiles : List VPNNode) : Option UUID := profiles.head?.map (·.id)

/-! ## The manager -/

/-- The leaves whose network call is awaited are kept with the profile that was selected and what
was sent of it. -/
structure TunnelManager where
  storageMode : ProfileStorageMode
  profiles : List VPNNode
  selectedProfileID : Option UUID
  editor : Draft
  dnsServers : Text
  dnsMatchDomains : Text
  dnsSearchDomains : Text
  keychain : ProfileStorageMode → Option StoredProfiles
  meshMeta : UUID → Option MeshMeta
  leaving : List (UUID × MeshMeta)

namespace TunnelManager

def selectedProfile (s : TunnelManager) : Option VPNNode := do
  let id ← s.selectedProfileID
  s.profiles.find? (·.id = id)

def persistProfilesToKeychain (s : TunnelManager) : TunnelManager :=
  { s with keychain := fun mode =>
      if mode = s.storageMode then some ⟨s.selectedProfileID, s.profiles⟩ else s.keychain mode }

def applySelectedProfileToEditor (s : TunnelManager) : TunnelManager :=
  match s.selectedProfile with
  | none => s
  | some profile =>
    { s with
      editor := profile.toDraft
      dnsServers := profile.dnsServers.getD []
      dnsMatchDomains := profile.dnsMatchDomains.getD []
      dnsSearchDomains := profile.dnsSearchDomains.getD [] }

/-- What the editor makes of the profile it shows. -/
def edited (s : TunnelManager) (profile : VPNNode) : VPNNode :=
  { profile with
    toDraft := s.editor
    dnsServers := some s.dnsServers
    dnsMatchDomains := some s.dnsMatchDomains
    dnsSearchDomains := some s.dnsSearchDomains }

def syncCurrentProfileDraft (s : TunnelManager) : TunnelManager :=
  match s.selectedProfileID with
  | none => s
  | some id =>
    match s.profiles.findIdx? (·.id = id) with
    | none => s
    | some idx => { s with profiles := s.profiles.modify idx s.edited }.persistProfilesToKeychain

def selectProfile (s : TunnelManager) (id : UUID) : TunnelManager :=
  let s := s.syncCurrentProfileDraft
  { s with selectedProfileID := some id }.applySelectedProfileToEditor.persistProfilesToKeychain

/-- The end of what makes a profile: it is selected. -/
def appendSelected (s : TunnelManager) (profile : VPNNode) : TunnelManager :=
  { s with profiles := s.profiles ++ [profile], selectedProfileID := some profile.id
    }.applySelectedProfileToEditor.persistProfilesToKeychain

def addProfile (s : TunnelManager) (uuid : UUID) (proposedName : Option Text) : TunnelManager :=
  let s := s.syncCurrentProfileDraft
  let base := s.selectedProfile
  let name := (normalizedProfileName proposedName).getD
    ("Server ".toList ++ fmtUnsigned (s.profiles.length + 1))
  s.appendSelected
    { id := uuid
      name := name
      config := (base.map (·.config)).getD defaultConfigText
      source := .manual
      country := []
      routeMode := (base.map (·.routeMode)).getD .full
      dnsMode := (base.map (·.dnsMode)).getD .plain
      splitInjectedRoutes := (base.map (·.splitInjectedRoutes)).getD []
      dnsServers := none
      dnsMatchDomains := none
      dnsSearchDomains := none
      platformProxyId := none
      platformProfileId := none
      proxyVersion := none }

def setStorageMode (s : TunnelManager) (mode : ProfileStorageMode) : TunnelManager :=
  if mode = s.storageMode then s
  else
    let s : TunnelManager := { s.syncCurrentProfileDraft with storageMode := mode }
    match (s.keychain mode).filter (·.profiles ≠ []) with
    | some stored =>
      let selected := match stored.selectedProfileID with
        | some selected =>
          if stored.profiles.any (·.id = selected) then some selected
          else firstID stored.profiles
        | none => firstID stored.profiles
      { s with profiles := stored.profiles, selectedProfileID := selected
        }.applySelectedProfileToEditor
    | none =>
      { s with selectedProfileID := s.selectedProfileID.or (firstID s.profiles)
        }.applySelectedProfileToEditor.persistProfilesToKeychain

/-! ## The platform's nodes -/

def platformNode (uuid : UUID) (proxy : LatchProxy) : VPNNode :=
  { id := uuid
    name := proxy.name
    config := proxy.wgConfig
    source := .platform
    country := proxy.country.getD []
    routeMode := .full
    dnsMode := .plain
    splitInjectedRoutes := []
    dnsServers := none
    dnsMatchDomains := none
    dnsSearchDomains := none
    platformProxyId := some proxy.id
    platformProfileId := some proxy.profileId
    proxyVersion := some proxy.version }

/-- A node that the platform still has. -/
def updatedNode (node fresh : VPNNode) : VPNNode :=
  let updated := { node with name := fresh.name, country := fresh.country }
  if fresh.proxyVersion ≠ node.proxyVersion then
    { updated with config := fresh.config, proxyVersion := fresh.proxyVersion }
  else updated

/-- One of the platform's nodes is updated, or is dropped. -/
def mergeNode (acc : List VPNNode × List VPNNode) (node : VPNNode) : List VPNNode × List VPNNode :=
  let (merged, incoming) := acc
  match incoming.find? fun fresh => node.platformProxyId ≠ none
      ∧ fresh.platformProxyId = node.platformProxyId with
  | some fresh => (merged ++ [updatedNode node fresh],
      incoming.filter (·.platformProxyId ≠ node.platformProxyId))
  | none => (merged, incoming)

/-- What follows on the answer: the proxies, one for each id, in the order of the dictionary. -/
def syncFromPlatform (s : TunnelManager) (proxies : List (UUID × LatchProxy)) : TunnelManager :=
  let s := s.syncCurrentProfileDraft
  let incoming := proxies.map fun (uuid, proxy) => platformNode uuid proxy
  let (merged, incoming) := (s.profiles.filter (·.source = .platform)).foldl mergeNode
    (s.profiles.filter (·.source = .manual), incoming)
  let s := { s with profiles := merged ++ incoming }
  let s := match s.selectedProfileID with
    | some sel =>
      if s.profiles.any (·.id = sel) then s else { s with selectedProfileID := firstID s.profiles }
    | none => s
  s.applySelectedProfileToEditor.persistProfilesToKeychain

/-! ## The mesh -/

/-- What follows on the answer to the registration; nothing before it touches a profile. -/
def joinMesh (s : TunnelManager) (uuid : UUID) (token resolvedServer privB64 : Text)
    (resp : MeshJoinResponse) : TunnelManager :=
  let role := resp.role.getD "device".toList
  let shortDev := resp.deviceId.drop (resp.deviceId.length - 8)
  let s := s.appendSelected
    { id := uuid
      name := "mesh-".toList ++ role ++ '-' :: shortDev
      config := meshConfRender resp.toMeshRegisterResponse privB64 1632
      source := .manual
      country := resp.hubSlug.getD []
      routeMode := .split
      dnsMode := .plain
      splitInjectedRoutes := resp.meshCidr.getD "10.88.0.0/16".toList
      dnsServers := csvJoin (resp.dns.bind (·.servers))
      dnsMatchDomains := csvJoin (resp.dns.bind (·.matchDomains))
      dnsSearchDomains := csvJoin (resp.dns.bind (·.searchDomains))
      platformProxyId := none
      platformProfileId := none
      proxyVersion := none }
  let entry : MeshMeta := ⟨resp.deviceId, resp.token.getD token, resolvedServer⟩
  { s with meshMeta := Function.update s.meshMeta uuid (some entry) }

def deleteSelectedProfile (s : TunnelManager) : TunnelManager :=
  match s.selectedProfileID with
  | none => s
  | some id =>
    if s.profiles.length ≤ 1 then s
    else
      let profiles := s.profiles.filter (·.id ≠ id)
      { s with profiles := profiles, selectedProfileID := firstID profiles
        }.applySelectedProfileToEditor.persistProfilesToKeychain

/-- The end of leaving: the metadata of the profile that left, and the selected profile, go. -/
def left (s : TunnelManager) (id : UUID) : TunnelManager :=
  { s with meshMeta := Function.update s.meshMeta id none }.deleteSelectedProfile

/-- Up to the network call, where one can be made; what is sent. -/
def leaveMeshAndDeleteSelected (dials : Text → Bool) (s : TunnelManager) :
    TunnelManager × Option MeshMeta :=
  match s.selectedProfileID.bind fun id => (s.meshMeta id).map (id, ·) with
  | none => (s.deleteSelectedProfile, none)
  | some (id, entry) =>
    if dials entry.server then ({ s with leaving := s.leaving ++ [(id, entry)] }, some entry)
    else (s.left id, none)

/-! ## The rest -/

def renameSelectedProfile (s : TunnelManager) (name : Text) : TunnelManager :=
  match s.selectedProfileID.bind fun id => s.profiles.findIdx? (·.id = id) with
  | none => s
  | some idx =>
    let trimmed := trimmingWhitespacesAndNewlines name
    { s with profiles := s.profiles.modify idx fun profile =>
        { profile with name := if trimmed = [] then "Unnamed Server".toList else trimmed }
      }.persistProfilesToKeychain

def save (s : TunnelManager) (config : Text) (routeMode : RouteMode) (splitInjectedRoutes : Text) :
    TunnelManager :=
  { s with editor := { s.editor with
      config := config, routeMode := routeMode, splitInjectedRoutes := splitInjectedRoutes }
    }.syncCurrentProfileDraft

def saveCurrentProfile (s : TunnelManager) : TunnelManager :=
  let s := s.syncCurrentProfileDraft
  match s.selectedProfile with
  | none => s
  | some profile => s.save profile.config profile.routeMode profile.splitInjectedRoutes

end TunnelManager

/-! ## Runs -/

inductive ManagerOp where
  | edit (editor : Draft)
  | selectProfile (id : UUID)
  | addProfile (uuid : UUID) (proposedName : Option Text)
  | renameSelectedProfile (name : Text)
  | setStorageMode (mode : ProfileStorageMode)
  /-- The platform has answered. -/
  | syncFromPlatform (proxies : List (UUID × LatchProxy))
  /-- The server has registered the device. -/
  | joinMesh (uuid : UUID) (token resolvedServer privB64 : Text) (resp : MeshJoinResponse)
  | save (config : Text) (routeMode : RouteMode) (splitInjectedRoutes : Text)
  | saveCurrentProfile
  | deleteSelectedProfile
  | leaveMeshAndDeleteSelected
  /-- The network call of one of the leaves is over. -/
  | leaveReturns (i : ℕ)

/-- `UUID()` makes an id that no profile has. -/
def TunnelManager.isFresh (s : TunnelManager) (uuid : UUID) : Bool := s.profiles.all (·.id ≠ uuid)

/-- What is done to the manager, and what is sent for a leave. -/
def managerStep (dials : Text → Bool) (s : TunnelManager) :
    ManagerOp → Option (TunnelManager × Option MeshMeta)
  | .edit editor => some ({ s with editor := editor }, none)
  | .selectProfile id => some (s.selectProfile id, none)
  | .addProfile uuid proposedName =>
    if s.isFresh uuid then some (s.addProfile uuid proposedName, none) else none
  | .renameSelectedProfile name => some (s.renameSelectedProfile name, none)
  | .setStorageMode mode => some (s.setStorageMode mode, none)
  | .syncFromPlatform proxies =>
    if (proxies.map Prod.fst).all s.isFresh ∧ (proxies.map Prod.fst).Nodup
        ∧ (proxies.map (·.2.id)).Nodup then some (s.syncFromPlatform proxies, none) else none
  | .joinMesh uuid token resolvedServer privB64 resp =>
    if s.isFresh uuid then some (s.joinMesh uuid token resolvedServer privB64 resp, none) else none
  | .save config routeMode splitInjectedRoutes =>
    some (s.save config routeMode splitInjectedRoutes, none)
  | .saveCurrentProfile => some (s.saveCurrentProfile, none)
  | .deleteSelectedProfile => some (s.deleteSelectedProfile, none)
  | .leaveMeshAndDeleteSelected => some (s.leaveMeshAndDeleteSelected dials)
  | .leaveReturns i => (s.leaving[i]?).map fun (id, _) =>
    ({ s with leaving := s.leaving.eraseIdx i }.left id, none)

end PolarWG
