import PolarWG.TunnelManager

/-!
# Loading the profiles

`TunnelManager` is made at each launch of the application and loads the profiles once the system has
answered with its VPN preferences. What is in the Keychain is what some launch has saved.
-/

namespace PolarWG

/-- What the system keeps of the provider that was saved last, as far as it was. -/
structure ProviderConfiguration where
  config : Option Text
  routeMode : Option RouteMode
  splitInjectedRoutes : Option Text

namespace TunnelManager

def loadProfilesFromKeychain (s : TunnelManager) (uuid : UUID) (fallbackConfig : Text)
    (fallbackMode : RouteMode) (fallbackSplit : Text) : TunnelManager :=
  match (s.keychain s.storageMode).filter (·.profiles ≠ []) with
  | some stored =>
    let selected := match stored.selectedProfileID with
      | some selected =>
        if stored.profiles.any (·.id = selected) then some selected
        else firstID stored.profiles
      | none => firstID stored.profiles
    { s with profiles := stored.profiles, selectedProfileID := selected
      }.applySelectedProfileToEditor
  | none =>
    let initial : VPNNode :=
      { id := uuid
        name := "Default Node".toList
        config := fallbackConfig
        source := .manual
        country := []
        routeMode := fallbackMode
        dnsMode := .plain
        splitInjectedRoutes := fallbackSplit
        dnsServers := none
        dnsMatchDomains := none
        dnsSearchDomains := none
        platformProxyId := none
        platformProfileId := none
        proxyVersion := none }
    { s with profiles := [initial], selectedProfileID := some initial.id
      }.applySelectedProfileToEditor.persistProfilesToKeychain

/-- The preferences may also throw, and then nothing is loaded. -/
def load (s : TunnelManager) (uuid : UUID) : Option ProviderConfiguration → TunnelManager
  | some proto => s.loadProfilesFromKeychain uuid (proto.config.getD defaultConfigText)
    (proto.routeMode.getD .full) (proto.splitInjectedRoutes.getD [])
  | none => s

/-- A new manager over what is stored on the device. -/
def launched (s : TunnelManager) : TunnelManager :=
  { s with
    profiles := []
    selectedProfileID := none
    editor := ⟨defaultConfigText, .full, .plain, []⟩
    dnsServers := []
    dnsMatchDomains := []
    dnsSearchDomains := []
    leaving := [] }

/-- The application as it is installed: the Keychain is empty. -/
def installed : TunnelManager :=
  { storageMode := .local
    profiles := []
    selectedProfileID := none
    editor := ⟨defaultConfigText, .full, .plain, []⟩
    dnsServers := []
    dnsMatchDomains := []
    dnsSearchDomains := []
    keychain := fun _ => none
    meshMeta := fun _ => none
    leaving := [] }

end TunnelManager

inductive ProfilesOp where
  /-- The application is launched, and loads. -/
  | launch (uuid : UUID) (proto : Option ProviderConfiguration)
  | manager (op : ManagerOp)

/-- Only a profile that is in the list can be selected. -/
def profilesStep (dials : Text → Bool) (s : TunnelManager) :
    ProfilesOp → Option (TunnelManager × Option MeshMeta)
  | .launch uuid proto => some (s.launched.load uuid proto, none)
  | .manager (.selectProfile id) =>
    if s.profiles.any (·.id = id) then managerStep dials s (.selectProfile id) else none
  | .manager op => managerStep dials s op

end PolarWG
