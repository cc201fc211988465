import PolarWG.Config
import PolarWG.Get

/-!
# Joining a mesh

The configuration texts that the iOS and the Android application make of the server's answer to a
registration.
-/

namespace PolarWG

structure MeshPeer where
  pubkey : Text
  wgIp : Option Text
  endpoint : Option Text
  allowedExtra : Option (List Text)

structure MeshRegisterResponse where
  deviceIp : Text
  role : Option Text
  peers : List MeshPeer
  keepaliveSec : Option ℤ

def joined (separator : Text) (ts : List Text) : Text := separator.intercalate ts

def MeshRegisterResponse.keepalive (response : MeshRegisterResponse) : ℤ :=
  response.keepaliveSec.getD 25

def MeshPeer.aips (p : MeshPeer) : List Text :=
  (match p.wgIp with
    | some ip => if ip ≠ [] then [if '/' ∈ ip then ip else ip ++ "/32".toList] else []
    | none => [])
  ++ p.allowedExtra.getD []

def MeshPeer.lines (keepalive : ℤ) (p : MeshPeer) : List Text :=
  if p.pubkey = [] then []
  else if p.aips = [] then []
  else
    ["[Peer]".toList, "PublicKey  = ".toList ++ p.pubkey]
      ++ (match p.endpoint with
        | some endpoint => if endpoint ≠ [] then ["Endpoint   = ".toList ++ endpoint] else []
        | none => [])
      ++ ["AllowedIPs = ".toList ++ joined ", ".toList p.aips]
      ++ (if 0 < keepalive then ["PersistentKeepalive = ".toList ++ fmtSigned keepalive] else [])
      ++ [[]]

/-- `MeshConfRenderer.render` of the iOS application. -/
def meshConfRender (response : MeshRegisterResponse) (privateKeyB64 : Text) (listenPort : ℤ) :
    Text :=
  let prefixLen := if response.role = some "hub".toList then 24 else 24
  joined ['\n']
    (["[Interface]".toList,
      "PrivateKey = ".toList ++ privateKeyB64,
      "Address    = ".toList ++ response.deviceIp ++ '/' :: fmtUnsigned prefixLen,
      "ListenPort = ".toList ++ fmtSigned listenPort,
      []]
    ++ response.peers.flatMap (MeshPeer.lines response.keepalive))

/-! ## Android -/

def appendLines (lines : List Text) : Text := lines.flatMap (· ++ ['\n'])

/-- `Char.isWhitespace`: the separators and some control characters. -/
def isWhitespace (c : Char) : Bool :=
  let n := c.toNat
  (9 ≤ n ∧ n ≤ 13) ∨ (0x1C ≤ n ∧ n ≤ 0x20) ∨ n = 0xA0 ∨ n = 0x1680 ∨ (0x2000 ≤ n ∧ n ≤ 0x200A)
    ∨ n = 0x2028 ∨ n = 0x2029 ∨ n = 0x202F ∨ n = 0x205F ∨ n = 0x3000

def isBlank (t : Text) : Bool := t.all isWhitespace

def MeshPeer.aipsAndroid (p : MeshPeer) : List Text :=
  (match p.wgIp with
    | some ip => [if '/' ∈ ip then ip else ip ++ "/32".toList]
    | none => [])
  ++ p.allowedExtra.getD []

def MeshPeer.linesAndroid (keepalive : ℤ) (p : MeshPeer) : List Text :=
  if isBlank p.pubkey then []
  else if p.aipsAndroid = [] then []
  else
    ["[Peer]".toList, "PublicKey  = ".toList ++ p.pubkey]
      ++ (match p.endpoint with
        | some endpoint => if isBlank endpoint then [] else ["Endpoint   = ".toList ++ endpoint]
        | none => [])
      ++ ["AllowedIPs = ".toList ++ joined ", ".toList p.aipsAndroid]
      ++ (if 0 < keepalive then ["PersistentKeepalive = ".toList ++ fmtSigned keepalive] else [])
      ++ [[]]

/-- `MeshConfRenderer.render` of the Android application. -/
def meshConfRenderAndroid (response : MeshRegisterResponse) (privateKeyB64 : Text)
    (listenPort : ℤ) : Text :=
  appendLines
    (["[Interface]".toList,
      "PrivateKey = ".toList ++ privateKeyB64,
      "Address    = ".toList ++ response.deviceIp ++ "/24".toList,
      "ListenPort = ".toList ++ fmtSigned listenPort,
      []]
    ++ response.peers.flatMap (MeshPeer.linesAndroid response.keepalive))

end PolarWG
