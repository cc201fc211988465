import PolarWG.TunnelManager

/-!
# The nodes of the Android application

`WgTunnelManager`, which keeps its nodes in `NodeRepository`. Everything but the network calls
happens on the main thread.
-/

namespace PolarWG

structure AndroidNode extends Draft where
  id : UUID
  name : Text
deriving DecidableEq

structure NodeRepository where
  nodes : List AndroidNode
  selectedId : Option UUID
  meshMeta : UUID → Option MeshMeta

structure WgTunnelManager where
  nodes : List AndroidNode
  selectedNodeId : Option UUID
  editor : Draft
  nodeName : Text
  meshMeta : Option MeshMeta
  repo : NodeRepository
  leaving : List (UUID × MeshMeta)

def androidDefaultConfig : Text :=
  joined ['\n'] ["[Interface]".toList,
    "PrivateKey = yPDHiay/NDkJE9OyUT0J8qhuJXpihZw1aD7Xl4JJEVw=".toList,
    "Address = 10.88.0.2/24".toList,
    "DNS = 1.1.1.1, 1.0.0.1".toList,
    [],
    "[Peer]".toList,
    "PublicKey = XXFzbjDln02y/aWfo2RFVZ/foiMC/NEo9QKXDdk9SXk=".toList,
    "Endpoint = 172.16.203.128:51820".toList,
    "AllowedIPs = 0.0.0.0/0".toList,
    "PersistentKeepalive = 25".toList]

namespace WgTunnelManager

def selectedNode (s : WgTunnelManager) : Option AndroidNode :=
  s.nodes.find? fun node => s.selectedNodeId = some node.id

def saveNodes (s : WgTunnelManager) : WgTunnelManager :=
  { s with repo := { s.repo with nodes := s.nodes } }

def saveSelectedId (s : WgTunnelManager) : WgTunnelManager :=
  { s with repo := { s.repo with selectedId := s.selectedNodeId } }

def applySelectedToEditor (s : WgTunnelManager) : WgTunnelManager :=
  match s.selectedNode with
  | none => s
  | some node =>
    { s with
      editor := node.toDraft
      nodeName := node.name
      meshMeta := s.repo.meshMeta node.id }

def edited (s : WgTunnelManager) (id : UUID) (node : AndroidNode) : AndroidNode :=
  if node.id = id then { node with toDraft := s.editor, name := s.nodeName } else node

def syncEditorToNode (s : WgTunnelManager) : WgTunnelManager :=
  match s.selectedNodeId with
  | none => s
  | some id => { s with nodes := s.nodes.map (s.edited id) }.saveNodes

def selectNode (s : WgTunnelManager) (id : UUID) : WgTunnelManager :=
  { s.syncEditorToNode with selectedNodeId := some id }.saveSelectedId.applySelectedToEditor

/-- The end of what makes a node: it is selected. -/
def appendSelected (s : WgTunnelManager) (node : AndroidNode) : WgTunnelManager :=
  { s with nodes := s.nodes ++ [node], selectedNodeId := some node.id
    }.saveNodes.saveSelectedId.applySelectedToEditor

def addNode (s : WgTunnelManager) (uuid : UUID) (name : Option Text) : WgTunnelManager :=
  let s := s.syncEditorToNode
  let base := s.selectedNode
  s.appendSelected
    { id := uuid
      name := name.getD ("Node ".toList ++ fmtUnsigned (s.nodes.length + 1))
      config := (base.map (·.config)).getD androidDefaultConfig
      routeMode := (base.map (·.routeMode)).getD .full
      dnsMode := (base.map (·.dnsMode)).getD .plain
      splitInjectedRoutes := (base.map (·.splitInjectedRoutes)).getD [] }

/-- `first()` throws where nothing is left. -/
def deleteSelectedNode (s : WgTunnelManager) : Option WgTunnelManager :=
  if s.nodes.length ≤ 1 then some s
  else
    match s.selectedNodeId with
    | none => some s
    | some id =>
      match s.nodes.filter (·.id ≠ id) with
      | [] => none
      | first :: rest =>
        some { s with nodes := first :: rest, selectedNodeId := some first.id
          }.saveNodes.saveSelectedId.applySelectedToEditor

/-- What follows on the answer to the registration; nothing before it touches a node. -/
def joinMesh (s : WgTunnelManager) (uuid : UUID) (token serverUrl privB64 : Text) (listenPort : ℤ)
    (resp : MeshJoinResponse) : WgTunnelManager :=
  let role := resp.role.getD "device".toList
  let shortDev := resp.deviceId.drop (resp.deviceId.length - 8)
  let s := s.appendSelected
    { id := uuid
      name := "mesh-".toList ++ role ++ '-' :: shortDev
      config := meshConfRenderAndroid resp.toMeshRegisterResponse privB64 listenPort
      routeMode := .split
      dnsMode := .plain
      splitInjectedRoutes := resp.meshCidr.getD "10.88.0.0/16".toList }
  let entry : MeshMeta := ⟨resp.deviceId, resp.token.getD token, serverUrl⟩
  { s with
    repo := { s.repo with meshMeta := Function.update s.repo.meshMeta uuid (some entry) }
    meshMeta := some entry }

/-- The end of leaving, with the metadata that there was. -/
def left (s : WgTunnelManager) (id : UUID) : Option WgTunnelManager :=
  { s with repo := { s.repo with meshMeta := Function.update s.repo.meshMeta id none }
    }.deleteSelectedNode

/-- Up to the network call, where one can be made; what is sent. -/
def leaveMeshAndDeleteSelected (dials : Text → Bool) (s : WgTunnelManager) :
    Option (WgTunnelManager × Option MeshMeta) :=
  match s.selectedNodeId with
  | none => some (s, none)
  | some id =>
    match s.repo.meshMeta id with
    | none => s.deleteSelectedNode.map (·, none)
    | some entry =>
      if dials entry.server then
        some ({ s with leaving := s.leaving ++ [(id, entry)] }, some entry)
      else (s.left id).map (·, none)

end WgTunnelManager

/-! ## Runs -/

inductive AndroidOp where
  | edit (editor : Draft) (nodeName : Text)
  | selectNode (id : UUID)
  | addNode (uuid : UUID) (name : Option Text)
  /-- The server has registered the device. -/
  | joinMesh (uuid : UUID) (token serverUrl privB64 : Text) (listenPort : ℤ)
    (resp : MeshJoinResponse)
  /-- As far as the nodes are concerned. -/
  | connect
  | saveCurrentNode
  | deleteSelectedNode
  | leaveMeshAndDeleteSelected
  /-- The network call of one of the leaves is over. -/
  | leaveReturns (i : ℕ)

/-- `randomUUID` makes an id that no node has. -/
def WgTunnelManager.isFresh (s : WgTunnelManager) (uuid : UUID) : Bool := s.nodes.all (·.id ≠ uuid)

/-- What is done to the manager, and what is sent for a leave. -/
def androidStep (dials : Text → Bool) (s : WgTunnelManager) :
    AndroidOp → Option (WgTunnelManager × Option MeshMeta)
  | .edit editor nodeName => some ({ s with editor := editor, nodeName := nodeName }, none)
  | .selectNode id => some (s.selectNode id, none)
  | .addNode uuid name => if s.isFresh uuid then some (s.addNode uuid name, none) else none
  | .joinMesh uuid token serverUrl privB64 listenPort resp =>
    if s.isFresh uuid then some (s.joinMesh uuid token serverUrl privB64 listenPort resp, none)
    else none
  | .connect => some (s.syncEditorToNode, none)
  | .saveCurrentNode => some (s.syncEditorToNode.saveNodes, none)
  | .deleteSelectedNode => s.deleteSelectedNode.map (·, none)
  | .leaveMeshAndDeleteSelected => s.leaveMeshAndDeleteSelected dials
  | .leaveReturns i => do
    let (id, _) ← s.leaving[i]?
    let s ← { s with leaving := s.leaving.eraseIdx i }.left id
    pure (s, none)

end PolarWG
