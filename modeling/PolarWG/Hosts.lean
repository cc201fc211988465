import PolarWG.Run

/-!
# Hosts

The Apple tunnel provider and the Android bridge carry all of a session's datagrams over one socket.
-/

namespace PolarWG

variable (p : Prims)

/-- Where the socket sends what it is given, if there is one, and the source that is handed on with
whatever it receives. -/
structure Adapter where
  remote : Option Sockaddr
  source : Sockaddr

/-- A `sockaddr_in` with nothing but its family. -/
def zeroSin : Sockaddr := ⟨afInet, 0, zeros 4, 0, fun _ => rfl, fun h => absurd h (by decide)⟩

/-- The `socklen_t` of an address. -/
def Sockaddr.len (a : Sockaddr) : ℕ := if a.family = afInet6 then 28 else 16

/-- The text and port it returns, as the address they are read back to: that one has no scope. -/
def wgSessionPeerEndpoint (s : WgSession) (i : ℕ) : Option Sockaddr :=
  let peer := s.peers i
  if s.nPeers ≤ i then none
  else if peer.endpointLen = 0 then none
  else if peer.endpoint.family = afInet ∨ peer.endpoint.family = afInet6 then
    some { peer.endpoint with scope := 0 }
  else none

/-- `startTunnel` opens a UDP session to the first peer's endpoint, or to what the first endpoint
line of the text resolves to, and `makeSockaddrFromCurrentEndpoint` gives that one ever after. -/
def packetTunnelProvider (s : WgSession) (firstPeerEndpointFromConfig : Option Sockaddr) :
    Adapter :=
  let peerHost := (wgSessionPeerEndpoint s 0).or firstPeerEndpointFromConfig
  ⟨peerHost, peerHost.getD zeroSin⟩

/-- `jni_send_udp` hands the bytes to `onSendUdp` without their destination, so the service's socket
is what says where they go; `nativeHandleUdp` is not told where bytes come from. -/
def jniBridge (service : Option Sockaddr) : Adapter := ⟨service, zeroSin⟩

inductive HostCall where
  | receive (bytes : Bytes) (src : Sockaddr) (env : UdpEnv)
  | tun (bytes : Bytes) (env : EncapEnv)
  | tick (env : TickEnv)
  | kick (env : InitiationEnv)
  | setUapi (resolve : Resolver) (text : Text)

/-- The call that the session gets. -/
def HostCall.call (a : Adapter) : HostCall → Call
  | .receive bytes _ env => .handleUdp bytes a.source a.source.len env
  | .tun bytes env => .handleTun bytes env
  | .tick env => .tick env
  | .kick env => .kick env
  | .setUapi resolve text => .setUapi resolve text

def hostStep (a : Adapter) (s : WgSession) (c : HostCall) : Option (WgSession × List Upcall) :=
  sessionStep p s (c.call a)

/-- A session as its host has it from the start. -/
inductive Hosted : Adapter → WgSession → Prop where
  | apple {s : WgSession} (first : Option Sockaddr) (h : Created p s) :
      Hosted (packetTunnelProvider s first) s
  | android {s : WgSession} (service : Option Sockaddr) (h : Created p s) :
      Hosted (jniBridge service) s

end PolarWG
