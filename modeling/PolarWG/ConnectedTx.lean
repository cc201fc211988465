import PolarWG.Core

/-!
# The connected socket

`peer_tx_socket` and `peer_send` of the client: a socket of the peer's own, connected to its
endpoint, and `sendto` on the listener where there is none. What the system calls and the clock
answer is an argument, and a socket sends to what it was last connected to.
-/

namespace PolarWG

/-- The socket behind a descriptor, and what it is connected to. -/
structure UdpSocket where
  family : ℕ
  connected : Option Sockaddr
deriving DecidableEq

/-- `tx_fd` is `-1` where there is no socket. -/
structure TxPeer extends PeerState where
  txFd : Option UdpSocket
  txEp : Sockaddr
  txEpLen : ℕ
  txErrLast : ℤ
  txRetryAt : ℤ
  txSendErrs : ℕ
deriving DecidableEq

inductive SendResult where
  | sent
  /-- `EAGAIN`, `EWOULDBLOCK` or `ENOBUFS`. -/
  | queueFull
  /-- `ECONNREFUSED`. -/
  | refused
  /-- Any other error. -/
  | failed
deriving DecidableEq

/-- What a call of `peer_send` gets from the system: whether each call succeeds, and the time where
it is asked for. -/
structure SendEnv where
  retryNow : ℤ
  socket : Bool
  bind : Bool
  connect : Bool
  connectNow : ℤ
  send : SendResult
  sendNow : ℤ
  sendto : Bool
  sendtoNow : ℤ

/-- The peer, the two globals, and the address last passed for the peer. -/
structure TxState where
  peer : TxPeer
  gConnectedTx : Bool
  gBoundPort : ℕ
  last : Option Sockaddr

def peerTxClose (peer : TxPeer) : TxPeer := { peer with txFd := none, txEpLen := 0 }

/-- The end of `peer_tx_socket`, where there is a socket. -/
def txConnect (s : TxState) (sock : UdpSocket) (env : SendEnv) : TxState × Option UdpSocket :=
  let peer := s.peer
  if ¬ env.connect then
    ({ s with peer := peerTxClose { peer with txRetryAt := env.connectNow + 10 } }, none)
  else
    let sock := { sock with connected := some peer.endpoint }
    ({ s with peer := { peer with
        txFd := some sock, txRetryAt := 0, txEp := peer.endpoint, txEpLen := peer.endpointLen } },
      some sock)

def peerTxSocket (s : TxState) (env : SendEnv) : TxState × Option UdpSocket :=
  let peer := s.peer
  if ¬ s.gConnectedTx ∨ peer.endpointLen = 0 ∨ s.gBoundPort = 0 then (s, none)
  else if peer.txFd ≠ none
      ∧ sockaddrSame peer.txEp peer.txEpLen peer.endpoint peer.endpointLen then (s, peer.txFd)
  else if peer.txRetryAt ≠ 0 ∧ env.retryNow < peer.txRetryAt then (s, none)
  else
    let family := peer.endpoint.family
    let peer := if peer.txFd ≠ none ∧ peer.txEp.family ≠ family then peerTxClose peer else peer
    let s := { s with peer }
    match peer.txFd with
    | some sock => txConnect s sock env
    | none =>
      if ¬ env.socket then (s, none)
      else if ¬ env.bind then ({ s with gConnectedTx := false }, none)
      else txConnect s ⟨family, none⟩ env

/-- One line in ten seconds. -/
def logged (peer : TxPeer) (now : ℤ) : TxPeer :=
  if now - peer.txErrLast ≥ 10 then { peer with txErrLast := now } else peer

/-- The datagram on the listener, to what the endpoint was. -/
def sendtoListener (s : TxState) (ep : Sockaddr) (epLen : ℕ) (env : SendEnv) :
    TxState × ℤ × List Sockaddr :=
  if epLen = 0 then (s, -1, [])
  else if ¬ env.sendto then ({ s with peer := logged s.peer env.sendtoNow }, -1, [])
  else (s, 0, [ep])

/-- What is returned, and where a datagram goes that leaves the host. -/
def peerSend (s : TxState) (env : SendEnv) : TxState × ℤ × List Sockaddr :=
  let (s, fd) := peerTxSocket s env
  let ep := s.peer.endpoint
  let epLen := s.peer.endpointLen
  match fd with
  | none => sendtoListener s ep epLen env
  | some sock =>
    match env.send with
    | .sent => (s, 0, sock.connected.toList)
    | .queueFull | .refused => (s, -1, [])
    | .failed =>
      let peer := logged { s.peer with txSendErrs := s.peer.txSendErrs + 1 } env.sendNow
      let peer := if peer.txFd = some sock then peerTxClose peer else peer
      sendtoListener { s with peer } ep epLen env

/-! ## Runs -/

/-- An address of either family. -/
abbrev InetAddr := {sa : Sockaddr // sa.family = afInet ∨ sa.family = afInet6}

def sockaddrLen (sa : Sockaddr) : ℕ := if sa.family = afInet then 16 else 28

inductive TxOp where
  | setEndpoint (src : InetAddr)
  | send (env : SendEnv)
  /-- The bind of another peer's socket was refused. -/
  | disabled

def setEndpoint (s : TxState) (src : Sockaddr) : TxState :=
  { s with
    peer := { s.peer with toPeerState := peerSetEndpoint s.peer.toPeerState src (sockaddrLen src) }
    last := some src }

/-- Where the datagrams of the step go. -/
def txStep (s : TxState) : TxOp → Option (TxState × List Sockaddr)
  | .setEndpoint src => some (setEndpoint s src.1, [])
  | .send env => some ((peerSend s env).1, (peerSend s env).2.2)
  | .disabled => some ({ s with gConnectedTx := false }, [])

end PolarWG
