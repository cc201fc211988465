import PolarWG.CoreConfig

/-!
# The client's event loop

The tunnel state machine of `wg_core.c`, with everything on one thread, as it runs by default: what
`main` sets up from the configuration, a tick, a packet from the tunnel device and a datagram of any
type. A send goes to the peer's endpoint; which socket it leaves by is in `ConnectedTx`, and whether
the system takes it is an argument here.
-/

namespace PolarWG

def rekeyJitterMaxSec : ℤ := 30

/-- The other fields of `struct peer_state` that the loop reads and writes. -/
structure TunnelPeer extends PeerState where
  pubkey : Bytes
  hasEndpoint : Bool
  allowed : List WgsAllowedCidr
  pkSec : ℤ
  remote : ℕ
  cookie : CookieMaker
  hsPending : Bool
  hsSentAt : ℤ
  hsLocalIdx : UInt32
  hsAttempts : ℕ
  keypairBirth : ℤ
  lastAuthdTx : ℤ
  rekeyJitterSec : ℤ
  txPkts : ℕ
  txBytes : ℕ

/-- `tunnel_ctx` and what it points at. -/
structure Tunnel where
  noise : NoiseLocal
  cookieChecker : CookieChecker
  aipsV4 : AipsTrie ℕ
  aipsV6 : AipsTrie ℕ
  peers : ℕ → TunnelPeer
  nPeers : ℕ

namespace Tunnel

def modPeer (t : Tunnel) (i : ℕ) (f : TunnelPeer → TunnelPeer) : Tunnel :=
  { t with peers := Function.update t.peers i (f (t.peers i)) }

def setNoise (t : Tunnel) (l : NoiseLocal) : Tunnel := { t with noise := l }

/-- The part that data datagrams are handled with. -/
def ctx (t : Tunnel) : TunnelCtx where
  noise := t.noise
  aipsV4 := t.aipsV4
  aipsV6 := t.aipsV6
  peers := fun i => (t.peers i).toPeerState

def setCtx (t : Tunnel) (c : TunnelCtx) : Tunnel :=
  { t with
    noise := c.noise
    peers := fun i => { t.peers i with toPeerState := c.peers i } }

variable (p : Prims)

/-! ## Handshakes -/

/-- What sending an initiation reads, and whether the socket takes it. -/
structure DialEnv where
  initiation : InitiationEnv
  sent : Bool

/-- The index of the initiation, if it is sent. -/
def sendInitiation (t : Tunnel) (i : ℕ) (env : DialEnv) :
    Option (Tunnel × Option UInt32 × List Upcall) :=
  if (t.peers i).endpointLen = 0 then some (t, none, [])
  else
    (noiseCreateInitiation p t.noise (t.peers i).remote env.initiation).map fun
    | (l, none) => (t.setNoise l, none, [])
    | (l, some (sIdx, msg)) =>
      let pkt := initiationBytes sIdx msg
      let (cookie, macs) := cookieMakerMac p (t.peers i).cookie pkt env.initiation.mac
      let t := (t.modPeer i fun peer => { peer with cookie }).setNoise l
      if env.sent then
        (t, some sIdx,
          [.sendUdp (pkt ++ macs.bytes) (t.peers i).endpoint (t.peers i).endpointLen])
      else (t, none, [])

def tunnelSendInitiation (t : Tunnel) (i : ℕ) (now : ℤ) (env : DialEnv) :
    Option (Int × Tunnel × List Upcall) :=
  (sendInitiation p t i env).map fun
  | (t, none, out) => (-1, t, out)
  | (t, some sIdx, out) =>
    (0, t.modPeer i fun peer =>
      { peer with
        hsPending := true
        hsSentAt := now
        hsLocalIdx := sIdx
        hsAttempts := peer.hsAttempts + 1
        lastAuthdTx := now }, out)

/-- The jitter is drawn anew, below `rekeyJitterMaxSec`. -/
def peerStampKeypair (peer : TunnelPeer) (now jitter : ℤ) : TunnelPeer :=
  { peer with
    keypairBirth := now, lastAuthdTx := now, rekeyJitterSec := jitter % rekeyJitterMaxSec }

/-- What taking in an initiation reads: what the Noise layer does, whether the response is sent, and
the jitter drawn. -/
structure AnswerEnv where
  responder : ResponderEnv
  sent : Bool
  jitter : ℤ

/-- A pending handshake of the peer's own stays pending. -/
def tunnelConsumeInitiation (t : Tunnel) (bytes : Bytes) (src : Sockaddr) (srcLen : ℕ)
    (env : AnswerEnv) : Option (Int × Tunnel × List Upcall) :=
  if bytes.length < 148 then some (-1, t, [])
  else if ¬ cookieCheckerValidateMacs p t.cookieChecker (macsOf 116 bytes) (bytes.take 116) then
    some (-1, t, [])
  else
    (noiseConsumeInitiation p t.noise (le32dec (slice 4 4 bytes)) (initiationOf bytes)
        env.responder).map fun
    | (l, none) => (-1, t.setNoise l, [])
    | (l, some r) =>
      let i := (l.remotes r).rArg
      match noiseCreateResponse p l r env.responder with
      | (l, none) => (-1, t.setNoise (noiseRemotePut l r), [])
      | (l, some (sIdx, rIdx, msg)) =>
        let pkt := responseBytes sIdx rIdx msg
        let (cookie, macs) := cookieMakerMac p (t.peers i).cookie pkt env.responder.mac
        let t := (t.modPeer i fun peer => { peer with cookie }).setNoise (noiseRemotePut l r)
        if ¬ env.sent then (-1, t, [])
        else
          (0, t.modPeer i fun peer =>
            peerStampKeypair { peer with toPeerState := peerSetEndpoint peer.toPeerState src srcLen }
              env.responder.finish.time env.jitter, [.sendUdp (pkt ++ macs.bytes) src srcLen])

/-- The first peer that waits for a response under this index. -/
def findPeerPendingResponse (t : Tunnel) (rIdx : UInt32) : Option ℕ :=
  (List.range t.nPeers).find? fun i => (t.peers i).hsPending ∧ (t.peers i).hsLocalIdx = rIdx

def tunnelConsumeResponse (t : Tunnel) (bytes : Bytes) (env : ConsumeEnv) (jitter : ℤ) :
    Int × Tunnel × List Upcall :=
  if bytes.length < 92 then (-1, t, [])
  else match findPeerPendingResponse t (le32dec (slice 8 4 bytes)) with
  | none => (-1, t, [])
  | some i =>
    match noiseConsumeResponse p t.noise (le32dec (slice 4 4 bytes)) (le32dec (slice 8 4 bytes))
        (responseOf bytes) env.birth with
    | (l, none) => (-1, t.setNoise l, [])
    | (l, some r) =>
      if r ≠ (t.peers i).remote then (-1, t.setNoise (noiseRemotePut l r), [])
      else
        (0, (t.modPeer i fun peer =>
          peerStampKeypair { peer with hsPending := false, hsAttempts := 0 } env.finish.time
            jitter).setNoise (noiseRemotePut l r), [])

/-! ## Ticks -/

/-- One datagram for the peer, if it is made and sent. -/
def encap (t : Tunnel) (i : ℕ) (plain : Bytes) (env : EncapEnv) (sent : Bool) :
    Int × Tunnel × List Upcall :=
  let peer := t.peers i
  let (rc, l, out) := wgEncap p t.noise peer.remote peer.endpointLen plain env sent
  (rc, t.setNoise l,
    if rc = 0 then out.toList.map fun data => .sendUdp data peer.endpoint peer.endpointLen else [])

/-- What one peer's part of a tick reads. An initiation that is made leaves no place for another. -/
structure TickPeerEnv where
  dial : DialEnv
  keepalive : EncapEnv
  keepaliveSent : Bool

/-- The stamp moves before the attempt. -/
def tickRetransmit (t : Tunnel) (i : ℕ) (now : ℤ) (env : DialEnv) :
    Option (Tunnel × List Upcall) :=
  if (t.peers i).hsPending ∧ now - (t.peers i).hsSentAt ≥ rekeyTimeoutSec then
    let t := t.modPeer i fun peer => { peer with hsSentAt := now }
    if (t.peers i).hsAttempts ≥ maxHandshakeAttempts then
      some (t.modPeer i fun peer => { peer with hsPending := false, hsAttempts := 0 }, [])
    else (tunnelSendInitiation p t i now env).map Prod.snd
  else some (t, [])

def needsInitial (peer : TunnelPeer) : Bool := peer.keypairBirth = 0

def needsRekey (peer : TunnelPeer) (now : ℤ) : Bool :=
  peer.keypairBirth > 0 ∧ now - peer.keypairBirth ≥ rekeyAfterTimeSec + peer.rekeyJitterSec

/-- A configured endpoint is dialled without being asked. -/
def tickInitiate (t : Tunnel) (i : ℕ) (now : ℤ) (env : DialEnv) :
    Option (Tunnel × List Upcall) :=
  if ¬ (t.peers i).hsPending ∧ (t.peers i).hasEndpoint then
    if needsInitial (t.peers i) ∨ needsRekey (t.peers i) now then
      let t := t.modPeer i fun peer => { peer with hsAttempts := 0 }
      (tunnelSendInitiation p t i now env).map Prod.snd
    else some (t, [])
  else some (t, [])

def tickKeepalive (t : Tunnel) (i : ℕ) (now : ℤ) (env : EncapEnv) (sent : Bool) :
    Tunnel × List Upcall :=
  if (t.peers i).pkSec > 0 ∧ (t.peers i).lastAuthdTx > 0
      ∧ now - (t.peers i).lastAuthdTx ≥ (t.peers i).pkSec then
    match encap p t i [] env sent with
    | (rc, t, out) =>
      (if rc = 0 then t.modPeer i fun peer => { peer with lastAuthdTx := now } else t, out)
  else (t, [])

def tunnelTickPeer (t : Tunnel) (i : ℕ) (now : ℤ) (env : TickPeerEnv) :
    Option (Tunnel × List Upcall) := do
  let (t, out₁) ← tickRetransmit p t i now env.dial
  let (t, out₂) ← tickInitiate p t i now env.dial
  let (t, out₃) := tickKeepalive p t i now env.keepalive env.keepaliveSent
  pure (t, out₁ ++ out₂ ++ out₃)

def tickFrom (now : ℤ) (env : ℕ → TickPeerEnv) : List ℕ → Tunnel → Option (Tunnel × List Upcall)
  | [], t => some (t, [])
  | i :: is, t => do
    let (t, out) ← tunnelTickPeer p t i now (env i)
    let (t, out') ← tickFrom now env is t
    pure (t, out ++ out')

def tunnelTick (t : Tunnel) (now : ℤ) (env : ℕ → TickPeerEnv) : Option (Tunnel × List Upcall) :=
  tickFrom p now env (List.range t.nPeers) t

/-! ## Packets and datagrams -/

/-- The peer that the trie of the inner destination names. -/
def lookupInnerDst (t : Tunnel) (inner : Bytes) : Option ℕ :=
  match inner with
  | [] => none
  | b :: _ =>
    let ver := b >>> 4
    if ver = 4 ∧ 20 ≤ inner.length then aipsLookup t.aipsV4 (inner.drop 16)
    else if ver = 6 ∧ 40 ≤ inner.length then aipsLookup t.aipsV6 (inner.drop 24)
    else none

/-- Called with packets that are not empty. -/
def txHandlePacket (t : Tunnel) (inner : Bytes) (now : ℤ) (env : EncapEnv) (sent : Bool) :
    Tunnel × List Upcall :=
  match lookupInnerDst t inner with
  | none => (t, [])
  | some i =>
    match encap p t i inner env sent with
    | (rc, t, out) =>
      (if rc = 0 then
        t.modPeer i fun peer =>
          { peer with
            txPkts := peer.txPkts + 1, txBytes := peer.txBytes + inner.length, lastAuthdTx := now }
      else t, out)

/-- What taking in a datagram reads, whatever its type. -/
structure RxEnv where
  data : Moment
  written : Bool
  answer : AnswerEnv
  response : ConsumeEnv
  jitter : ℤ
  cookie : Moment

def rxCookie (t : Tunnel) (bytes : Bytes) (now : Moment) : Tunnel :=
  if bytes.length < 64 then t
  else match findPeerPendingResponse t (le32dec (slice 4 4 bytes)) with
  | none => t
  | some i => t.modPeer i fun peer =>
      { peer with
        cookie := (cookieMakerConsumePayload p peer.cookie (slice 8 24 bytes) (slice 32 32 bytes)
          now).1 }

def rxHandleDatagram (t : Tunnel) (bytes : Bytes) (src : Sockaddr) (srcLen : ℕ) (env : RxEnv) :
    Option (Tunnel × List Upcall) :=
  if bytes.length < 4 then some (t, [])
  else
    let type := le32dec (bytes.take 4)
    if type = wgsPktData then
      let (c, inner) := PolarWG.rxHandleDatagram p t.ctx bytes src srcLen env.data env.written
      some (t.setCtx c, inner.toList.map .deliverIp)
    else if type = wgsPktInitiation then
      (tunnelConsumeInitiation p t bytes src srcLen env.answer).map Prod.snd
    else if type = wgsPktResponse then
      some (tunnelConsumeResponse p t bytes env.response env.jitter).2
    else if type = wgsPktCookie then some (rxCookie p t bytes env.cookie, [])
    else some (t, [])

/-! ## Runs -/

inductive Event where
  | tick (now : ℤ) (env : ℕ → TickPeerEnv)
  | tx (inner : Bytes) (now : ℤ) (env : EncapEnv) (sent : Bool)
  | rx (bytes : Bytes) (src : Sockaddr) (srcLen : ℕ) (env : RxEnv)

def step (t : Tunnel) : Event → Option (Tunnel × List Upcall)
  | .tick now env => tunnelTick p t now env
  | .tx inner now env sent => some (txHandlePacket p t inner now env sent)
  | .rx bytes src srcLen env => rxHandleDatagram p t bytes src srcLen env

/-- A configured peer with its remote; its other fields are zero. -/
def openPeer (peer : ConfigPeer) (remote : ℕ) : TunnelPeer where
  endpoint := .unspec
  endpointLen := 0
  rxPkts := 0
  rxBytes := 0
  rxDroppedAips := 0
  pubkey := peer.pubkey
  hasEndpoint := peer.hasEndpoint
  allowed := peer.allowed
  pkSec := peer.pkSec
  remote := remote
  cookie := cookieMakerInit p peer.pubkey
  hsPending := false
  hsSentAt := 0
  hsLocalIdx := 0
  hsAttempts := 0
  keypairBirth := 0
  lastAuthdTx := 0
  rekeyJitterSec := 0
  txPkts := 0
  txBytes := 0

/-- The loop of `main` over the peers, at one of them. -/
def mainPeer (resolve : Resolver) (cfg : ClientConfig) (t : Tunnel) (i : ℕ) : Option Tunnel :=
  let peer := cfg.peers i
  let (l, r) := noiseRemoteAlloc p t.noise i peer.pubkey
  match noiseRemoteEnable l r with
  | (_, false) => none
  | (l, true) =>
    let t := (t.modPeer i fun _ => openPeer p peer r).setNoise l
    if peer.hasEndpoint then
      (resolve peer.endpointHost peer.endpointPort).map fun (endpoint, endpointLen) =>
        t.modPeer i fun peer => { peer with endpoint, endpointLen }
    else some t

def insertAllowed (i : ℕ) (t : Tunnel) (c : WgsAllowedCidr) : Tunnel :=
  if c.family = afInet then { t with aipsV4 := (aipsInsert t.aipsV4 c.addr c.prefixLen i).2 }
  else { t with aipsV6 := (aipsInsert t.aipsV6 c.addr c.prefixLen i).2 }

/-- `main` with `--tunnel`, up to `run_tunnel`. -/
def start (resolve : Resolver) (cfg : ClientConfig) : Option Tunnel := do
  let t : Tunnel := {
    noise := noiseLocalPrivate p noiseLocalAlloc cfg.privateKey
    cookieChecker := ⟨zeros 32⟩
    aipsV4 := aipsInit 32
    aipsV6 := aipsInit 128
    peers := fun _ => openPeer p .blank 0
    nPeers := cfg.nPeers }
  let t ← (List.range cfg.nPeers).foldlM (mainPeer p resolve cfg) t
  let t := if t.noise.lHasIdentity then
    { t with cookieChecker := cookieCheckerUpdate p t.noise.lPublic } else t
  pure ((List.range cfg.nPeers).foldl
    (fun t i => (t.peers i).allowed.foldl (insertAllowed i) t) t)

/-- The client has been started with this configuration. -/
def Started (cfg : ClientConfig) (t : Tunnel) : Prop := ∃ resolve, start p resolve cfg = some t

end Tunnel

end PolarWG
