import PolarWG.Cookie

/-!
# The session

`wg_session.c`: the peers, the data path, the handshake handlers and the timers. A peer pointer is
a slot number. The three callbacks are installed; what they are called with is the list a call
returns, in order, less the log lines, which nothing reads.
-/

namespace PolarWG

def rekeyTimeoutSec : ℤ := 5
def rekeyAfterTimeSec : ℤ := 120
def maxHandshakeAttempts : ℕ := 18
def wgsMaxAllowedCidrs : ℕ := 16
def wgsMaxIfaceAddrs : ℕ := 4
def wgsMaxPeers : ℕ := 8

structure WgsAllowedCidr where
  family : ℕ
  addr : Bytes
  prefixLen : ℕ
deriving DecidableEq

structure WgsIfaceAddr where
  family : ℕ
  addrStr : Text
  prefixLen : ℤ
deriving DecidableEq

structure WgsPeer where
  active : Bool
  pubkey : Bytes
  psk : Bytes
  hasPsk : Bool
  hasEndpoint : Bool
  endpointHost : Text
  endpointPort : ℕ
  endpoint : Sockaddr
  endpointLen : ℕ
  allowed : List WgsAllowedCidr
  pkSec : ℤ
  remote : Option ℕ
  cookie : CookieMaker
  cookieInited : Bool
  hsPending : Bool
  hsSentAt : ℤ
  hsLocalIdx : UInt32
  hsAttempts : ℕ
  keypairBirth : ℤ
  lastAuthdTx : ℤ
  txPkts : ℕ
  txBytes : ℕ
  rxPkts : ℕ
  rxBytes : ℕ
  rxDroppedAips : ℕ

/-- A slot of zero bytes. -/
def WgsPeer.blank : WgsPeer where
  active := false
  pubkey := zeros 32
  psk := zeros 32
  hasPsk := false
  hasEndpoint := false
  endpointHost := []
  endpointPort := 0
  endpoint := .unspec
  endpointLen := 0
  allowed := []
  pkSec := 0
  remote := none
  cookie := .blank
  cookieInited := false
  hsPending := false
  hsSentAt := 0
  hsLocalIdx := 0
  hsAttempts := 0
  keypairBirth := 0
  lastAuthdTx := 0
  txPkts := 0
  txBytes := 0
  rxPkts := 0
  rxBytes := 0
  rxDroppedAips := 0

structure WgSession where
  privateKey : Bytes
  listenPort : ℕ
  ifAddrs : List WgsIfaceAddr
  peers : ℕ → WgsPeer
  nPeers : ℕ
  noise : NoiseLocal
  checker : CookieChecker
  aipsV4 : AipsTrie ℕ
  aipsV6 : AipsTrie ℕ

inductive Upcall where
  | sendUdp (bytes : Bytes) (dst : Sockaddr) (dstLen : ℕ)
  | deliverIp (bytes : Bytes)
deriving DecidableEq

namespace WgSession

def modPeer (s : WgSession) (i : ℕ) (f : WgsPeer → WgsPeer) : WgSession :=
  { s with peers := Function.update s.peers i (f (s.peers i)) }

def setNoise (s : WgSession) (l : NoiseLocal) : WgSession := { s with noise := l }

end WgSession

/-! ## Wire formats -/

def wgsPktInitiation : UInt32 := 1
def wgsPktResponse : UInt32 := 2
def wgsPktCookie : UInt32 := 3
def wgsPktData : UInt32 := 4

/-- `struct wgs_pkt_initiation` without its MACs. -/
def initiationBytes (sIdx : UInt32) (msg : Initiation) : Bytes :=
  le32enc wgsPktInitiation ++ le32enc sIdx ++ msg.ue ++ msg.es ++ msg.ets

/-- `struct wgs_pkt_response` without its MACs. -/
def responseBytes (sIdx rIdx : UInt32) (msg : Response) : Bytes :=
  le32enc wgsPktResponse ++ le32enc sIdx ++ le32enc rIdx ++ msg.ue ++ msg.en

def CookieMacs.bytes (m : CookieMacs) : Bytes := m.mac1 ++ m.mac2

def dataHdrBytes (rIdx : UInt32) (nonce : ℕ) : Bytes :=
  le32enc wgsPktData ++ le32enc rIdx ++ leEnc 8 nonce

def initiationOf (b : Bytes) : Initiation := ⟨slice 8 32 b, slice 40 48 b, slice 88 28 b⟩

def responseOf (b : Bytes) : Response := ⟨slice 12 32 b, slice 44 16 b⟩

def macsOf (off : ℕ) (b : Bytes) : CookieMacs := ⟨slice off 16 b, slice (off + 16) 16 b⟩

/-! ## Data path -/

def sessionLookupDst (s : WgSession) (inner : Bytes) : Option ℕ :=
  match inner with
  | [] => none
  | b :: _ =>
    let ver := b >>> 4
    if ver = 4 ∧ 20 ≤ inner.length then aipsLookup s.aipsV4 (inner.drop 16)
    else if ver = 6 ∧ 40 ≤ inner.length then aipsLookup s.aipsV6 (inner.drop 24)
    else none

def sessionLookupInnerSrc (s : WgSession) (inner : Bytes) : Option ℕ :=
  match inner with
  | [] => none
  | b :: _ =>
    let ver := b >>> 4
    if ver = 4 ∧ 20 ≤ inner.length then aipsLookup s.aipsV4 (inner.drop 12)
    else if ver = 6 ∧ 40 ≤ inner.length then aipsLookup s.aipsV6 (inner.drop 8)
    else none

/-- What an encapsulation reads: the clock its keypair's age is measured by, the clock once the
datagram is sent, and whether there is memory for the packet and its encryption. -/
structure EncapEnv where
  check : Moment
  sent : Moment
  memory : Bool

/-- A peer slot in use has a remote, so the source does not look for a null one. -/
def wgsEncap (p : Prims) (s : WgSession) (i : ℕ) (plain : Bytes) (env : EncapEnv) :
    Int × WgSession × List Upcall :=
  let peer := s.peers i
  if peer.endpointLen = 0 then (-1, s, [])
  else
    let padded := (plain.length + 15) / 16 * 16
    let padded := if padded = 0 then 16 else padded
    if 2000 < padded then (-1, s, [])
    else
      let scratch := plain ++ zeros (padded - plain.length)
      match peer.remote with
      | none => (-1, s, [])
      | some r =>
        match noiseKeypairCurrent s.noise r env.check.getsbinuptime with
        | (l, none) => (-1, s.setNoise l, [])
        | (l, some k) =>
          match noiseKeypairNonceNext l k with
          | (l, none) => (-1, s.setNoise (noiseKeypairPut l k), [])
          | (l, some nonce) =>
            if ¬ env.memory then (-1, s.setNoise (noiseKeypairPut l k), [])
            else
              let (rIdx, m) := noiseKeypairEncrypt p l k nonce scratch
              let out := dataHdrBytes rIdx nonce ++ m
              if 2048 < out.length then (-1, s.setNoise (noiseKeypairPut l k), [])
              else
                let s := s.modPeer i fun peer =>
                  { peer with
                    txPkts := peer.txPkts + 1
                    txBytes := peer.txBytes + plain.length
                    lastAuthdTx := env.sent.time }
                (0, s.setNoise (noiseKeypairPut l k),
                  [.sendUdp out peer.endpoint peer.endpointLen])

/-- The inner packet's own length, or nothing where it returns `-1`. -/
def innerIpLen (m : Bytes) : Option ℕ :=
  match m with
  | [] => none
  | b :: _ =>
    let ver := b >>> 4
    if ver = 4 then
      if m.length < 20 then none
      else
        let total := (m.getD 2 0).toNat <<< 8 ||| (m.getD 3 0).toNat
        if total < 20 ∨ m.length < total then none else some total
    else if ver = 6 then
      if m.length < 40 then none
      else
        let payload := (m.getD 4 0).toNat <<< 8 ||| (m.getD 5 0).toNat
        if m.length < payload + 40 then none else some (payload + 40)
    else none

/-- What follows the decryption of a data packet from the peer in slot `i`: roaming, the keepalive
and spoofing tests, delivery. -/
def wgsDeliver (s : WgSession) (i : ℕ) (m : Bytes) (src : Sockaddr) (srcLen : ℕ) :
    Int × WgSession × List Upcall :=
  let s := s.modPeer i fun peer => { peer with endpoint := src, endpointLen := srcLen }
  if m.length = 0 then
    (0, s.modPeer i fun peer => { peer with rxPkts := peer.rxPkts + 1 }, [])
  else match innerIpLen m with
  | none => (-1, s, [])
  | some ilen =>
    if sessionLookupInnerSrc s (m.take ilen) ≠ some i then
      (0, s.modPeer i fun peer => { peer with rxDroppedAips := peer.rxDroppedAips + 1 }, [])
    else
      (0, s.modPeer i fun peer =>
          { peer with rxPkts := peer.rxPkts + 1, rxBytes := peer.rxBytes + ilen },
        [.deliverIp (m.take ilen)])

/-- The window check is not called: what decrypts is taken in. -/
def wgsHandleData (p : Prims) (s : WgSession) (bytes : Bytes) (src : Sockaddr) (srcLen : ℕ)
    (now : Moment) : Int × WgSession × List Upcall :=
  if bytes.length < 16 + 16 then (-1, s, [])
  else
    match noiseKeypairLookup s.noise (le32dec (slice 4 4 bytes)) with
    | (l, none) => (-1, s.setNoise l, [])
    | (l, some k) =>
      let nonce := leDec (slice 8 8 bytes)
      match noiseKeypairDecrypt p l k nonce (bytes.drop 16) now.getsbinuptime with
      | none => (-1, s.setNoise (noiseKeypairPut l k), [])
      | some m =>
        let l := noiseKeypairReceivedWith l k
        let (l, r) := noiseKeypairRemote l k
        let i := (l.remotes r).rArg
        let l := noiseRemotePut l r
        wgsDeliver (s.setNoise (noiseKeypairPut l k)) i m src srcLen

/-! ## Handshakes -/

def wgsSendInitiation (p : Prims) (s : WgSession) (i : ℕ) (env : InitiationEnv) :
    Option (Int × WgSession × List Upcall) :=
  let peer := s.peers i
  if ¬ peer.hasEndpoint ∨ peer.endpointLen = 0 then some (-1, s, [])
  else match peer.remote with
  | none => some (-1, s, [])
  | some r =>
    (noiseCreateInitiation p s.noise r env).map fun
    | (l, none) => (-1, s.setNoise l, [])
    | (l, some (sIdx, msg)) =>
      let pkt := initiationBytes sIdx msg
      let (cookie, macs) := cookieMakerMac p peer.cookie pkt env.mac
      let s := s.modPeer i fun peer =>
        { peer with
          cookie
          hsPending := true
          hsSentAt := env.sent.time
          hsLocalIdx := sIdx
          hsAttempts := peer.hsAttempts + 1
          lastAuthdTx := env.sent.time }
      (0, s.setNoise l, [.sendUdp (pkt ++ macs.bytes) peer.endpoint peer.endpointLen])

/-- The slot of the peer whose pending handshake has this index. -/
def findPending (s : WgSession) (rIdx : UInt32) : Option ℕ :=
  (List.range s.nPeers).find? fun i =>
    (s.peers i).active ∧ (s.peers i).hsPending ∧ (s.peers i).hsLocalIdx = rIdx

def wgsHandleInitiation (p : Prims) (s : WgSession) (bytes : Bytes) (src : Sockaddr)
    (srcLen : ℕ) (env : ResponderEnv) : Option (Int × WgSession × List Upcall) :=
  if bytes.length < 148 then some (-1, s, [])
  else if ¬ cookieCheckerValidateMacs p s.checker (macsOf 116 bytes) (bytes.take 116) then
    some (-1, s, [])
  else
    (noiseConsumeInitiation p s.noise (le32dec (slice 4 4 bytes)) (initiationOf bytes) env).map fun
    | (l, none) => (-1, s.setNoise l, [])
    | (l, some r) =>
      let i := (l.remotes r).rArg
      match noiseCreateResponse p l r env with
      | (l, none) => (-1, s.setNoise (noiseRemotePut l r), [])
      | (l, some (sIdx, rIdx, msg)) =>
        let pkt := responseBytes sIdx rIdx msg
        let (cookie, macs) := cookieMakerMac p (s.peers i).cookie pkt env.mac
        let s := s.modPeer i fun peer =>
          { peer with
            cookie
            endpoint := src
            endpointLen := srcLen
            keypairBirth := env.finish.time
            lastAuthdTx := env.finish.time
            hsPending := false }
        (0, s.setNoise (noiseRemotePut l r), [.sendUdp (pkt ++ macs.bytes) src srcLen])

structure ConsumeEnv where
  birth : Moment
  finish : Moment

def wgsHandleResponse (p : Prims) (s : WgSession) (bytes : Bytes) (env : ConsumeEnv) :
    Int × WgSession × List Upcall :=
  if bytes.length < 92 then (-1, s, [])
  else match findPending s (le32dec (slice 8 4 bytes)) with
  | none => (-1, s, [])
  | some i =>
    match noiseConsumeResponse p s.noise (le32dec (slice 4 4 bytes)) (le32dec (slice 8 4 bytes))
        (responseOf bytes) env.birth with
    | (l, none) => (-1, s.setNoise l, [])
    | (l, some r) =>
      if some r ≠ (s.peers i).remote then (-1, s.setNoise (noiseRemotePut l r), [])
      else
        let s := s.modPeer i fun peer =>
          { peer with hsPending := false, hsAttempts := 0, keypairBirth := env.finish.time }
        (0, s.setNoise (noiseRemotePut l r), [])

def wgsHandleCookie (p : Prims) (s : WgSession) (bytes : Bytes) (now : Moment) :
    Int × WgSession × List Upcall :=
  if bytes.length < 64 then (-1, s, [])
  else match findPending s (le32dec (slice 4 4 bytes)) with
  | none => (-1, s, [])
  | some i =>
    let cookie := (cookieMakerConsumePayload p (s.peers i).cookie (slice 8 24 bytes)
      (slice 32 32 bytes) now).1
    (0, s.modPeer i fun peer => { peer with cookie }, [])

/-! ## Entry points -/

/-- What taking in a datagram reads, whatever its type. -/
structure UdpEnv where
  data : Moment
  initiation : ResponderEnv
  response : ConsumeEnv
  cookie : Moment

def wgSessionHandleUdp (p : Prims) (s : WgSession) (bytes : Bytes) (src : Sockaddr) (srcLen : ℕ)
    (env : UdpEnv) : Option (Int × WgSession × List Upcall) :=
  if bytes.length < 4 then some (-1, s, [])
  else
    let t := le32dec (bytes.take 4)
    if t = wgsPktData then some (wgsHandleData p s bytes src srcLen env.data)
    else if t = wgsPktInitiation then wgsHandleInitiation p s bytes src srcLen env.initiation
    else if t = wgsPktResponse then some (wgsHandleResponse p s bytes env.response)
    else if t = wgsPktCookie then some (wgsHandleCookie p s bytes env.cookie)
    else some (-1, s, [])

def wgSessionHandleTun (p : Prims) (s : WgSession) (bytes : Bytes) (env : EncapEnv) :
    Int × WgSession × List Upcall :=
  if bytes.length < 1 then (-1, s, [])
  else match sessionLookupDst s bytes with
  | none => (-1, s, [])
  | some i => wgsEncap p s i bytes env

/-- What a tick reads: the clock at its start, and for each slot what an initiation and a keepalive
would read. -/
structure TickEnv where
  now : Moment
  initiation : ℕ → InitiationEnv
  keepalive : ℕ → EncapEnv

/-- The retransmission of a tick. The stamp moves before the attempt. -/
def tickRetransmit (p : Prims) (env : TickEnv) (s : WgSession) (i : ℕ) :
    Option (WgSession × List Upcall) :=
  let now := env.now.time
  if (s.peers i).hsPending ∧ now - (s.peers i).hsSentAt ≥ rekeyTimeoutSec then
    let s := s.modPeer i fun peer => { peer with hsSentAt := now }
    if (s.peers i).hsAttempts ≥ maxHandshakeAttempts then
      some (s.modPeer i fun peer => { peer with hsPending := false, hsAttempts := 0 }, [])
    else (wgsSendInitiation p s i (env.initiation i)).map Prod.snd
  else some (s, [])

def tickRekey (p : Prims) (env : TickEnv) (s : WgSession) (i : ℕ) :
    Option (WgSession × List Upcall) :=
  if ¬ (s.peers i).hsPending ∧ (s.peers i).keypairBirth ≠ 0 ∧ (s.peers i).endpointLen > 0
      ∧ env.now.time - (s.peers i).keypairBirth ≥ rekeyAfterTimeSec then
    let s := s.modPeer i fun peer => { peer with hsAttempts := 0 }
    (wgsSendInitiation p s i (env.initiation i)).map Prod.snd
  else some (s, [])

def tickKeepalive (p : Prims) (env : TickEnv) (s : WgSession) (i : ℕ) : WgSession × List Upcall :=
  if (s.peers i).pkSec > 0 ∧ (s.peers i).lastAuthdTx > 0
      ∧ env.now.time - (s.peers i).lastAuthdTx ≥ (s.peers i).pkSec then
    (wgsEncap p s i [] (env.keepalive i)).2
  else (s, [])

/-- One slot of a tick. An initiation that a retransmission sends keeps the handshake pending, so
the slot sends at most one. -/
def tickPeer (p : Prims) (env : TickEnv) (s : WgSession) (i : ℕ) :
    Option (WgSession × List Upcall) :=
  if (s.peers i).active then do
    let (s, out₁) ← tickRetransmit p env s i
    let (s, out₂) ← tickRekey p env s i
    let (s, out₃) := tickKeepalive p env s i
    pure (s, out₁ ++ out₂ ++ out₃)
  else some (s, [])

/-- The slots of a tick from the first to the last. -/
def tickFrom (p : Prims) (env : TickEnv) : List ℕ → WgSession → Option (WgSession × List Upcall)
  | [], s => some (s, [])
  | i :: is, s => do
    let (s, out) ← tickPeer p env s i
    let (s, out') ← tickFrom p env is s
    pure (s, out ++ out')

def wgSessionTick (p : Prims) (s : WgSession) (env : TickEnv) :
    Option (WgSession × List Upcall) :=
  tickFrom p env (List.range s.nPeers) s

/-- The first peer that is active and has an endpoint it can send to. -/
def kickTarget (s : WgSession) : Option ℕ :=
  (List.range s.nPeers).find? fun i =>
    (s.peers i).active ∧ (s.peers i).hasEndpoint ∧ 0 < (s.peers i).endpointLen

def wgSessionKick (p : Prims) (s : WgSession) (env : InitiationEnv) :
    Option (Int × WgSession × List Upcall) :=
  match kickTarget s with
  | none => some (-1, s, [])
  | some i => wgsSendInitiation p s i env

end PolarWG
