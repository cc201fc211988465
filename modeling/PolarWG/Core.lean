import PolarWG.Session

/-!
# The client's data path

`wg_core.c` is the other implementation of a session: the same Noise layer and the same tries, its
own sockets and tunnel device. What it does with a data datagram, and how it makes one.
-/

namespace PolarWG

def wgBufMax : ℕ := 16384

/-- `sizeof(struct sockaddr_storage)`. -/
def sockaddrStorageLen : ℕ := 128

/-- What data datagrams read and write of `struct peer_state`. -/
structure PeerState where
  endpoint : Sockaddr
  endpointLen : ℕ
  rxPkts : ℕ
  rxBytes : ℕ
  rxDroppedAips : ℕ
deriving DecidableEq

structure TunnelCtx where
  noise : NoiseLocal
  aipsV4 : AipsTrie ℕ
  aipsV6 : AipsTrie ℕ
  peers : ℕ → PeerState

namespace TunnelCtx

def modPeer (c : TunnelCtx) (i : ℕ) (f : PeerState → PeerState) : TunnelCtx :=
  { c with peers := Function.update c.peers i (f (c.peers i)) }

end TunnelCtx

/-- By family, port and address only. -/
def sockaddrSame (a : Sockaddr) (alen : ℕ) (b : Sockaddr) (blen : ℕ) : Bool :=
  if alen = 0 ∨ blen = 0 ∨ a.family ≠ b.family then false
  else if a.family = afInet ∨ a.family = afInet6 then a.port = b.port ∧ a.addr = b.addr
  else false

def peerSetEndpoint (peer : PeerState) (src : Sockaddr) (srcLen : ℕ) : PeerState :=
  if srcLen = 0 ∨ sockaddrStorageLen < srcLen then peer
  else if sockaddrSame peer.endpoint peer.endpointLen src srcLen then peer
  else { peer with endpoint := src, endpointLen := srcLen }

def aipsLookupInnerSrc (c : TunnelCtx) (inner : Bytes) : Option ℕ :=
  match inner with
  | [] => none
  | b :: _ =>
    let ver := b >>> 4
    if ver = 4 then if inner.length < 20 then none else aipsLookup c.aipsV4 (inner.drop 12)
    else if ver = 6 then if inner.length < 40 then none else aipsLookup c.aipsV6 (inner.drop 8)
    else none

/-- The peer that authenticated the packet and the inner packet, empty for a keepalive; nothing
where the source returns `-1`. -/
def wgDecap (p : Prims) (l : NoiseLocal) (bytes : Bytes) (outCap : ℕ) (now : Moment) :
    NoiseLocal × Option (ℕ × Bytes) :=
  if bytes.length < 16 + 16 then (l, none)
  else if le32dec (slice 0 4 bytes) ≠ wgsPktData then (l, none)
  else
    match noiseKeypairLookup l (le32dec (slice 4 4 bytes)) with
    | (l, none) => (l, none)
    | (l, some k) =>
      match noiseKeypairDecrypt p l k (leDec (slice 8 8 bytes)) (bytes.drop 16)
          now.getsbinuptime with
      | none => (noiseKeypairPut l k, none)
      | some m =>
        let l := noiseKeypairReceivedWith l k
        let (l, r) := noiseKeypairRemote l k
        let i := (l.remotes r).rArg
        let l := noiseKeypairPut (noiseRemotePut l r) k
        if m.length = 0 then (l, some (i, []))
        else match innerIpLen m with
        | none => (l, none)
        | some ilen => if outCap < ilen then (l, none) else (l, some (i, m.take ilen))

/-- The datagram for a peer with remote `r`, if one is made, and whether it is sent; `sent` is what the
socket says. -/
def wgEncap (p : Prims) (l : NoiseLocal) (r endpointLen : ℕ) (plain : Bytes) (env : EncapEnv)
    (sent : Bool) : Int × NoiseLocal × Option Bytes :=
  if endpointLen = 0 then (-1, l, none)
  else
    let padded := (plain.length + 15) / 16 * 16
    let padded := if padded = 0 then 16 else padded
    if wgBufMax < padded then (-1, l, none)
    else
      let scratch := plain ++ zeros (padded - plain.length)
      match noiseKeypairCurrent l r env.check.getsbinuptime with
      | (l, none) => (-1, l, none)
      | (l, some k) =>
        match noiseKeypairNonceNext l k with
        | (l, none) => (-1, noiseKeypairPut l k, none)
        | (l, some nonce) =>
          if ¬ env.memory then (-1, noiseKeypairPut l k, none)
          else
            let (rIdx, m) := noiseKeypairEncrypt p l k nonce scratch
            let out := dataHdrBytes rIdx nonce ++ m
            if wgBufMax < out.length then (-1, noiseKeypairPut l k, none)
            else (if sent then 0 else -1, noiseKeypairPut l k, some out)

/-- What follows the decapsulation; `written` is whether the tunnel device takes the packet. -/
def rxDecapped (c : TunnelCtx) (src : Sockaddr) (srcLen : ℕ) (written : Bool) :
    Option (ℕ × Bytes) → TunnelCtx × Option Bytes
  | none => (c, none)
  | some (i, inner) =>
    if 0 < inner.length then
      if aipsLookupInnerSrc c inner ≠ some i then
        (c.modPeer i fun peer => { peer with rxDroppedAips := peer.rxDroppedAips + 1 }, none)
      else if written then
        (c.modPeer i fun peer => peerSetEndpoint
            { peer with rxPkts := peer.rxPkts + 1, rxBytes := peer.rxBytes + inner.length } src srcLen,
          some inner)
      else (c, none)
    else
      (c.modPeer i fun peer => peerSetEndpoint { peer with rxPkts := peer.rxPkts + 1 } src srcLen,
        none)

/-- The branch of data datagrams. -/
def rxHandleDatagram (p : Prims) (c : TunnelCtx) (bytes : Bytes) (src : Sockaddr) (srcLen : ℕ)
    (now : Moment) (written : Bool) : TunnelCtx × Option Bytes :=
  let (l, packet) := wgDecap p c.noise bytes wgBufMax now
  rxDecapped { c with noise := l } src srcLen written packet

end PolarWG
