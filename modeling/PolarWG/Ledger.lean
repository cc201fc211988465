import PolarWG.Session

/-!
# The ledger

What a session keeps about its tunnels, without what it keeps to free and find them. A remote is
linked while its handshake is not dead and a keypair while it is in one of its remote's places, so
there is no index table here, and no reference is counted. An active slot is a tenancy.
`LedgerStep` is what can happen to a ledger.
-/

namespace PolarWG

structure RemoteLink where
  pub : Bytes
  ss : Bytes
  arg : ℕ
  enabled : Bool
  state : NoiseHandshakeState
  idx : UInt32
  lastSent : ℤ
  next : Option ℕ
  current : Option ℕ
  previous : Option ℕ

structure KeypairLink where
  remote : ℕ
  idx : UInt32
  recv : Bytes
  born : ℤ
  received : ℕ

structure Tenant where
  remote : ℕ
  pubkey : Bytes
  pending : Bool
  hsIdx : UInt32
  attempts : ℕ
  birth : ℤ
  hasEndpoint : Bool
  endpointLen : ℕ

structure Links where
  hasIdentity : Bool
  priv : Bytes
  enabled : List ℕ
  remotes : ℕ → RemoteLink
  nRemotes : ℕ
  keypairs : ℕ → KeypairLink
  nKeypairs : ℕ

structure Ledger where
  links : Links
  tenants : ℕ → Option Tenant

/-! ## Keypairs of a remote -/

namespace RemoteLink

def slots (v : RemoteLink) : List ℕ := v.next.toList ++ v.current.toList ++ v.previous.toList

/-- The places after the remote answered an initiation with `k`. -/
def answered (k : ℕ) (v : RemoteLink) : RemoteLink :=
  { v with state := .dead, next := some k, previous := none }

/-- The places after a response completed the remote's own initiation with `k`. -/
def completed (k : ℕ) (v : RemoteLink) : RemoteLink :=
  { v with
    state := .dead, next := none, current := some k
    previous := if v.next.isSome then v.next else v.current }

/-- The places after the first packet under the next keypair, `k`. -/
def confirmed (k : ℕ) (v : RemoteLink) : RemoteLink :=
  { v with next := none, current := some k, previous := v.current }

/-- The remote of a new peer in slot `arg`. -/
def fresh (arg : ℕ) (pub ss : Bytes) : RemoteLink where
  pub := pub
  ss := ss
  arg := arg
  enabled := true
  state := .dead
  idx := 0
  lastSent := timerReset
  next := none
  current := none
  previous := none

end RemoteLink

namespace Links

def precomputeSs (p : Prims) (l : Links) (pub : Bytes) : Bytes :=
  if l.hasIdentity then (p.curve25519 l.priv pub).getD (zeros 32) else zeros 32

def modRemote (l : Links) (r : ℕ) (f : RemoteLink → RemoteLink) : Links :=
  { l with remotes := Function.update l.remotes r (f (l.remotes r)) }

def pushKeypair (l : Links) (k : KeypairLink) : Links :=
  { l with keypairs := Function.update l.keypairs l.nKeypairs k, nKeypairs := l.nKeypairs + 1 }

def pushRemote (l : Links) (v : RemoteLink) : Links :=
  { l with
    remotes := Function.update l.remotes l.nRemotes v, nRemotes := l.nRemotes + 1
    enabled := l.nRemotes :: l.enabled }

/-- A remote out of service: no initiation finds it any more. -/
def disable (l : Links) (r : ℕ) : Links :=
  { l.modRemote r fun v => { v with enabled := false } with enabled := l.enabled.erase r }

end Links

namespace Ledger

def modRemote (L : Ledger) (r : ℕ) (f : RemoteLink → RemoteLink) : Ledger :=
  { L with links := L.links.modRemote r f }

def modTenant (L : Ledger) (i : ℕ) (f : Tenant → Tenant) : Ledger :=
  { L with tenants := Function.update L.tenants i ((L.tenants i).map f) }

/-- A new keypair of `r`, under the index of its handshake. -/
def pushKeypair (L : Ledger) (r : ℕ) (recv : Bytes) (born : ℤ) : Ledger :=
  { L with links := L.links.pushKeypair ⟨r, (L.links.remotes r).idx, recv, born, 0⟩ }

def remote (L : Ledger) (r : ℕ) : RemoteLink := L.links.remotes r

def keypair (L : Ledger) (k : ℕ) : KeypairLink := L.links.keypairs k

/-- A new tenant of slot `i`, with a new remote. -/
def enlist (p : Prims) (L : Ledger) (i : ℕ) (pub : Bytes) : Ledger where
  links := L.links.pushRemote (.fresh i pub (L.links.precomputeSs p pub))
  tenants := Function.update L.tenants i (some ⟨L.links.nRemotes, pub, false, 0, 0, 0, false, 0⟩)

/-- The slot's remote is out of service; its handshake and keypairs stay as they are. -/
def remove (L : Ledger) (i r : ℕ) : Ledger where
  links := L.links.disable r
  tenants := Function.update L.tenants i none

/-- Some slot is this remote's. -/
def Owned (L : Ledger) (r : ℕ) : Prop := ∃ i t, L.tenants i = some t ∧ t.remote = r

/-- The entries an index table has to hold. -/
def Linked (L : Ledger) : NoiseIndex → Prop
  | .remote r => (L.remote r).state ≠ .dead
  | .keypair k => k ∈ (L.remote (L.keypair k).remote).slots

end Ledger

/-! ## Steps -/

/-- What a run is allowed to do: which removals and additions, which endpoints set at run time,
which peers it gives up, whether answering can fail half way, what the wall clock can read when a
handshake ends and how long a datagram's source address can be. -/
structure LedgerRules where
  removal : Ledger → ℕ → Prop
  addition : Ledger → ℕ → Prop
  endpoint : Ledger → ℕ → Prop
  quit : Ledger → ℕ → Prop
  stall : Prop
  clock : ℤ → Prop
  source : ℕ → Prop

inductive LedgerStep (p : Prims) (rules : LedgerRules) (L : Ledger) : Ledger → Prop where
  /-- An initiation to the peer in slot `i` goes out. -/
  | dial {i : ℕ} {t : Tenant} (idx : UInt32) (sent : ℤ) (ht : L.tenants i = some t) :
    LedgerStep p rules L
      ((L.modRemote t.remote fun v => { v with state := .initiator, idx, lastSent := sent }).modTenant
        i fun t => { t with pending := true, hsIdx := idx, attempts := t.attempts + 1 })
  /-- An initiation is taken in and the response to it is not made. -/
  | stall {i : ℕ} {t : Tenant} (idx : UInt32) (ht : L.tenants i = some t) (hr : rules.stall) :
    LedgerStep p rules L (L.modRemote t.remote fun v => { v with state := .responder, idx })
  /-- An initiation is taken in and answered. -/
  | answer {i : ℕ} {t : Tenant} (idx : UInt32) (sent : ℤ) (recv : Bytes) (born birth : ℤ) (len : ℕ)
      (ht : L.tenants i = some t) (hc : rules.clock birth) :
    LedgerStep p rules L
      (((L.modRemote t.remote fun v =>
            ({ v with idx, lastSent := sent }).answered L.links.nKeypairs).pushKeypair
          t.remote recv born).modTenant
        i fun t => { t with pending := false, birth, endpointLen := len })
  /-- A response completes the handshake of the slot it was found for. -/
  | complete {i : ℕ} {t : Tenant} (recv : Bytes) (born birth : ℤ)
      (ht : L.tenants i = some t) (hp : t.pending)
      (hs : (L.remote t.remote).state = .initiator) (hc : rules.clock birth) :
    LedgerStep p rules L
      (((L.modRemote t.remote (·.completed L.links.nKeypairs)).pushKeypair
          t.remote recv born).modTenant
        i fun t => { t with pending := false, attempts := 0, birth })
  /-- A response completes the handshake of another remote than that of the slot it was found
  for, although no other remote is linked under its index. -/
  | mismatch {i r : ℕ} {t : Tenant} (recv : Bytes) (born : ℤ)
      (ht : L.tenants i = some t) (hp : t.pending) (hi : (L.remote r).idx = t.hsIdx)
      (hs : (L.remote r).state = .initiator) (hr : r ≠ t.remote)
      (hl : L.Owned r ∨ (L.remote r).slots ≠ [])
      (hu : ∀ r', (L.remote r').state ≠ .dead → (L.remote r').idx = t.hsIdx → r' = r) :
    LedgerStep p rules L ((L.modRemote r (·.completed L.links.nKeypairs)).pushKeypair r recv born)
  /-- The first packet under a remote's next keypair. -/
  | confirm {r k : ℕ} (hk : (L.remote r).next = some k) :
    LedgerStep p rules L (L.modRemote r (·.confirmed k))
  /-- A packet under a linked keypair sets the endpoint of the slot its remote points at. -/
  | roam {k : ℕ} (len : ℕ) (hk : L.Linked (.keypair k)) (hl : rules.source len) :
    LedgerStep p rules L
      (L.modTenant (L.remote (L.keypair k).remote).arg fun t => { t with endpointLen := len })
  | giveUp {i : ℕ} {t : Tenant} (ht : L.tenants i = some t) (ha : maxHandshakeAttempts ≤ t.attempts)
      (hr : rules.quit L i) :
    LedgerStep p rules L (L.modTenant i fun t => { t with pending := false, attempts := 0 })
  /-- A rekey counts its attempts anew. -/
  | restart {i : ℕ} {t : Tenant} (ht : L.tenants i = some t) (hp : ¬ t.pending) (hb : t.birth ≠ 0) :
    LedgerStep p rules L (L.modTenant i fun t => { t with attempts := 0 })
  | enlist {i : ℕ} (pub : Bytes) (ht : L.tenants i = none) (hi : i < wgsMaxPeers)
      (hr : rules.addition L i) :
    LedgerStep p rules L (L.enlist p i pub)
  | setEndpoint {i : ℕ} {t : Tenant} (len : ℕ+) (ht : L.tenants i = some t)
      (hr : rules.endpoint L i) :
    LedgerStep p rules L
      (L.modTenant i fun t => { t with hasEndpoint := true, endpointLen := (len : ℕ) })
  | remove {i : ℕ} {t : Tenant} (ht : L.tenants i = some t) (hr : rules.removal L i) :
    LedgerStep p rules L (L.remove i t.remote)

/-! ## The ledger of a session -/

def NoiseRemote.link (v : NoiseRemote) : RemoteLink where
  pub := v.rPublic
  ss := v.rSs
  arg := v.rArg
  enabled := v.rEntryInserted
  state := v.rHandshakeState
  idx := v.iLocalIndex
  lastSent := v.rLastSent
  next := v.rNext
  current := v.rCurrent
  previous := v.rPrevious

def NoiseKeypair.link (v : NoiseKeypair) : KeypairLink where
  remote := v.kpRemote
  idx := v.iLocalIndex
  recv := v.kpRecv
  born := v.kpBirthdate
  received := v.kpNonceRecv

def NoiseLocal.links (l : NoiseLocal) : Links where
  hasIdentity := l.lHasIdentity
  priv := l.lPrivate
  enabled := l.lRemoteHash
  remotes := fun r => (l.remotes r).link
  nRemotes := l.nRemotes
  keypairs := fun k => (l.keypairs k).link
  nKeypairs := l.nKeypairs

def WgsPeer.tenant (peer : WgsPeer) : Option Tenant :=
  if peer.active then
    peer.remote.map fun remote =>
      ⟨remote, peer.pubkey, peer.hsPending, peer.hsLocalIdx, peer.hsAttempts, peer.keypairBirth,
        peer.hasEndpoint, peer.endpointLen⟩
  else none

def WgSession.ledger (s : WgSession) : Ledger := ⟨s.noise.links, fun i => (s.peers i).tenant⟩

end PolarWG
