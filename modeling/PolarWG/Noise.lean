import PolarWG.Prims

/-!
# The Noise layer

`wg_noise.c`. Remotes and keypairs are heap objects named by allocation number and counted by
reference; an object whose count is zero has been freed, and its memory is not used again. The
hash tables are lists with the newest entry first: a bucket is the sublist of one hash value, so a
walk of the bucket meets the same entries with a given key in the same order. Locks are left out,
and allocation succeeds.

What a call reads from outside (clocks, random secrets, index draws) is an argument of it.
-/

namespace PolarWG

def rekeyTimeout : ℤ := 5
def rejectAfterTime : ℤ := 180
/-- Nanoseconds: fifty initiations a second. -/
def rejectInterval : ℤ := 20000000
def timerReset : ℤ := sbt1S * -(rekeyTimeout + 1)
def counterWindowSize : ℕ := 8192 - 64
def rejectAfterMessages : ℕ := 2 ^ 64 - 1 - counterWindowSize - 1
def maxRemotePerLocal : ℕ := 2 ^ 20

def noiseHandshakeName : Bytes := ascii "Noise_IKpsk2_25519_ChaChaPoly_BLAKE2s"
def noiseIdentifierName : Bytes := ascii "WireGuard v1 zx2c4 Jason@zx2c4.com"

inductive NoiseHandshakeState where
  | dead
  | initiator
  | responder
deriving DecidableEq

structure NoiseHandshake where
  hsE : Bytes
  hsHash : Bytes
  hsCk : Bytes
deriving DecidableEq

def NoiseHandshake.blank : NoiseHandshake := ⟨zeros 32, zeros 32, zeros 32⟩

/-- `r_arg` is the number of the peer slot it points at. -/
structure NoiseRemote where
  iLocalIndex : UInt32
  iRemoteIndex : UInt32
  rEntryInserted : Bool
  rPublic : Bytes
  rHandshake : NoiseHandshake
  rHandshakeState : NoiseHandshakeState
  rLastSent : ℤ
  rLastInitRecv : ℤ
  rTimestamp : Bytes
  rPsk : Bytes
  rSs : Bytes
  rRefcnt : ℕ
  rArg : ℕ
  rNext : Option ℕ
  rCurrent : Option ℕ
  rPrevious : Option ℕ

structure NoiseKeypair where
  iLocalIndex : UInt32
  iRemoteIndex : UInt32
  kpRefcnt : ℕ
  kpCanSend : Bool
  kpIsInitiator : Bool
  kpBirthdate : ℤ
  kpRemote : ℕ
  kpSend : Bytes
  kpRecv : Bytes
  kpNonceSend : ℕ
  kpNonceRecv : ℕ

inductive NoiseIndex where
  | remote (r : ℕ)
  | keypair (k : ℕ)
deriving DecidableEq

structure NoiseLocal where
  lHasIdentity : Bool
  lPublic : Bytes
  lPrivate : Bytes
  lRemoteHash : List ℕ
  lIndexHash : List NoiseIndex
  remotes : ℕ → NoiseRemote
  nRemotes : ℕ
  keypairs : ℕ → NoiseKeypair
  nKeypairs : ℕ

def NoiseRemote.blank : NoiseRemote where
  iLocalIndex := 0
  iRemoteIndex := 0
  rEntryInserted := false
  rPublic := zeros 32
  rHandshake := .blank
  rHandshakeState := .dead
  rLastSent := 0
  rLastInitRecv := 0
  rTimestamp := zeros 12
  rPsk := zeros 32
  rSs := zeros 32
  rRefcnt := 0
  rArg := 0
  rNext := none
  rCurrent := none
  rPrevious := none

def NoiseKeypair.blank : NoiseKeypair where
  iLocalIndex := 0
  iRemoteIndex := 0
  kpRefcnt := 0
  kpCanSend := false
  kpIsInitiator := false
  kpBirthdate := 0
  kpRemote := 0
  kpSend := zeros 32
  kpRecv := zeros 32
  kpNonceSend := 0
  kpNonceRecv := 0

namespace NoiseLocal

def modRemote (l : NoiseLocal) (r : ℕ) (f : NoiseRemote → NoiseRemote) : NoiseLocal :=
  { l with remotes := Function.update l.remotes r (f (l.remotes r)) }

def modKeypair (l : NoiseLocal) (k : ℕ) (f : NoiseKeypair → NoiseKeypair) : NoiseLocal :=
  { l with keypairs := Function.update l.keypairs k (f (l.keypairs k)) }

def iLocalIndex (l : NoiseLocal) : NoiseIndex → UInt32
  | .remote r => (l.remotes r).iLocalIndex
  | .keypair k => (l.keypairs k).iLocalIndex

end NoiseLocal

/-! ## Hashing and mixing -/

section Mix

variable (p : Prims)

def hmac (input key : Bytes) : Bytes :=
  let xKey := if 64 < key.length then p.blake2s 32 [] key else key
  let xKey := xKey ++ zeros (64 - xKey.length)
  let iHash := p.blake2s 32 [] (xKey.map (· ^^^ 0x36) ++ input)
  p.blake2s 32 [] (xKey.map (· ^^^ 0x5c) ++ iHash)

/-- The three keys derived from `x` and the chaining key, 32 bytes each. -/
def noiseKdf (x ck : Bytes) : Bytes × Bytes × Bytes :=
  let sec := hmac p x ck
  let a := hmac p [1] sec
  let b := hmac p (a ++ [2]) sec
  (a, b, hmac p (b ++ [3]) sec)

/-- The new chaining key and the key. -/
def noiseMixDh (ck secret pub : Bytes) : Option (Bytes × Bytes) :=
  (p.curve25519 secret pub).map fun dh =>
    let (a, b, _) := noiseKdf p dh ck
    (a, b)

def noiseMixSs (ck ss : Bytes) : Option (Bytes × Bytes) :=
  if ss = zeros 32 then none
  else
    let (a, b, _) := noiseKdf p ss ck
    some (a, b)

def noiseMixHash (hash src : Bytes) : Bytes := p.blake2s 32 [] (hash ++ src)

/-- The new chaining key, hash and key. -/
def noiseMixPsk (ck hash psk : Bytes) : Bytes × Bytes × Bytes :=
  let (a, tmp, key) := noiseKdf p psk ck
  (a, noiseMixHash p hash tmp, key)

/-- The chaining key and hash a handshake with the responder `s` starts from. -/
def noiseParamInit (s : Bytes) : Bytes × Bytes :=
  let ck := p.blake2s 32 [] noiseHandshakeName
  (ck, noiseMixHash p (p.blake2s 32 [] (ck ++ noiseIdentifierName)) s)

def noiseMsgEncrypt (src key hash : Bytes) : Bytes × Bytes :=
  let dst := p.chacha20poly1305Encrypt key 0 hash src
  (dst, noiseMixHash p hash dst)

def noiseMsgDecrypt (src key hash : Bytes) : Option (Bytes × Bytes) :=
  (p.chacha20poly1305Decrypt key 0 hash src).map fun dst => (dst, noiseMixHash p hash src)

/-- The new chaining key and hash. -/
def noiseMsgEphemeral (ck hash src : Bytes) : Bytes × Bytes :=
  ((noiseKdf p src ck).1, noiseMixHash p hash src)

end Mix

def noiseTai64nNow (m : Moment) : Bytes :=
  let sec := 0x400000000000000a + m.realtime / 1000000000
  let nsec := m.realtime % 1000000000
  beEnc 8 sec ++ beEnc 4 (nsec / 2 ^ 24 * 2 ^ 24)

/-- `memcmp(a, b, n) > 0`. -/
def bytesGt : Bytes → Bytes → Bool
  | a :: as, b :: bs => b < a || (a == b && bytesGt as bs)
  | _, _ => false

def noiseTimerExpired (now timer sec nsec : ℤ) : Bool := timer + sec * sbt1S + nsec < now

/-! ## Reference counts -/

def noiseRemoteRef (l : NoiseLocal) (r : ℕ) : NoiseLocal :=
  l.modRemote r fun v => { v with rRefcnt := v.rRefcnt + 1 }

def noiseRemotePut (l : NoiseLocal) (r : ℕ) : NoiseLocal :=
  l.modRemote r fun v => { v with rRefcnt := v.rRefcnt - 1 }

/-- A reference, unless the remote has been freed. -/
def noiseRemoteAcquire (l : NoiseLocal) (r : ℕ) : NoiseLocal × Option ℕ :=
  if (l.remotes r).rRefcnt = 0 then (l, none) else (noiseRemoteRef l r, some r)

def noiseKeypairRef (l : NoiseLocal) (k : ℕ) : NoiseLocal :=
  l.modKeypair k fun v => { v with kpRefcnt := v.kpRefcnt + 1 }

/-- The last reference to a keypair takes its reference to the remote with it. -/
def noiseKeypairPut (l : NoiseLocal) (k : ℕ) : NoiseLocal :=
  let l' := l.modKeypair k fun v => { v with kpRefcnt := v.kpRefcnt - 1 }
  if (l.keypairs k).kpRefcnt = 1 then noiseRemotePut l' (l.keypairs k).kpRemote else l'

def noiseKeypairDrop (l : NoiseLocal) : Option ℕ → NoiseLocal
  | none => l
  | some k => noiseKeypairPut { l with lIndexHash := l.lIndexHash.erase (.keypair k) } k

/-! ## Local identity and remotes -/

def noiseLocalAlloc : NoiseLocal where
  lHasIdentity := false
  lPublic := zeros 32
  lPrivate := zeros 32
  lRemoteHash := []
  lIndexHash := []
  remotes := fun _ => .blank
  nRemotes := 0
  keypairs := fun _ => .blank
  nKeypairs := 0

/-- Called before any remote exists, so it has none to expire. -/
def noiseLocalPrivate (p : Prims) (l : NoiseLocal) (secret : Bytes) : NoiseLocal :=
  let secret := curve25519ClampSecret secret
  match p.curve25519GeneratePublic secret with
  | none => { l with lPrivate := secret, lHasIdentity := false }
  | some pub => { l with lPrivate := secret, lPublic := pub, lHasIdentity := true }

def noisePrecomputeSs (p : Prims) (l : NoiseLocal) (pub : Bytes) : Bytes :=
  if l.lHasIdentity then (p.curve25519 l.lPrivate pub).getD (zeros 32) else zeros 32

def noiseRemoteAlloc (p : Prims) (l : NoiseLocal) (arg : ℕ) (pub : Bytes) : NoiseLocal × ℕ :=
  let v := { NoiseRemote.blank with
    rPublic := pub, rLastSent := timerReset, rLastInitRecv := timerReset,
    rSs := noisePrecomputeSs p l pub, rRefcnt := 1, rArg := arg }
  ({ l with remotes := Function.update l.remotes l.nRemotes v, nRemotes := l.nRemotes + 1 },
    l.nRemotes)

/-- Whether it succeeds: the table has room. -/
def noiseRemoteEnable (l : NoiseLocal) (r : ℕ) : NoiseLocal × Bool :=
  if (l.remotes r).rEntryInserted then (l, true)
  else if l.lRemoteHash.length < maxRemotePerLocal then
    ({ l.modRemote r fun v => { v with rEntryInserted := true } with
      lRemoteHash := r :: l.lRemoteHash }, true)
  else (l, false)

def noiseRemoteDisable (l : NoiseLocal) (r : ℕ) : NoiseLocal :=
  if (l.remotes r).rEntryInserted then
    { l.modRemote r fun v => { v with rEntryInserted := false } with
      lRemoteHash := l.lRemoteHash.erase r }
  else l

/-- With a reference. -/
def noiseRemoteLookup (l : NoiseLocal) (pub : Bytes) : NoiseLocal × Option ℕ :=
  match l.lRemoteHash.find? fun r => (l.remotes r).rPublic = pub with
  | none => (l, none)
  | some r => noiseRemoteAcquire l r

def noiseRemoteSetPsk (l : NoiseLocal) (r : ℕ) (psk : Bytes) : NoiseLocal :=
  l.modRemote r fun v => { v with rPsk := psk }

/-! ## The index table -/

def noiseRemoteIndexRemove (l : NoiseLocal) (r : ℕ) : NoiseLocal :=
  if (l.remotes r).rHandshakeState = .dead then l
  else { l.modRemote r fun v => { v with rHandshakeState := .dead } with
    lIndexHash := l.lIndexHash.erase (.remote r) }

/-- Draws until an index is not in the table; `none` if none of the draws ends the loop. -/
def assignId (used draws : List UInt32) : Option UInt32 := draws.find? (· ∉ used)

def noiseRemoteIndexInsert (l : NoiseLocal) (r : ℕ) (draws : List UInt32) : Option NoiseLocal :=
  let l := noiseRemoteIndexRemove l r
  (assignId (l.lIndexHash.map l.iLocalIndex) draws).map fun i =>
    { l.modRemote r fun v => { v with iLocalIndex := i } with
      lIndexHash := .remote r :: l.lIndexHash }

/-- With a reference to the remote. -/
def noiseRemoteIndexLookup (l : NoiseLocal) (idx : UInt32) (lookupKeypair : Bool) :
    NoiseLocal × Option ℕ :=
  match l.lIndexHash.find? fun i => l.iLocalIndex i = idx with
  | none => (l, none)
  | some (.remote r) => noiseRemoteAcquire l r
  | some (.keypair k) =>
    if lookupKeypair then noiseRemoteAcquire l (l.keypairs k).kpRemote else (l, none)

def NoiseIndex.isKeypair : NoiseIndex → Bool
  | .remote _ => false
  | .keypair _ => true

/-! ## Keypairs -/

/-- With a reference. -/
def noiseKeypairLookup (l : NoiseLocal) (idx : UInt32) : NoiseLocal × Option ℕ :=
  match l.lIndexHash.find? fun i => l.iLocalIndex i = idx ∧ i.isKeypair with
  | some (.keypair k) =>
    if (l.keypairs k).kpRefcnt = 0 then (l, none) else (noiseKeypairRef l k, some k)
  | _ => (l, none)

/-- With a reference. An expired keypair stops sending. -/
def noiseKeypairCurrent (l : NoiseLocal) (r : ℕ) (now : ℤ) : NoiseLocal × Option ℕ :=
  match (l.remotes r).rCurrent with
  | none => (l, none)
  | some k =>
    if (l.keypairs k).kpCanSend then
      if noiseTimerExpired now (l.keypairs k).kpBirthdate rejectAfterTime 0 then
        (l.modKeypair k fun v => { v with kpCanSend := false }, none)
      else if (l.keypairs k).kpRefcnt = 0 then (l, none)
      else (noiseKeypairRef l k, some k)
    else (l, none)

/-- Moves the remote's keypairs up when the next one is confirmed. -/
def noiseKeypairReceivedWith (l : NoiseLocal) (k : ℕ) : NoiseLocal :=
  let r := (l.keypairs k).kpRemote
  if (l.remotes r).rNext = some k then
    let old := (l.remotes r).rPrevious
    let l := l.modRemote r fun v => { v with rPrevious := v.rCurrent }
    let l := noiseKeypairDrop l old
    l.modRemote r fun v => { v with rCurrent := some k, rNext := none }
  else l

/-- The counter to send with. The last one allowed stops the keypair. -/
def noiseKeypairNonceNext (l : NoiseLocal) (k : ℕ) : NoiseLocal × Option ℕ :=
  if (l.keypairs k).kpCanSend then
    let send := (l.keypairs k).kpNonceSend
    let l := l.modKeypair k fun v => { v with kpNonceSend := send + 1 }
    if send < rejectAfterMessages then (l, some send)
    else (l.modKeypair k fun v => { v with kpCanSend := false }, none)
  else (l, none)

/-- The remote index and the ciphertext with its tag. -/
def noiseKeypairEncrypt (p : Prims) (l : NoiseLocal) (k nonce : ℕ) (m : Bytes) : UInt32 × Bytes :=
  ((l.keypairs k).iRemoteIndex, p.chacha20poly1305Encrypt (l.keypairs k).kpSend nonce [] m)

/-- Does not look at the counter's window; its caller has to. -/
def noiseKeypairDecrypt (p : Prims) (l : NoiseLocal) (k nonce : ℕ) (m : Bytes) (now : ℤ) :
    Option Bytes :=
  if rejectAfterMessages ≤ (l.keypairs k).kpNonceRecv
      ∨ noiseTimerExpired now (l.keypairs k).kpBirthdate rejectAfterTime 0 then none
  else if m.length < 16 then none
  else p.chacha20poly1305Decrypt (l.keypairs k).kpRecv nonce [] m

/-- With a reference to the remote. -/
def noiseKeypairRemote (l : NoiseLocal) (k : ℕ) : NoiseLocal × ℕ :=
  (noiseRemoteRef l (l.keypairs k).kpRemote, (l.keypairs k).kpRemote)

def noiseAddNewKeypair (l : NoiseLocal) (r k : ℕ) : NoiseLocal :=
  let next := (l.remotes r).rNext
  let current := (l.remotes r).rCurrent
  let previous := (l.remotes r).rPrevious
  let l :=
    if (l.keypairs k).kpIsInitiator then
      let l := if next.isSome then
          let l := l.modRemote r fun v => { v with rNext := none, rPrevious := next }
          noiseKeypairDrop l current
        else l.modRemote r fun v => { v with rPrevious := current }
      let l := noiseKeypairDrop l previous
      l.modRemote r fun v => { v with rCurrent := some k }
    else
      let l := l.modRemote r fun v => { v with rNext := some k }
      let l := noiseKeypairDrop l next
      let l := l.modRemote r fun v => { v with rPrevious := none }
      noiseKeypairDrop l previous
  -- the keypair takes over the remote's place and index in the table
  let v := l.remotes r
  let l := l.modKeypair k fun kp =>
    { kp with iLocalIndex := v.iLocalIndex, iRemoteIndex := v.iRemoteIndex }
  { l.modRemote r fun v => { v with rHandshakeState := .dead, rHandshake := .blank } with
    lIndexHash := l.lIndexHash.map fun i => if i = .remote r then .keypair k else i }

def noiseBeginSession (p : Prims) (l : NoiseLocal) (r : ℕ) (birth : ℤ) : NoiseLocal :=
  let v := l.remotes r
  let (a, b, _) := noiseKdf p [] v.rHandshake.hsCk
  let isInitiator := decide (v.rHandshakeState = .initiator)
  let kp := { NoiseKeypair.blank with
    kpRefcnt := 1, kpCanSend := true, kpIsInitiator := isInitiator, kpBirthdate := birth,
    kpRemote := r, kpSend := if isInitiator then a else b, kpRecv := if isInitiator then b else a }
  let k := l.nKeypairs
  let l := noiseRemoteRef l r
  noiseAddNewKeypair
    { l with keypairs := Function.update l.keypairs k kp, nKeypairs := k + 1 } r k

/-! ## Handshake messages -/

/-- What a new initiation reads: the clock in its own timer check, the secret, the clock of its
timestamp, the index draws, the clock when it is stamped, the clock of its cookie and the clock
once it is sent. -/
structure InitiationEnv where
  check : Moment
  secret : Bytes
  tai : Moment
  draws : List UInt32
  stamp : Moment
  mac : Moment
  sent : Moment

structure Initiation where
  ue : Bytes
  es : Bytes
  ets : Bytes

/-- The cryptography of an initiation to `v`: the handshake it leaves behind, where it fails too. -/
def noiseInitiationMessage (p : Prims) (l : NoiseLocal) (v : NoiseRemote) (secret ts : Bytes) :
    NoiseHandshake × Option Initiation :=
  let (ck, hash) := noiseParamInit p v.rPublic
  match p.curve25519GeneratePublic secret with
  | none => (⟨secret, hash, ck⟩, none)
  | some ue =>
    let (ck, hash) := noiseMsgEphemeral p ck hash ue
    match noiseMixDh p ck secret v.rPublic with
    | none => (⟨secret, hash, ck⟩, none)
    | some (ck, key) =>
      let (es, hash) := noiseMsgEncrypt p l.lPublic key hash
      match noiseMixSs p ck v.rSs with
      | none => (⟨secret, hash, ck⟩, none)
      | some (ck, key) =>
        let (ets, hash) := noiseMsgEncrypt p ts key hash
        (⟨secret, hash, ck⟩, some ⟨ue, es, ets⟩)

/-- The index and the message, or nothing where it returns an error. -/
def noiseCreateInitiation (p : Prims) (l : NoiseLocal) (r : ℕ) (env : InitiationEnv) :
    Option (NoiseLocal × Option (UInt32 × Initiation)) :=
  if ¬ l.lHasIdentity then some (l, none)
  else if ¬ noiseTimerExpired env.check.getsbinuptime (l.remotes r).rLastSent rekeyTimeout 0 then
    some (l, none)
  else
    let (hs, msg) :=
      noiseInitiationMessage p l (l.remotes r) env.secret (noiseTai64nNow env.tai)
    let l := l.modRemote r fun v => { v with rHandshake := hs }
    match msg with
    | none => some (l, none)
    | some msg =>
      (noiseRemoteIndexInsert l r env.draws).map fun l =>
        let l := l.modRemote r fun v =>
          { v with rHandshakeState := .initiator, rLastSent := env.stamp.getsbinuptime }
        (l, some ((l.remotes r).iLocalIndex, msg))

/-- What answering an initiation reads: the two clocks of the flood check, the index draws, the
secret, the keypair's birth, the response's stamp, the clock of its cookie and the clock at the
end. -/
structure ResponderEnv where
  flood : Moment
  floodStamp : Moment
  draws : List UInt32
  secret : Bytes
  birth : Moment
  stamp : Moment
  mac : Moment
  finish : Moment

/-- The sender's static key an initiation carries, with the handshake so far. -/
def noiseReadStatic (p : Prims) (l : NoiseLocal) (ue es : Bytes) :
    Option (Bytes × Bytes × Bytes) := do
  let (ck, hash) := noiseParamInit p l.lPublic
  let (ck, hash) := noiseMsgEphemeral p ck hash ue
  let (ck, key) ← noiseMixDh p ck l.lPrivate ue
  let (rPublic, hash) ← noiseMsgDecrypt p es key hash
  pure (rPublic, ck, hash)

/-- The timestamp of an initiation from `v`, with the handshake to respond to. -/
def noiseReadTimestamp (p : Prims) (v : NoiseRemote) (ue ets ck hash : Bytes) :
    Option (Bytes × NoiseHandshake) := do
  let (ck, key) ← noiseMixSs p ck v.rSs
  let (timestamp, hash) ← noiseMsgDecrypt p ets key hash
  pure (timestamp, ⟨ue, hash, ck⟩)

/-- The remote the initiation came from, with a reference. -/
def noiseConsumeInitiation (p : Prims) (l : NoiseLocal) (sIdx : UInt32) (msg : Initiation)
    (env : ResponderEnv) : Option (NoiseLocal × Option ℕ) :=
  if ¬ l.lHasIdentity then some (l, none)
  else match noiseReadStatic p l msg.ue msg.es with
  | none => some (l, none)
  | some (rPublic, ck, hash) =>
    match noiseRemoteLookup l rPublic with
    | (l, none) => some (l, none)
    | (l, some r) =>
      match noiseReadTimestamp p (l.remotes r) msg.ue msg.ets ck hash with
      | none => some (noiseRemotePut l r, none)
      | some (timestamp, hs) =>
        if ¬ bytesGt timestamp (l.remotes r).rTimestamp then some (noiseRemotePut l r, none)
        else
          let l := l.modRemote r fun v => { v with rTimestamp := timestamp }
          if ¬ noiseTimerExpired env.flood.getsbinuptime (l.remotes r).rLastInitRecv 0
              rejectInterval then some (noiseRemotePut l r, none)
          else
            let l := l.modRemote r fun v =>
              { v with rLastInitRecv := env.floodStamp.getsbinuptime }
            (noiseRemoteIndexInsert l r env.draws).map fun l =>
              let l := l.modRemote r fun v =>
                { v with iRemoteIndex := sIdx, rHandshakeState := .responder, rHandshake := hs }
              (noiseRemotePut (noiseRemoteRef l r) r, some r)

structure Response where
  ue : Bytes
  en : Bytes

/-- The cryptography of a response to the handshake `v` is in. -/
def noiseResponseMessage (p : Prims) (v : NoiseRemote) (secret : Bytes) :
    NoiseHandshake × Option Response :=
  let hs := v.rHandshake
  match p.curve25519GeneratePublic secret with
  | none => (hs, none)
  | some ue =>
    let (ck, hash) := noiseMsgEphemeral p hs.hsCk hs.hsHash ue
    match noiseMixDh p ck secret hs.hsE with
    | none => (⟨hs.hsE, hash, ck⟩, none)
    | some (ck, _) =>
      match noiseMixDh p ck secret v.rPublic with
      | none => (⟨hs.hsE, hash, ck⟩, none)
      | some (ck, _) =>
        let (ck, hash, key) := noiseMixPsk p ck hash v.rPsk
        let (en, hash) := noiseMsgEncrypt p [] key hash
        (⟨hs.hsE, hash, ck⟩, some ⟨ue, en⟩)

/-- Our index, theirs and the message, or nothing where it returns an error. -/
def noiseCreateResponse (p : Prims) (l : NoiseLocal) (r : ℕ) (env : ResponderEnv) :
    NoiseLocal × Option (UInt32 × UInt32 × Response) :=
  if (l.remotes r).rHandshakeState ≠ .responder then (l, none)
  else
    let (hs, msg) := noiseResponseMessage p (l.remotes r) env.secret
    let l := l.modRemote r fun v => { v with rHandshake := hs }
    match msg with
    | none => (l, none)
    | some msg =>
      let l := noiseBeginSession p l r env.birth.getsbinuptime
      let l := l.modRemote r fun v => { v with rLastSent := env.stamp.getsbinuptime }
      (l, some ((l.remotes r).iLocalIndex, (l.remotes r).iRemoteIndex, msg))

/-- The handshake a response to `v`'s initiation completes. -/
def noiseReadResponse (p : Prims) (l : NoiseLocal) (v : NoiseRemote) (msg : Response) :
    Option NoiseHandshake := do
  let hs := v.rHandshake
  let (ck, hash) := noiseMsgEphemeral p hs.hsCk hs.hsHash msg.ue
  let (ck, _) ← noiseMixDh p ck hs.hsE msg.ue
  let (ck, _) ← noiseMixDh p ck l.lPrivate msg.ue
  let (ck, hash, key) := noiseMixPsk p ck hash v.rPsk
  let (_, hash) ← noiseMsgDecrypt p msg.en key hash
  pure ⟨hs.hsE, hash, ck⟩

/-- The remote the response is from, with a reference. The state is read twice in the source,
with nothing in between that could change it. -/
def noiseConsumeResponse (p : Prims) (l : NoiseLocal) (sIdx rIdx : UInt32) (msg : Response)
    (birth : Moment) : NoiseLocal × Option ℕ :=
  match noiseRemoteIndexLookup l rIdx false with
  | (l, none) => (l, none)
  | (l, some r) =>
    if ¬ l.lHasIdentity ∨ (l.remotes r).rHandshakeState ≠ .initiator then
      (noiseRemotePut l r, none)
    else match noiseReadResponse p l (l.remotes r) msg with
    | none => (noiseRemotePut l r, none)
    | some hs =>
      if (l.remotes r).iLocalIndex ≠ rIdx then (noiseRemotePut l r, none)
      else
        let l := l.modRemote r fun v => { v with rHandshake := hs, iRemoteIndex := sIdx }
        let l := noiseBeginSession p l r birth.getsbinuptime
        (noiseRemotePut (noiseRemoteRef l r) r, some r)

end PolarWG
