import PolarWG.Hosts
import PolarWG.Proofs.GiveUp

/-!
# Addresses at a host

A host knows one address. Where every call concerns peers at that address only, datagrams keep their
addresses, and what a peer has as its own was configured or heard of from the peer.
-/

namespace PolarWG

open Specimen

variable {p : Prims} {s s' : WgSession} {a : Adapter}

def WgsPeer.address (peer : WgsPeer) : Option Sockaddr :=
  if peer.endpointLen = 0 then none else some peer.endpoint

/-- The peer whose initiation a datagram is. -/
def initiator (p : Prims) (s : WgSession) (bytes : Bytes) (env : ResponderEnv) : Option ℕ :=
  if bytes.length < 148 then none
  else if ¬ cookieCheckerValidateMacs p s.checker (macsOf 116 bytes) (bytes.take 116) then none
  else match noiseConsumeInitiation p s.noise (le32dec (slice 4 4 bytes)) (initiationOf bytes) env with
  | some (l, some r) => some (l.remotes r).rArg
  | _ => none

/-- The peer that a data packet or an initiation authenticates. -/
def heardFrom (p : Prims) (s : WgSession) (bytes : Bytes) (env : UdpEnv) : Option ℕ :=
  if le32dec (bytes.take 4) = wgsPktData then (opened p s.noise bytes env.data).map Prod.fst
  else if le32dec (bytes.take 4) = wgsPktInitiation then initiator p s bytes env.initiation
  else none

/-! ## What a call may send, and to whom -/

/-- The addresses stay, and everything is sent to this one. -/
structure SendsTo (s s' : WgSession) (dst : Option Sockaddr) (out : List Upcall) : Prop where
  addresses : ∀ i, (s'.peers i).address = (s.peers i).address
  sends : ∀ bytes d n, .sendUdp bytes d n ∈ out → dst = some d

variable {dst : Option Sockaddr} {out out' : List Upcall}

theorem SendsTo.refl (s : WgSession) (dst : Option Sockaddr) : SendsTo s s dst [] :=
  ⟨fun _ => rfl, fun _ _ _ h => absurd h List.not_mem_nil⟩

theorem SendsTo.trans {s'' : WgSession} (h : SendsTo s s' dst out) (h' : SendsTo s' s'' dst out') :
    SendsTo s s'' dst (out ++ out') where
  addresses i := (h'.addresses i).trans (h.addresses i)
  sends bytes d n hmem := (List.mem_append.mp hmem).elim (h.sends bytes d n) (h'.sends bytes d n)

theorem sendsTo_setNoise (s : WgSession) (l : NoiseLocal) (dst : Option Sockaddr) :
    SendsTo s (s.setNoise l) dst [] := ⟨fun _ => rfl, (SendsTo.refl s dst).sends⟩

theorem address_modPeer {i : ℕ} {f : WgsPeer → WgsPeer}
    (hf : (f (s.peers i)).address = (s.peers i).address) (j : ℕ) :
    ((s.modPeer i f).peers j).address = (s.peers j).address := modPeer_of_fixed _ hf j

theorem sendsTo_modPeer {i : ℕ} {f : WgsPeer → WgsPeer} (dst : Option Sockaddr)
    (hf : (f (s.peers i)).address = (s.peers i).address) : SendsTo s (s.modPeer i f) dst [] :=
  ⟨address_modPeer hf, (SendsTo.refl s dst).sends⟩

theorem address_of_len {peer : WgsPeer} (h : peer.endpointLen ≠ 0) :
    peer.address = some peer.endpoint := if_neg h

theorem sendsTo_sent {i : ℕ} {f : WgsPeer → WgsPeer} (l : NoiseLocal) (bytes : Bytes) (n : ℕ)
    (hf : (f (s.peers i)).address = (s.peers i).address) (hlen : (s.peers i).endpointLen ≠ 0) :
    SendsTo s ((s.modPeer i f).setNoise l) (s.peers i).address
      [.sendUdp bytes (s.peers i).endpoint n] where
  addresses := address_modPeer hf
  sends bytes' d m hmem := by
    simp only [List.mem_singleton, Upcall.sendUdp.injEq] at hmem
    rw [address_of_len hlen, hmem.2.1]

theorem encap_sendsTo {i : ℕ} {plain : Bytes} {env : EncapEnv} {rc : Int}
    (hs : wgsEncap p s i plain env = (rc, s', out)) : SendsTo s s' (s.peers i).address out := by
  unfold wgsEncap at hs
  simp only [] at hs
  generalize (if (plain.length + 15) / 16 * 16 = 0 then 16 else (plain.length + 15) / 16 * 16)
    = padded at hs
  split at hs
  · simp only [Prod.mk.injEq] at hs
    rw [← hs.2.1, ← hs.2.2]
    exact .refl s _
  next hlen =>
  repeat' split at hs
  all_goals
    simp only [Prod.mk.injEq] at hs
    rw [← hs.2.1, ← hs.2.2]
  · exact .refl s _
  · exact .refl s _
  · exact sendsTo_setNoise s _ _
  · exact sendsTo_setNoise s _ _
  · exact sendsTo_setNoise s _ _
  · exact sendsTo_setNoise s _ _
  · exact sendsTo_sent (f := fun peer => { peer with
      txPkts := peer.txPkts + 1, txBytes := peer.txBytes + plain.length
      lastAuthdTx := env.sent.time }) _ _ _ rfl hlen

theorem sendInitiation_sendsTo {i : ℕ} {env : InitiationEnv} {rc : Int}
    (hs : wgsSendInitiation p s i env = some (rc, s', out)) :
    SendsTo s s' (s.peers i).address out := by
  unfold wgsSendInitiation at hs
  simp only [] at hs
  split at hs
  · simp only [Option.some.injEq, Prod.mk.injEq] at hs
    exact hs.2.1 ▸ hs.2.2 ▸ .refl s _
  next hready =>
  split at hs
  · simp only [Option.some.injEq, Prod.mk.injEq] at hs
    exact hs.2.1 ▸ hs.2.2 ▸ .refl s _
  obtain ⟨⟨l, res⟩, -, hs⟩ := Option.map_eq_some_iff.mp hs
  rcases res with _ | ⟨idx, msg⟩
  · simp only [Prod.mk.injEq] at hs
    exact hs.2.1 ▸ hs.2.2 ▸ sendsTo_setNoise s l _
  · simp only [Prod.mk.injEq] at hs
    rw [← hs.2.1, ← hs.2.2]
    refine sendsTo_sent l _ _ ?_ fun h => hready (.inr h)
    rfl

/-- A tick has a reason to send the peer something. -/
def WgsPeer.Due (peer : WgsPeer) (now : ℤ) : Prop :=
  (peer.hsPending ∧ now - peer.hsSentAt ≥ rekeyTimeoutSec)
    ∨ (¬ peer.hsPending ∧ peer.keypairBirth ≠ 0 ∧ now - peer.keypairBirth ≥ rekeyAfterTimeSec)
    ∨ (peer.pkSec > 0 ∧ peer.lastAuthdTx > 0 ∧ now - peer.lastAuthdTx ≥ peer.pkSec)

theorem tickPeer_idle {env : TickEnv} {i : ℕ} (h : ¬ (s.peers i).Due env.now.time) :
    tickPeer p env s i = some (s, []) := by
  simp only [WgsPeer.Due, not_or] at h
  obtain ⟨h1, h2, h3⟩ := h
  have e1 : tickRetransmit p env s i = some (s, []) := if_neg h1
  have e2 : tickRekey p env s i = some (s, []) := if_neg fun hr => h2 ⟨hr.1, hr.2.1, hr.2.2.2⟩
  have e3 : tickKeepalive p env s i = (s, []) := if_neg h3
  unfold tickPeer
  split
  · simp only [Option.bind_eq_bind, e1, e2, e3, Option.bind_some]
    rfl
  · rfl

theorem tickPeer_sendsTo {env : TickEnv} {i : ℕ} (hs : tickPeer p env s i = some (s', out)) :
    SendsTo s s' (s.peers i).address out := by
  obtain ⟨-, rfl, rfl⟩ | ⟨-, s₁, s₂, o₁, o₂, o₃, h1, h2, h3, rfl⟩ := tickPeer_some hs
  · exact .refl _ _
  have hsend : ∀ {s s' : WgSession} {out : List Upcall},
      (wgsSendInitiation p s i (env.initiation i)).map Prod.snd = some (s', out) →
      SendsTo s s' (s.peers i).address out := fun h => by
    obtain ⟨⟨rc, s₁, o⟩, h, he⟩ := Option.map_eq_some_iff.mp h
    simp only [Prod.mk.injEq] at he
    exact he.1 ▸ he.2 ▸ sendInitiation_sendsTo h
  have hr₁ : SendsTo s s₁ (s.peers i).address o₁ := by
    have hstamp : SendsTo s (s.modPeer i fun peer => { peer with hsSentAt := env.now.time })
        (s.peers i).address [] := sendsTo_modPeer _ rfl
    unfold tickRetransmit at h1
    simp only [] at h1
    split at h1
    · split at h1
      · simp only [Option.some.injEq, Prod.mk.injEq] at h1
        rw [← h1.1, ← h1.2]
        exact hstamp.trans (sendsTo_modPeer _ rfl)
      · have := hsend h1
        rw [hstamp.addresses] at this
        exact hstamp.trans this
    · simp only [Option.some.injEq, Prod.mk.injEq] at h1
      exact h1.1 ▸ h1.2 ▸ .refl s _
  have hr₂ : SendsTo s₁ s₂ (s₁.peers i).address o₂ := by
    have hreset : SendsTo s₁ (s₁.modPeer i fun peer => { peer with hsAttempts := 0 })
        (s₁.peers i).address [] := sendsTo_modPeer _ rfl
    unfold tickRekey at h2
    simp only [] at h2
    split at h2
    · have := hsend h2
      rw [hreset.addresses] at this
      exact hreset.trans this
    · simp only [Option.some.injEq, Prod.mk.injEq] at h2
      exact h2.1 ▸ h2.2 ▸ .refl s₁ _
  have hr₃ : SendsTo s₂ s' (s₂.peers i).address o₃ := by
    unfold tickKeepalive at h3
    split at h3
    · obtain ⟨rc, h3⟩ : ∃ rc, wgsEncap p s₂ i [] (env.keepalive i) = (rc, s', o₃) :=
        ⟨_, Prod.ext rfl h3⟩
      exact encap_sendsTo h3
    · simp only [Prod.mk.injEq] at h3
      exact h3.1 ▸ h3.2 ▸ .refl s₂ _
  rw [hr₂.addresses, hr₁.addresses] at hr₃
  rw [hr₁.addresses] at hr₂
  exact (hr₁.trans hr₂).trans hr₃

/-- The addresses stay, and each datagram goes to a peer that is due. -/
theorem tickFrom_sendsTo {env : TickEnv} : ∀ {is : List ℕ} {s s' : WgSession} {out : List Upcall},
    is.Nodup → tickFrom p env is s = some (s', out) →
    (∀ i, (s'.peers i).address = (s.peers i).address) ∧ ∀ bytes d n, .sendUdp bytes d n ∈ out →
      ∃ i ∈ is, (s.peers i).active ∧ (s.peers i).Due env.now.time
        ∧ (s.peers i).address = some d
  | [], s, s', out, _, hs => by
    simp only [tickFrom, Option.some.injEq, Prod.mk.injEq] at hs
    obtain ⟨rfl, rfl⟩ := hs
    exact ⟨fun _ => rfl, fun _ _ _ h => absurd h List.not_mem_nil⟩
  | i :: is, s, s', out, hnd, hs => by
    simp only [tickFrom, Option.bind_eq_bind, Option.bind_eq_some_iff, Option.pure_def,
      Option.some.injEq, Prod.mk.injEq] at hs
    obtain ⟨⟨s₁, o₁⟩, h1, ⟨s₂, o₂⟩, h2, rfl, rfl⟩ := hs
    obtain ⟨hi, hnd⟩ := List.nodup_cons.mp hnd
    have hfirst := tickPeer_sendsTo h1
    obtain ⟨haddr, hrest⟩ := tickFrom_sendsTo hnd h2
    refine ⟨fun j => (haddr j).trans (hfirst.addresses j), fun bytes d n hmem => ?_⟩
    rcases List.mem_append.mp hmem with hmem | hmem
    · refine ⟨i, List.mem_cons_self, ?_, ?_, hfirst.sends bytes d n hmem⟩
      · obtain ⟨-, -, rfl⟩ | ⟨ha, -⟩ := tickPeer_some h1
        · exact absurd hmem List.not_mem_nil
        · exact ha
      · by_contra hdue
        rw [tickPeer_idle hdue, Option.some.injEq, Prod.mk.injEq] at h1
        rw [← h1.2] at hmem
        exact absurd hmem List.not_mem_nil
    · obtain ⟨j, hj, ha, hdue, hd⟩ := hrest bytes d n hmem
      have hsame : s₁.peers j = s.peers j :=
        (tickPeer_apart h1).peers j fun e => hi (e ▸ hj)
      exact ⟨j, List.mem_cons_of_mem _ hj, hsame ▸ ha, hsame ▸ hdue, hsame ▸ hd⟩

/-! ## Datagrams -/

/-- What a datagram may change: the address of the peer that it authenticates becomes its source,
and an answer goes there too. -/
structure Hears (s s' : WgSession) (src : Sockaddr) (answered : Prop) (heard : Option ℕ)
    (out : List Upcall) : Prop where
  addresses : ∀ i, (s'.peers i).address = (s.peers i).address
    ∨ heard = some i ∧ ∀ d, (s'.peers i).address = some d → d = src
  sends : ∀ bytes d n, .sendUdp bytes d n ∈ out → answered ∧ d = src

variable {src : Sockaddr} {srcLen : ℕ} {heard : Option ℕ} {answered : Prop}

theorem Hears.silent (h : ∀ i, (s'.peers i).address = (s.peers i).address) :
    Hears s s' src answered heard [] :=
  ⟨fun i => .inl (h i), fun _ _ _ h => absurd h List.not_mem_nil⟩

theorem hears_moved {i : ℕ} {f : WgsPeer → WgsPeer}
    (hout : ∀ bytes d n, .sendUdp bytes d n ∈ out → answered ∧ d = src)
    (hs : ∀ j, (s'.peers j).address = ((s.modPeer i f).peers j).address)
    (hf : (f (s.peers i)).endpoint = src) : Hears s s' src answered (some i) out where
  addresses j := by
    rw [hs j]
    by_cases hj : j = i
    · refine .inr ⟨hj ▸ rfl, fun d hd => ?_⟩
      rw [hj, WgSession.modPeer] at hd
      simp only [Function.update_self, WgsPeer.address] at hd
      split at hd
      · cases hd
      · exact (Option.some.inj hd).symm.trans hf
    · refine .inl ?_
      simp only [WgSession.modPeer, Function.update_of_ne hj]
  sends := hout

theorem deliver_hears {i : ℕ} {m : Bytes} {rc : Int}
    (hs : wgsDeliver s i m src srcLen = (rc, s', out)) : Hears s s' src answered (some i) out := by
  unfold wgsDeliver at hs
  simp only [] at hs
  repeat' split at hs
  all_goals
    simp only [Prod.mk.injEq] at hs
    obtain ⟨-, rfl, rfl⟩ := hs
    refine hears_moved (f := fun peer => { peer with endpoint := src, endpointLen := srcLen })
      (fun _ _ _ h => ?_) (fun j => ?_) rfl
  all_goals first
    | exact absurd h (by simp)
    | exact address_modPeer rfl j
    | rfl

theorem handleData_hears {bytes : Bytes} {now : Moment} {rc : Int}
    (hs : wgsHandleData p s bytes src srcLen now = (rc, s', out)) :
    Hears s s' src answered ((opened p s.noise bytes now).map Prod.fst) out := by
  unfold wgsHandleData at hs
  unfold opened
  split at hs
  · simp only [Prod.mk.injEq] at hs
    obtain ⟨-, rfl, rfl⟩ := hs
    exact .silent fun _ => rfl
  next hlong =>
  rw [if_neg hlong]
  rcases hl : noiseKeypairLookup s.noise (le32dec (slice 4 4 bytes)) with ⟨l, _ | k⟩ <;>
    rw [hl] at hs
  · simp only [Prod.mk.injEq] at hs
    obtain ⟨-, rfl, rfl⟩ := hs
    exact .silent fun _ => rfl
  · simp only [] at hs
    simp only []
    rcases hd : noiseKeypairDecrypt p l k (leDec (slice 8 8 bytes)) (bytes.drop 16)
      now.getsbinuptime with _ | m <;> rw [hd] at hs
    · simp only [Prod.mk.injEq] at hs
      obtain ⟨-, rfl, rfl⟩ := hs
      exact .silent fun _ => rfl
    · obtain ⟨haddr, hsend⟩ := deliver_hears hs
      exact ⟨haddr, hsend⟩

theorem handleInitiation_hears {bytes : Bytes} {env : ResponderEnv} {rc : Int} (ha : answered)
    (hs : wgsHandleInitiation p s bytes src srcLen env = some (rc, s', out)) :
    Hears s s' src answered (initiator p s bytes env) out := by
  unfold wgsHandleInitiation at hs
  unfold initiator
  split at hs
  · simp only [Option.some.injEq, Prod.mk.injEq] at hs
    obtain ⟨-, rfl, rfl⟩ := hs
    exact .silent fun _ => rfl
  next hlong =>
  split at hs
  · simp only [Option.some.injEq, Prod.mk.injEq] at hs
    obtain ⟨-, rfl, rfl⟩ := hs
    exact .silent fun _ => rfl
  next hmac =>
  rw [if_neg hlong, if_neg hmac]
  obtain ⟨⟨l, res⟩, hc, hs⟩ := Option.map_eq_some_iff.mp hs
  rw [hc]
  rcases res with _ | r
  · simp only [Prod.mk.injEq] at hs
    obtain ⟨-, rfl, rfl⟩ := hs
    exact .silent fun _ => rfl
  · simp only [] at hs
    simp only []
    split at hs
    · simp only [Prod.mk.injEq] at hs
      obtain ⟨-, rfl, rfl⟩ := hs
      exact .silent fun _ => rfl
    · simp only [Prod.mk.injEq] at hs
      obtain ⟨-, rfl, rfl⟩ := hs
      refine hears_moved (f := fun peer => { peer with endpoint := src, endpointLen := srcLen })
        (fun _ _ _ h => ?_) (fun j => ?_) rfl
      · simp only [List.mem_singleton, Upcall.sendUdp.injEq] at h
        exact ⟨ha, h.2.1⟩
      · simp only [WgSession.modPeer, WgSession.setNoise, Function.update_apply]
        split <;> rfl

theorem handleUdp_hears {bytes : Bytes} {env : UdpEnv} {rc : Int}
    (hs : wgSessionHandleUdp p s bytes src srcLen env = some (rc, s', out)) :
    Hears s s' src (le32dec (bytes.take 4) = wgsPktInitiation) (heardFrom p s bytes env) out := by
  unfold wgSessionHandleUdp at hs
  unfold heardFrom
  simp only [] at hs
  split at hs
  · simp only [Option.some.injEq, Prod.mk.injEq] at hs
    obtain ⟨-, rfl, rfl⟩ := hs
    exact .silent fun _ => rfl
  split at hs
  next hdata =>
    rw [if_pos hdata]
    exact handleData_hears (Option.some.inj hs)
  next hdata =>
  rw [if_neg hdata]
  split at hs
  next hini =>
    rw [if_pos hini]
    exact handleInitiation_hears hini hs
  next hini =>
  rw [if_neg hini]
  split at hs
  · have hs := Option.some.inj hs
    unfold wgsHandleResponse at hs
    repeat' split at hs
    all_goals
      simp only [Prod.mk.injEq] at hs
      obtain ⟨-, rfl, rfl⟩ := hs
    all_goals first
      | exact .silent fun _ => rfl
      | exact .silent ((sendsTo_modPeer none rfl).trans (sendsTo_setNoise _ _ _)).addresses
  split at hs
  · have hs := Option.some.inj hs
    unfold wgsHandleCookie at hs
    repeat' split at hs
    all_goals
      simp only [Prod.mk.injEq] at hs
      obtain ⟨-, rfl, rfl⟩ := hs
    all_goals first
      | exact .silent fun _ => rfl
      | exact .silent (address_modPeer rfl)
  · simp only [Option.some.injEq, Prod.mk.injEq] at hs
    obtain ⟨-, rfl, rfl⟩ := hs
    exact .silent fun _ => rfl

/-! ## Steps of a host -/

/-- Every peer that the call may send to is where the socket sends, and what is received comes from
the source that is handed on. -/
def OneAddress (a : Adapter) (s : WgSession) : HostCall → Prop
  | .receive bytes src _ => a.source = src
    ∧ (le32dec (bytes.take 4) = wgsPktInitiation → a.remote = some src)
  | .tun bytes _ => ∀ i d, sessionLookupDst s bytes = some i → (s.peers i).address = some d →
    a.remote = some d
  | .tick env => ∀ i d, i < s.nPeers → (s.peers i).active → (s.peers i).Due env.now.time →
    (s.peers i).address = some d → a.remote = some d
  | .kick _ => ∀ i d, kickTarget s = some i → (s.peers i).address = some d → a.remote = some d
  | .setUapi _ _ => True

/-- What a host owes the session in a call: everything goes where the session sends it, and what was
received is handed on with its source. -/
structure AddressesKept (a : Adapter) (c : HostCall) (out : List Upcall) : Prop where
  sends : ∀ bytes d n, .sendUdp bytes d n ∈ out → a.remote = some d
  receives : ∀ bytes src env, c = .receive bytes src env → a.source = src

theorem hostStep_kept {c : HostCall} (hok : OneAddress a s c)
    (hs : hostStep p a s c = some (s', out)) : AddressesKept a c out := by
  cases c with
  | receive bytes src env =>
    obtain ⟨⟨rc, s₁, o⟩, h1, h2⟩ := Option.map_eq_some_iff.mp hs
    simp only [Prod.mk.injEq] at h2
    obtain ⟨rfl, rfl⟩ := h2
    refine ⟨fun b d n hmem => ?_, fun _ _ _ h => ?_⟩
    · obtain ⟨hini, rfl⟩ := (handleUdp_hears h1).sends b d n hmem
      rw [hok.2 hini, hok.1]
    · injection h with _ h
      exact h ▸ hok.1
  | tun bytes env =>
    refine ⟨fun b d n hmem => ?_, fun _ _ _ h => nomatch h⟩
    obtain ⟨rc, hs⟩ : ∃ rc, wgSessionHandleTun p s bytes env = (rc, s', out) :=
      ⟨_, Prod.ext rfl (Option.some.inj hs)⟩
    unfold wgSessionHandleTun at hs
    split at hs
    · simp only [Prod.mk.injEq] at hs
      exact absurd (hs.2.2 ▸ hmem) List.not_mem_nil
    split at hs
    · simp only [Prod.mk.injEq] at hs
      exact absurd (hs.2.2 ▸ hmem) List.not_mem_nil
    next i hi => exact hok i d hi ((encap_sendsTo hs).sends b d n hmem)
  | tick env =>
    refine ⟨fun b d n hmem => ?_, fun _ _ _ h => nomatch h⟩
    obtain ⟨i, hi, ha, hdue, hd⟩ := (tickFrom_sendsTo List.nodup_range hs).2 b d n hmem
    exact hok i d (List.mem_range.mp hi) ha hdue hd
  | kick env =>
    refine ⟨fun b d n hmem => ?_, fun _ _ _ h => nomatch h⟩
    obtain ⟨⟨rc, s₁, o⟩, h1, h2⟩ := Option.map_eq_some_iff.mp hs
    simp only [Prod.mk.injEq] at h2
    obtain ⟨rfl, rfl⟩ := h2
    unfold wgSessionKick at h1
    split at h1
    · simp only [Option.some.injEq, Prod.mk.injEq] at h1
      exact absurd (h1.2.2 ▸ hmem) List.not_mem_nil
    next i hi => exact hok i d hi ((sendInitiation_sendsTo h1).sends b d n hmem)
  | setUapi resolve text =>
    refine ⟨fun b d n hmem => ?_, fun _ _ _ h => nomatch h⟩
    have hs := Option.some.inj hs
    simp only [Prod.mk.injEq] at hs
    exact absurd (hs.2 ▸ hmem) List.not_mem_nil

/-! ## Where addresses come from -/

/-- Every peer's address is among these. -/
def Originated (s : WgSession) (origins : ℕ → Set Sockaddr) : Prop :=
  ∀ i d, (s.peers i).address = some d → d ∈ origins i

/-- The addresses that a peer was configured with, or was heard from at, after a call: a request
configures, and a datagram that a peer authenticates came from the source it really has. -/
def originsAfter (p : Prims) (s s' : WgSession) (origins : ℕ → Set Sockaddr) : HostCall →
    ℕ → Set Sockaddr
  | .receive bytes src env, i =>
    if heardFrom p s bytes env = some i then insert src (origins i) else origins i
  | .setUapi _ _, i => origins i ∪ {d | (s'.peers i).address = some d}
  | _, i => origins i

/-- A session at its host, with where its peers' addresses come from. -/
def hostedStep (p : Prims) (a : Adapter) (x : WgSession × (ℕ → Set Sockaddr)) (c : HostCall) :
    Option ((WgSession × (ℕ → Set Sockaddr)) × List Upcall) :=
  (hostStep p a x.1 c).map fun y => ((y.1, originsAfter p x.1 y.1 x.2 c), y.2)

/-- In the beginning the addresses are the configured ones. -/
def HostedFresh (p : Prims) (a : Adapter) (x : WgSession × (ℕ → Set Sockaddr)) : Prop :=
  Hosted p a x.1 ∧ x.2 = fun i => {d | (x.1.peers i).address = some d}

theorem originated_step {origins : ℕ → Set Sockaddr} {c : HostCall} (hs : Originated s origins)
    (hok : OneAddress a s c) (hstep : hostStep p a s c = some (s', out)) :
    Originated s' (originsAfter p s s' origins c) := by
  have hsame (h : ∀ i, (s'.peers i).address = (s.peers i).address) : Originated s' origins :=
    fun i d hd => hs i d (h i ▸ hd)
  cases c with
  | receive bytes src env =>
    obtain ⟨⟨rc, s₁, o⟩, h1, h2⟩ := Option.map_eq_some_iff.mp hstep
    simp only [Prod.mk.injEq] at h2
    obtain ⟨rfl, rfl⟩ := h2
    intro i d hd
    simp only [originsAfter]
    rcases (handleUdp_hears h1).addresses i with hkept | ⟨hheard, hmoved⟩
    · have hin := hs i d (hkept ▸ hd)
      split
      · exact Set.mem_insert_of_mem _ hin
      · exact hin
    · rw [if_pos hheard, hmoved d hd, hok.1]
      exact Set.mem_insert _ _
  | tun bytes env =>
    obtain ⟨rc, hstep⟩ : ∃ rc, wgSessionHandleTun p s bytes env = (rc, s', out) :=
      ⟨_, Prod.ext rfl (Option.some.inj hstep)⟩
    unfold wgSessionHandleTun at hstep
    split at hstep
    · simp only [Prod.mk.injEq] at hstep
      exact hstep.2.1 ▸ hs
    split at hstep
    · simp only [Prod.mk.injEq] at hstep
      exact hstep.2.1 ▸ hs
    · exact hsame (encap_sendsTo hstep).addresses
  | tick env => exact hsame (tickFrom_sendsTo List.nodup_range hstep).1
  | kick env =>
    obtain ⟨⟨rc, s₁, o⟩, h1, h2⟩ := Option.map_eq_some_iff.mp hstep
    simp only [Prod.mk.injEq] at h2
    obtain ⟨rfl, rfl⟩ := h2
    unfold wgSessionKick at h1
    split at h1
    · simp only [Option.some.injEq, Prod.mk.injEq] at h1
      exact h1.2.1 ▸ hs
    · exact hsame (sendInitiation_sendsTo h1).addresses
  | setUapi resolve text => exact fun i d hd => .inr hd

theorem hostedStep_eq {c : HostCall} (o : ℕ → Set Sockaddr)
    (h : hostStep p a s c = some (s', out)) :
    hostedStep p a (s, o) c = some ((s', originsAfter p s s' o c), out) := by
  rw [hostedStep, h]
  rfl

/-- No condition on the run: what was claimed for one kind of host. -/
def KeepsAddresses (p : Prims) (adapter : WgSession → Adapter) : Prop :=
  ∀ s₀ cs x, Created p s₀ → Run (hostedStep p (adapter s₀)) (fun _ _ => True)
      (s₀, fun i => {d | (s₀.peers i).address = some d}) cs x →
    Originated x.1 x.2 ∧ ∀ c x' out, hostedStep p (adapter s₀) x c = some (x', out) →
      AddressesKept (adapter s₀) c out

def destinations (out : List Upcall) : List Sockaddr :=
  out.filterMap fun
    | .sendUdp _ d _ => some d
    | .deliverIp _ => none

theorem mem_destinations {d : Sockaddr} (h : d ∈ destinations out) :
    ∃ bytes n, .sendUdp bytes d n ∈ out := by
  obtain ⟨u, hu, hd⟩ := List.mem_filterMap.mp h
  cases u with
  | sendUdp bytes d' n =>
    simp only [Option.some.injEq] at hd
    exact ⟨bytes, n, hd ▸ hu⟩
  | deliverIp bytes => cases hd

namespace Specimen

/-- A with two peers at two addresses. -/
def sessionA2 : Option WgSession :=
  wgSessionCreate specimen
    (fun host _ => some (if host = "b".toList then hostB else hostC, sockaddrInLen))
    (conf keyA keyB ("Endpoint=b:51820\nAllowedIPs=10.0.0.2/32\n[Peer]\nPublicKey=" ++ keyC
      ++ "\nEndpoint=c:51820\nAllowedIPs=10.0.0.3/32\n"))

/-- The initiation of A's that B gets. -/
def initiationToB : Bytes :=
  ((sessionA.bind fun a => sessionStep specimen a (.kick (dial 100 7))).map fun x =>
    sent x.2).getD []

end Specimen

end PolarWG
