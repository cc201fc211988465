import PolarWG.Timers
import PolarWG.Proofs.Simulation

/-!
# Two timer machines

When one tick of the session and one of the client end alike for a peer, and that the session's tick
moves each peer's timers as `wgsTimerTick` does.
-/

namespace PolarWG

variable {p : Prims} {s s' : WgSession}

/-! ## The session's timers -/

def WgsPeer.timers (peer : WgsPeer) : PeerTimers :=
  ⟨peer.hasEndpoint, peer.endpointLen, peer.pkSec, peer.hsPending, peer.hsSentAt, peer.hsAttempts,
    peer.keypairBirth, peer.lastAuthdTx⟩

/-- What a datagram is, by its type. -/
def sendAction : Upcall → Option TimerAction
  | .sendUdp bytes _ _ =>
    if le32dec (slice 0 4 bytes) = wgsPktInitiation then some .initiation
    else if le32dec (slice 0 4 bytes) = wgsPktData then some .keepalive
    else none
  | .deliverIp _ => none

/-- What a tick sends; giving up sends nothing. -/
def sends (actions : List TimerAction) : List TimerAction := actions.filter (· ≠ .giveUp)

/-- The timers move as described, and what is sent is what they ask for. -/
def Ticks (s s' : WgSession) (i : ℕ) (out : List Upcall)
    (step : PeerTimers → PeerTimers × List TimerAction) : Prop :=
  (s'.peers i).timers = (step (s.peers i).timers).1
    ∧ out.filterMap sendAction = sends (step (s.peers i).timers).2

/-- The clock stands still during a peer's part of a tick. -/
structure TickEnv.Still (env : TickEnv) (i : ℕ) (now : ℤ) : Prop where
  tick : env.now.time = now
  initiation : (env.initiation i).sent.time = now
  keepalive : (env.keepalive i).sent.time = now

theorem le32dec_typed (x : UInt32) (rest : Bytes) : le32dec (slice 0 4 (le32enc x ++ rest)) = x := by
  rw [slice, List.drop_zero, List.take_left' (length_le32enc x), le32dec_le32enc]

theorem sendInitiation_ticks {i : ℕ} {env : InitiationEnv} {now : ℤ} {rc : Int} {out : List Upcall}
    (hnow : env.sent.time = now) (hs : wgsSendInitiation p s i env = some (rc, s', out)) :
    ∃ made, Ticks s s' i out (wgsTimerInitiation made now) := by
  have hnone : ∀ t : PeerTimers, wgsTimerInitiation false now t = (t, []) := fun t => by
    simp [wgsTimerInitiation]
  have hkeep : ∀ l, Ticks s (s.setNoise l) i [] (wgsTimerInitiation false now) := fun l => by
    unfold Ticks
    rw [hnone]
    exact ⟨rfl, rfl⟩
  unfold wgsSendInitiation at hs
  simp only [] at hs
  split at hs
  · simp only [Option.some.injEq, Prod.mk.injEq] at hs
    obtain ⟨-, rfl, rfl⟩ := hs
    exact ⟨false, hkeep s.noise⟩
  next hcan =>
  split at hs
  · simp only [Option.some.injEq, Prod.mk.injEq] at hs
    obtain ⟨-, rfl, rfl⟩ := hs
    exact ⟨false, hkeep s.noise⟩
  · obtain ⟨⟨l, made⟩, -, h2⟩ := Option.map_eq_some_iff.mp hs
    rcases made with _ | ⟨sIdx, msg⟩
    · simp only [Prod.mk.injEq] at h2
      obtain ⟨-, rfl, rfl⟩ := h2
      exact ⟨false, hkeep l⟩
    · simp only [Prod.mk.injEq] at h2
      obtain ⟨-, rfl, rfl⟩ := h2
      have hcan' : ¬ (¬ (s.peers i).timers.hasEndpoint = true
          ∨ (s.peers i).timers.endpointLen = 0 ∨ ¬ true = true) := by
        simpa [WgsPeer.timers] using hcan
      refine ⟨true, ?_⟩
      unfold Ticks wgsTimerInitiation
      rw [if_neg hcan', setNoise_peers, modPeer_peers, if_pos rfl]
      refine ⟨by simp only [WgsPeer.timers, PeerTimers.initiated, hnow], ?_⟩
      simp only [List.filterMap_cons, List.filterMap_nil, sendAction, initiationBytes,
        List.append_assoc, le32dec_typed, if_true]
      rfl

theorem retransmit_ticks {i : ℕ} {env : TickEnv} {now : ℤ} {out : List Upcall}
    (hstill : env.Still i now) (hs : tickRetransmit p env s i = some (s', out)) :
    ∃ made, Ticks s s' i out (timerRetransmit (wgsTimerInitiation made now) now) := by
  unfold tickRetransmit at hs
  simp only [hstill.tick] at hs
  unfold Ticks timerRetransmit
  split at hs
  · next hdue =>
    have hdue' : (s.peers i).timers.hsPending = true
        ∧ now - (s.peers i).timers.hsSentAt ≥ rekeyTimeoutSec := hdue
    simp only [if_pos hdue']
    have hstamp : ((s.modPeer i fun peer => { peer with hsSentAt := now }).peers i).timers
        = { (s.peers i).timers with hsSentAt := now } := by
      rw [modPeer_peers, if_pos rfl]
      rfl
    have hatt : ((s.modPeer i fun peer => { peer with hsSentAt := now }).peers i).hsAttempts
        = (s.peers i).timers.hsAttempts := congrArg PeerTimers.hsAttempts hstamp
    rw [hatt] at hs
    split at hs
    · next hmax =>
      simp only [Option.some.injEq, Prod.mk.injEq] at hs
      obtain ⟨rfl, rfl⟩ := hs
      refine ⟨false, ?_⟩
      rw [if_pos hmax]
      refine ⟨?_, rfl⟩
      rw [modPeer_peers, if_pos rfl, modPeer_peers, if_pos rfl]
      rfl
    · next hmax =>
      obtain ⟨⟨rc, s₁, o⟩, h1, h2⟩ := Option.map_eq_some_iff.mp hs
      simp only [Prod.mk.injEq] at h2
      obtain ⟨rfl, rfl⟩ := h2
      obtain ⟨made, h⟩ := sendInitiation_ticks hstill.initiation h1
      refine ⟨made, ?_⟩
      rw [if_neg hmax, ← hstamp]
      exact h
  · next hdue =>
    have hdue' : ¬ ((s.peers i).timers.hsPending = true
        ∧ now - (s.peers i).timers.hsSentAt ≥ rekeyTimeoutSec) := hdue
    simp only [Option.some.injEq, Prod.mk.injEq] at hs
    obtain ⟨rfl, rfl⟩ := hs
    refine ⟨false, ?_⟩
    rw [if_neg hdue']
    exact ⟨rfl, rfl⟩

theorem rekey_ticks {i : ℕ} {env : TickEnv} {now : ℤ} {out : List Upcall}
    (hstill : env.Still i now) (hs : tickRekey p env s i = some (s', out)) :
    ∃ made, Ticks s s' i out (wgsTimerRekey made now) := by
  unfold tickRekey at hs
  simp only [hstill.tick] at hs
  unfold Ticks wgsTimerRekey
  split at hs
  · next hdue =>
    have hdue' : ¬ (s.peers i).timers.hsPending = true ∧ (s.peers i).timers.keypairBirth ≠ 0
        ∧ (s.peers i).timers.endpointLen > 0
        ∧ now - (s.peers i).timers.keypairBirth ≥ rekeyAfterTimeSec := hdue
    have hzero : ((s.modPeer i fun peer => { peer with hsAttempts := 0 }).peers i).timers
        = { (s.peers i).timers with hsAttempts := 0 } := by
      rw [modPeer_peers, if_pos rfl]
      rfl
    obtain ⟨⟨rc, s₁, o⟩, h1, h2⟩ := Option.map_eq_some_iff.mp hs
    simp only [Prod.mk.injEq] at h2
    obtain ⟨rfl, rfl⟩ := h2
    obtain ⟨made, h⟩ := sendInitiation_ticks hstill.initiation h1
    refine ⟨made, ?_⟩
    rw [if_pos hdue', ← hzero]
    exact h
  · next hdue =>
    have hdue' : ¬ (¬ (s.peers i).timers.hsPending = true ∧ (s.peers i).timers.keypairBirth ≠ 0
        ∧ (s.peers i).timers.endpointLen > 0
        ∧ now - (s.peers i).timers.keypairBirth ≥ rekeyAfterTimeSec) := hdue
    simp only [Option.some.injEq, Prod.mk.injEq] at hs
    obtain ⟨rfl, rfl⟩ := hs
    refine ⟨false, ?_⟩
    rw [if_neg hdue']
    exact ⟨rfl, rfl⟩

theorem encap_ticks {i : ℕ} {plain : Bytes} {env : EncapEnv} {now : ℤ} {rc : Int}
    {out : List Upcall} (hnow : env.sent.time = now)
    (hs : wgsEncap p s i plain env = (rc, s', out)) :
    ∃ sealable : Bool, Ticks s s' i out fun t =>
      if t.endpointLen = 0 ∨ ¬ sealable then (t, [])
      else ({ t with lastAuthdTx := now }, [.keepalive]) := by
  have hkeep : ∀ l, ∃ sealable : Bool, Ticks s (s.setNoise l) i [] fun t =>
      if t.endpointLen = 0 ∨ ¬ sealable then (t, [])
      else ({ t with lastAuthdTx := now }, [.keepalive]) := fun l =>
    ⟨false, by simp [Ticks, sends]⟩
  have hstop : ∀ {l}, ((-1 : Int), s.setNoise l, ([] : List Upcall)) = (rc, s', out) →
      ∃ sealable : Bool, Ticks s s' i out fun t =>
        if t.endpointLen = 0 ∨ ¬ sealable then (t, [])
        else ({ t with lastAuthdTx := now }, [.keepalive]) := fun {l} h => by
    simp only [Prod.mk.injEq] at h
    obtain ⟨-, rfl, rfl⟩ := h
    exact hkeep l
  unfold wgsEncap at hs
  simp only [] at hs
  split at hs
  · exact hstop hs
  next hlen =>
  generalize (if (plain.length + 15) / 16 * 16 = 0 then 16 else (plain.length + 15) / 16 * 16)
    = padded at hs
  split at hs
  · exact hstop hs
  split at hs
  · exact hstop hs
  split at hs
  · exact hstop hs
  split at hs
  · exact hstop hs
  split at hs
  · exact hstop hs
  split at hs
  · exact hstop hs
  · simp only [Prod.mk.injEq] at hs
    obtain ⟨-, rfl, rfl⟩ := hs
    have hlen' : ¬ ((s.peers i).timers.endpointLen = 0 ∨ ¬ true = true) := by
      simpa [WgsPeer.timers] using hlen
    refine ⟨true, ?_⟩
    unfold Ticks
    beta_reduce
    rw [if_neg hlen', setNoise_peers, modPeer_peers, if_pos rfl]
    refine ⟨by simp only [WgsPeer.timers, hnow], ?_⟩
    have htype : wgsPktData ≠ wgsPktInitiation := by decide
    simp only [List.filterMap_cons, List.filterMap_nil, sendAction, dataHdrBytes, List.append_assoc,
      le32dec_typed, htype, if_false, if_true]
    rfl

theorem keepalive_ticks {i : ℕ} {env : TickEnv} {now : ℤ} {out : List Upcall}
    (hstill : env.Still i now) (hs : tickKeepalive p env s i = (s', out)) :
    ∃ sealable, Ticks s s' i out (timerKeepalive sealable now) := by
  unfold tickKeepalive at hs
  simp only [hstill.tick] at hs
  unfold Ticks timerKeepalive
  split at hs
  · next hdue =>
    have hdue' : (s.peers i).timers.pkSec > 0 ∧ (s.peers i).timers.lastAuthdTx > 0
        ∧ now - (s.peers i).timers.lastAuthdTx ≥ (s.peers i).timers.pkSec := hdue
    rcases hk : wgsEncap p s i [] (env.keepalive i) with ⟨rc, s₁, o⟩
    rw [hk] at hs
    simp only [Prod.mk.injEq] at hs
    obtain ⟨rfl, rfl⟩ := hs
    obtain ⟨sealable, h⟩ := encap_ticks hstill.keepalive hk
    refine ⟨sealable, ?_⟩
    rw [if_pos hdue']
    exact h
  · next hdue =>
    have hdue' : ¬ ((s.peers i).timers.pkSec > 0 ∧ (s.peers i).timers.lastAuthdTx > 0
        ∧ now - (s.peers i).timers.lastAuthdTx ≥ (s.peers i).timers.pkSec) := hdue
    simp only [Prod.mk.injEq] at hs
    obtain ⟨rfl, rfl⟩ := hs
    refine ⟨false, ?_⟩
    rw [if_neg hdue']
    exact ⟨rfl, rfl⟩

/-- An active peer's part of a tick moves its timers, and sends, as `wgsTimerTick` does. -/
theorem tickPeer_ticks {i : ℕ} {env : TickEnv} {now : ℤ} {out : List Upcall}
    (ha : (s.peers i).active) (hstill : env.Still i now)
    (hs : tickPeer p env s i = some (s', out)) :
    ∃ o, Ticks s s' i out (wgsTimerTick o now) := by
  obtain ⟨hna, -⟩ | ⟨-, s₁, s₂, o₁, o₂, o₃, h1, h2, h3, rfl⟩ := tickPeer_some hs
  · exact absurd ha hna
  obtain ⟨b₁, e₁, f₁⟩ := retransmit_ticks hstill h1
  obtain ⟨b₂, e₂, f₂⟩ := rekey_ticks hstill h2
  obtain ⟨b₃, e₃, f₃⟩ := keepalive_ticks hstill h3
  rw [e₁] at e₂ f₂
  rw [e₂] at e₃ f₃
  refine ⟨⟨b₁, b₂, b₃⟩, e₃, ?_⟩
  rw [List.filterMap_append, List.filterMap_append, f₁, f₂, f₃]
  simp only [wgsTimerTick, sends, List.filter_append]

/-! ## Agreement -/

/-- When both do the same about a peer that has no handshake pending. The client dials a configured
endpoint that never had a keypair, and never one that is not configured. -/
structure IdleAlike (made : Bool) (now : ℤ) (t : PeerTimers) : Prop where
  initial : t.hasEndpoint → t.keypairBirth = 0 →
    t.hsAttempts = 0 ∧ (t.endpointLen = 0 ∨ made = false)
  unreachable : t.hasEndpoint → 0 < t.keypairBirth → rekeyAfterTimeSec ≤ now - t.keypairBirth →
    t.endpointLen = 0 → t.hsAttempts = 0
  negative : t.hasEndpoint → t.keypairBirth < 0 → rekeyAfterTimeSec ≤ now - t.keypairBirth →
    t.endpointLen ≠ 0 → t.hsAttempts = 0 ∧ made = false
  unconfigured : t.hasEndpoint = false → t.keypairBirth ≠ 0 →
    rekeyAfterTimeSec ≤ now - t.keypairBirth → t.endpointLen ≠ 0 → t.hsAttempts = 0

/-- When both do the same about a peer. -/
structure TimersAlike (o : NoiseAnswers) (now : ℤ) (t : PeerTimers) : Prop where
  retransmit : t.hsPending → rekeyTimeoutSec ≤ now - t.hsSentAt →
    t.hsAttempts < maxHandshakeAttempts → t.endpointLen ≠ 0 → o.retransmit → t.hasEndpoint
  idle : t.hsPending = false → IdleAlike o.initiate now t
  givenUp : t.hsPending → rekeyTimeoutSec ≤ now - t.hsSentAt →
    maxHandshakeAttempts ≤ t.hsAttempts → IdleAlike o.initiate now { t with hsAttempts := 0 }

/-- What tells two ticks apart: the attempts left counted, and the initiations sent. -/
def apparent (x : PeerTimers × List TimerAction) : ℕ × ℕ :=
  (x.1.hsAttempts, x.2.count .initiation)

theorem rekey_alike {made : Bool} {now : ℤ} {t : PeerTimers} (hp : t.hsPending = false)
    (h : IdleAlike made now t) : wgsTimerRekey made now t = tunnelRekey 0 made now t := by
  obtain ⟨hi, hu, hn, hc⟩ := h
  obtain ⟨e, len, pk, pend, sent, att, birth, last⟩ := t
  simp only at hp hi hu hn hc
  subst hp
  simp only [wgsTimerRekey, tunnelRekey, wgsTimerInitiation, tunnelSendInitiation]
  cases e <;> cases made <;> simp at hi hu hn hc ⊢ <;> grind

theorem alike_of_rekey {made : Bool} {now : ℤ} {t : PeerTimers} (hp : t.hsPending = false)
    (h : apparent (wgsTimerRekey made now t) = apparent (tunnelRekey 0 made now t)) :
    IdleAlike made now t := by
  obtain ⟨e, len, pk, pend, sent, att, birth, last⟩ := t
  simp only at hp
  subst hp
  simp only [wgsTimerRekey, tunnelRekey, wgsTimerInitiation, tunnelSendInitiation, apparent,
    PeerTimers.initiated] at h
  constructor <;> cases e <;> cases made <;> simp at h ⊢ <;> grind

theorem wgsTimerRekey_pending {made : Bool} {now : ℤ} {t : PeerTimers} (hp : t.hsPending = true) :
    wgsTimerRekey made now t = (t, []) := by
  simp [wgsTimerRekey, hp]

theorem tunnelRekey_pending {jitter : ℤ} {made : Bool} {now : ℤ} {t : PeerTimers}
    (hp : t.hsPending = true) : tunnelRekey jitter made now t = (t, []) := by
  simp [tunnelRekey, hp]

theorem timerKeepalive_apparent (sealable : Bool) (now : ℤ) (t : PeerTimers) :
    apparent (timerKeepalive sealable now t) = (t.hsAttempts, 0) := by
  unfold timerKeepalive
  split_ifs <;> rfl

/-- A tick from the retransmission on. -/
def afterRetransmit (rekey : PeerTimers → PeerTimers × List TimerAction) (sealable : Bool) (now : ℤ)
    (x : PeerTimers × List TimerAction) : PeerTimers × List TimerAction :=
  let y := rekey x.1
  let z := timerKeepalive sealable now y.1
  (z.1, x.2 ++ y.2 ++ z.2)

theorem apparent_afterRetransmit (rekey : PeerTimers → PeerTimers × List TimerAction)
    (sealable : Bool) (now : ℤ) (x : PeerTimers × List TimerAction) :
    apparent (afterRetransmit rekey sealable now x)
      = ((apparent (rekey x.1)).1, x.2.count .initiation + (apparent (rekey x.1)).2) := by
  have h := timerKeepalive_apparent sealable now (rekey x.1).1
  simp only [apparent, Prod.mk.injEq] at h
  simp only [apparent, afterRetransmit, h.1, List.count_append, h.2, Nat.add_zero]

/-- From the same timers without a handshake pending, both end alike if and only if they do the same
about an idle peer. -/
theorem afterRetransmit_alike_iff {made sealable : Bool} {now : ℤ} {t : PeerTimers}
    (a : List TimerAction) (hp : t.hsPending = false) :
    afterRetransmit (wgsTimerRekey made now) sealable now (t, a)
        = afterRetransmit (tunnelRekey 0 made now) sealable now (t, a) ↔ IdleAlike made now t := by
  constructor
  · intro h
    have := congrArg apparent h
    rw [apparent_afterRetransmit, apparent_afterRetransmit] at this
    simp only [Prod.mk.injEq, Nat.add_left_cancel_iff] at this
    exact alike_of_rekey hp (Prod.ext this.1 this.2)
  · intro h
    unfold afterRetransmit
    rw [rekey_alike hp h]

end PolarWG
