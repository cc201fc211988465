import PolarWG.Proofs.GiveUp
import PolarWG.Proofs.Configured

/-!
# Backing off

The calls that ticks make of `noise_create_initiation`, whatever it answers. A retransmission moves
the stamp before it calls, so the next call waits; a rekey leaves the stamp to a call that succeeds.
So a slot's calls are a full timeout apart as long as no rekey fails shortly before another tick.
-/

namespace PolarWG

open Specimen

variable {p : Prims} {s s' : WgSession} {i : ℕ} {now : ℤ}

/-- A call of `noise_create_initiation`: for which slot, whether for a rekey, and whether it made
an initiation. -/
structure CreateCall where
  slot : ℕ
  rekey : Bool
  made : Bool
deriving DecidableEq

/-! ## The calls of a tick -/

section Calls

variable (p : Prims)

/-- What `wgs_send_initiation` calls. -/
def sendCalls (s : WgSession) (i : ℕ) (env : InitiationEnv) (rekey : Bool) : List CreateCall :=
  if ¬ (s.peers i).hasEndpoint ∨ (s.peers i).endpointLen = 0 then []
  else match (s.peers i).remote with
  | none => []
  | some r =>
    (noiseCreateInitiation p s.noise r env).toList.map fun (_, made) => ⟨i, rekey, made.isSome⟩

def retransmitCalls (env : TickEnv) (s : WgSession) (i : ℕ) : List CreateCall :=
  let now := env.now.time
  if (s.peers i).hsPending ∧ now - (s.peers i).hsSentAt ≥ rekeyTimeoutSec then
    let s := s.modPeer i fun peer => { peer with hsSentAt := now }
    if (s.peers i).hsAttempts ≥ maxHandshakeAttempts then []
    else sendCalls p s i (env.initiation i) false
  else []

def rekeyCalls (env : TickEnv) (s : WgSession) (i : ℕ) : List CreateCall :=
  if ¬ (s.peers i).hsPending ∧ (s.peers i).keypairBirth ≠ 0 ∧ (s.peers i).endpointLen > 0
      ∧ env.now.time - (s.peers i).keypairBirth ≥ rekeyAfterTimeSec then
    sendCalls p (s.modPeer i fun peer => { peer with hsAttempts := 0 }) i (env.initiation i) true
  else []

/-- The calls of a slot's turn; the keepalive calls for none. -/
def turnCalls (env : TickEnv) (s : WgSession) (i : ℕ) : List CreateCall :=
  if (s.peers i).active then
    retransmitCalls p env s i
      ++ (tickRetransmit p env s i).toList.flatMap fun (s, _) => rekeyCalls p env s i
  else []

def callsFrom (env : TickEnv) : List ℕ → WgSession → Option (WgSession × List CreateCall)
  | [], s => some (s, [])
  | i :: is, s => do
    let (s₁, _) ← tickPeer p env s i
    let (s₂, calls) ← callsFrom env is s₁
    pure (s₂, turnCalls p env s i ++ calls)

/-- A tick, with the calls it makes. -/
def tickCalls (s : WgSession) (env : TickEnv) : Option (WgSession × List CreateCall) :=
  callsFrom p env (List.range s.nPeers) s

end Calls

theorem callsFrom_state (env : TickEnv) : ∀ (is : List ℕ) (s : WgSession),
    (callsFrom p env is s).map Prod.fst = (tickFrom p env is s).map Prod.fst
  | [], _ => rfl
  | i :: is, s => by
    unfold callsFrom tickFrom
    rcases tickPeer p env s i with _ | ⟨s₁, out⟩
    · rfl
    have ih := callsFrom_state env is s₁
    simp only [Option.bind_eq_bind, Option.bind_some, Option.pure_def]
    rcases hc : callsFrom p env is s₁ with _ | ⟨s₂, calls⟩ <;>
      rcases hf : tickFrom p env is s₁ with _ | ⟨s₃, out'⟩ <;> rw [hc, hf] at ih
    · rfl
    · cases ih
    · cases ih
    · exact ih

/-- A tick with its calls is a tick. -/
theorem tickCalls_state (s : WgSession) (env : TickEnv) :
    (tickCalls p s env).map Prod.fst = (wgSessionTick p s env).map Prod.fst :=
  callsFrom_state env _ s

def callsTo (i : ℕ) (calls : List CreateCall) : List CreateCall := calls.filter (·.slot = i)

/-- When the calls for a slot are made, over ticks. -/
def callTimes (i : ℕ) (envs : List TickEnv) (calls : List (List CreateCall)) : List ℤ :=
  (envs.zip calls).flatMap fun (env, calls) => (callsTo i calls).map fun _ => env.now.time

/-- A rekey of the slot that made no initiation. -/
def failedRekey (i : ℕ) : CreateCall := ⟨i, true, false⟩

/-! ## Turns -/

/-- The handshake was tried at `t` or later. -/
def WgsPeer.Tried (peer : WgsPeer) (t : ℤ) : Prop := peer.hsPending ∧ t ≤ peer.hsSentAt

/-- A tick rekeys the peer. -/
structure WgsPeer.RekeyDue (peer : WgsPeer) (now : ℤ) : Prop where
  active : peer.active
  idle : ¬ peer.hsPending
  birth : peer.keypairBirth ≠ 0
  late : now - peer.keypairBirth ≥ rekeyAfterTimeSec
  endpoint : peer.hasEndpoint
  len : peer.endpointLen ≠ 0
  remote : peer.remote.isSome

theorem WgsPeer.RekeyDue.mono {peer : WgsPeer} {now' : ℤ} (h : peer.RekeyDue now)
    (hle : now ≤ now') : peer.RekeyDue now' :=
  ⟨h.active, h.idle, h.birth, by have := h.late; omega, h.endpoint, h.len, h.remote⟩

/-- What a peer can be sent stays. -/
structure SameAddress (peer peer' : WgsPeer) : Prop where
  active : peer'.active = peer.active
  remote : peer'.remote = peer.remote
  endpoint : peer'.hasEndpoint = peer.hasEndpoint
  len : peer'.endpointLen = peer.endpointLen
  birth : peer'.keypairBirth = peer.keypairBirth

theorem SameAddress.refl (peer : WgsPeer) : SameAddress peer peer := ⟨rfl, rfl, rfl, rfl, rfl⟩

theorem SameAddress.trans {peer peer' peer'' : WgsPeer} (h : SameAddress peer peer')
    (h' : SameAddress peer' peer'') : SameAddress peer peer'' :=
  ⟨h'.active.trans h.active, h'.remote.trans h.remote, h'.endpoint.trans h.endpoint,
    h'.len.trans h.len, h'.birth.trans h.birth⟩

theorem WgsPeer.RekeyDue.same {peer peer' : WgsPeer} (h : peer.RekeyDue now)
    (hs : SameAddress peer peer') (hp : peer'.hsPending = peer.hsPending) : peer'.RekeyDue now where
  active := hs.active.trans h.active
  idle := by rw [hp]; exact h.idle
  birth := by rw [hs.birth]; exact h.birth
  late := by rw [hs.birth]; exact h.late
  endpoint := hs.endpoint.trans h.endpoint
  len := by rw [hs.len]; exact h.len
  remote := by rw [hs.remote]; exact h.remote

/-- What a turn, or a part of it, does to the slot's peer for the calls it makes. -/
structure Turn (i : ℕ) (now : ℤ) (peer peer' : WgsPeer) (calls : List CreateCall) : Prop where
  same : SameAddress peer peer'
  quiet : calls = [] → ∀ t, peer.Tried t → peer'.Tried t ∨ t + rekeyTimeoutSec ≤ now
  waited : calls ≠ [] → ∀ t, peer.Tried t → t + rekeyTimeoutSec ≤ now
  once : calls = [] ∨ (∃ c, calls = [c] ∧ c ≠ failedRekey i ∧ peer'.Tried now)
    ∨ calls = [failedRekey i] ∧ peer'.RekeyDue now

/-- What an attempt leaves of the peer. -/
theorem sendInitiation_calls {env : InitiationEnv} (rekey : Bool) {rc : Int} {out : List Upcall}
    (hs : wgsSendInitiation p s i env = some (rc, s', out)) :
    SameAddress (s.peers i) (s'.peers i)
      ∧ (sendCalls p s i env rekey = [] ∧ s'.peers i = s.peers i
            ∧ ((s.peers i).hasEndpoint → (s.peers i).endpointLen ≠ 0 → (s.peers i).remote = none)
          ∨ sendCalls p s i env rekey = [⟨i, rekey, false⟩] ∧ s'.peers i = s.peers i
            ∧ (s.peers i).hasEndpoint ∧ (s.peers i).endpointLen ≠ 0 ∧ (s.peers i).remote.isSome
          ∨ sendCalls p s i env rekey = [⟨i, rekey, true⟩]
            ∧ (s'.peers i).hsPending ∧ (s'.peers i).hsSentAt = env.sent.time) := by
  unfold wgsSendInitiation at hs
  unfold sendCalls
  simp only [] at hs
  split at hs
  · next hno =>
    simp only [Option.some.injEq, Prod.mk.injEq] at hs
    obtain ⟨-, rfl, -⟩ := hs
    rw [if_pos hno]
    refine ⟨.refl _, .inl ⟨rfl, rfl, fun he hl => ?_⟩⟩
    rcases hno with h | h
    · exact absurd he h
    · exact absurd h hl
  next hcan =>
  rw [if_neg hcan]
  obtain ⟨he, hl⟩ := not_or.mp hcan
  rw [not_not] at he
  split at hs
  · next hr =>
    simp only [Option.some.injEq, Prod.mk.injEq] at hs
    obtain ⟨-, rfl, -⟩ := hs
    rw [hr]
    exact ⟨.refl _, .inl ⟨rfl, rfl, fun _ _ => rfl⟩⟩
  · next r hr =>
    rw [hr]
    obtain ⟨⟨l, made⟩, h1, h2⟩ := Option.map_eq_some_iff.mp hs
    simp only [h1, Option.toList_some, List.map_cons, List.map_nil]
    rcases made with _ | ⟨sIdx, msg⟩
    · simp only [Prod.mk.injEq] at h2
      obtain ⟨-, rfl, -⟩ := h2
      exact ⟨.refl _, .inr (.inl ⟨rfl, rfl, he, hl, rfl⟩)⟩
    · simp only [Prod.mk.injEq] at h2
      obtain ⟨-, rfl, -⟩ := h2
      rw [setNoise_peers, modPeer_peers, if_pos rfl]
      exact ⟨⟨rfl, rfl, rfl, rfl, rfl⟩, .inr (.inr ⟨rfl, rfl, rfl⟩)⟩

theorem retransmit_turn {env : TickEnv} {out : List Upcall}
    (hsent : env.now.time ≤ (env.initiation i).sent.time)
    (hs : tickRetransmit p env s i = some (s', out)) :
    Turn i env.now.time (s.peers i) (s'.peers i) (retransmitCalls p env s i)
      ∧ ¬ failedRekey i ∈ retransmitCalls p env s i
      ∧ (¬ (s.peers i).hsPending → s'.peers i = s.peers i) := by
  unfold tickRetransmit at hs
  unfold retransmitCalls
  simp only [] at hs ⊢
  split at hs
  · next hdue =>
    obtain ⟨hp, hold⟩ := hdue
    have hwait : ∀ t, (s.peers i).Tried t → t + rekeyTimeoutSec ≤ env.now.time := fun t ht => by
      have := ht.2
      omega
    have hidle : ∀ q : Prop, ¬ (s.peers i).hsPending = true → q := fun _ h => absurd hp h
    rw [if_pos ⟨hp, hold⟩]
    split at hs
    · next hmax =>
      simp only [Option.some.injEq, Prod.mk.injEq] at hs
      obtain ⟨rfl, -⟩ := hs
      rw [if_pos hmax, modPeer_peers, if_pos rfl, modPeer_peers, if_pos rfl]
      exact ⟨⟨⟨rfl, rfl, rfl, rfl, rfl⟩, fun _ t ht => .inr (hwait t ht), fun h => absurd rfl h,
        .inl rfl⟩, List.not_mem_nil, hidle _⟩
    · next hmax =>
      rw [if_neg hmax]
      obtain ⟨⟨rc, s₁, o⟩, h1, h2⟩ := Option.map_eq_some_iff.mp hs
      simp only [Prod.mk.injEq] at h2
      obtain ⟨rfl, -⟩ := h2
      have hstamp : ((s.modPeer i fun peer => { peer with hsSentAt := env.now.time }).peers i)
          = { s.peers i with hsSentAt := env.now.time } := by rw [modPeer_peers, if_pos rfl]
      obtain ⟨hsame, hcase⟩ := sendInitiation_calls false h1
      rw [hstamp] at hsame hcase
      have haddr : SameAddress (s.peers i) (s₁.peers i) :=
        (show SameAddress (s.peers i) { s.peers i with hsSentAt := env.now.time } from
          ⟨rfl, rfl, rfl, rfl, rfl⟩).trans hsame
      rcases hcase with ⟨hc, hpeer, -⟩ | ⟨hc, hpeer, -⟩ | ⟨hc, hpend, hat⟩ <;> rw [hc]
      · exact ⟨⟨haddr, fun _ t ht => .inr (hwait t ht), fun h => absurd rfl h, .inl rfl⟩,
          List.not_mem_nil, hidle _⟩
      · refine ⟨⟨haddr, (absurd · (List.cons_ne_nil _ _)), fun _ => hwait, .inr (.inl ⟨_, rfl, ?_, ?_⟩)⟩, ?_,
          hidle _⟩
        · simp [failedRekey]
        · rw [hpeer]
          exact ⟨hp, le_rfl⟩
        · simp [failedRekey]
      · refine ⟨⟨haddr, (absurd · (List.cons_ne_nil _ _)), fun _ => hwait, .inr (.inl ⟨_, rfl, ?_, ?_⟩)⟩, ?_,
          hidle _⟩
        · simp [failedRekey]
        · exact ⟨hpend, hat ▸ hsent⟩
        · simp [failedRekey]
  · next hdue =>
    simp only [Option.some.injEq, Prod.mk.injEq] at hs
    obtain ⟨rfl, -⟩ := hs
    rw [if_neg hdue]
    exact ⟨⟨.refl _, fun _ t ht => .inl ht, fun h => absurd rfl h, .inl rfl⟩, List.not_mem_nil,
      fun _ => rfl⟩

theorem rekey_turn {env : TickEnv} {out : List Upcall} (ha : (s.peers i).active)
    (hsent : env.now.time ≤ (env.initiation i).sent.time)
    (hs : tickRekey p env s i = some (s', out)) :
    Turn i env.now.time (s.peers i) (s'.peers i) (rekeyCalls p env s i)
      ∧ ((s.peers i).hsPending → rekeyCalls p env s i = [])
      ∧ ((s.peers i).RekeyDue env.now.time → rekeyCalls p env s i ≠ []) := by
  unfold tickRekey at hs
  unfold rekeyCalls
  split at hs
  · next hdue =>
    rw [if_pos hdue]
    obtain ⟨hidle, hbirth, -, hlate⟩ := hdue
    have hwait : ∀ t, (s.peers i).Tried t → t + rekeyTimeoutSec ≤ env.now.time :=
      fun t ht => absurd ht.1 hidle
    obtain ⟨⟨rc, s₁, o⟩, h1, h2⟩ := Option.map_eq_some_iff.mp hs
    simp only [Prod.mk.injEq] at h2
    obtain ⟨rfl, -⟩ := h2
    have hzero : ((s.modPeer i fun peer => { peer with hsAttempts := 0 }).peers i)
        = { s.peers i with hsAttempts := 0 } := by rw [modPeer_peers, if_pos rfl]
    obtain ⟨hsame, hcase⟩ := sendInitiation_calls true h1
    rw [hzero] at hsame hcase
    have haddr : SameAddress (s.peers i) (s₁.peers i) :=
      (show SameAddress (s.peers i) { s.peers i with hsAttempts := 0 } from
        ⟨rfl, rfl, rfl, rfl, rfl⟩).trans hsame
    have hpend : (s.peers i).hsPending = true → ∀ q : Prop, q := fun h => absurd h hidle
    rcases hcase with ⟨hc, hpeer, hno⟩ | ⟨hc, hpeer, he, hl, hr⟩ | ⟨hc, hp, hat⟩ <;> rw [hc]
    · refine ⟨⟨haddr, fun _ t ht => absurd ht.1 hidle, fun h => absurd rfl h, .inl rfl⟩,
        fun _ => rfl, fun hdue' => ?_⟩
      have := hdue'.remote
      rw [hno hdue'.endpoint hdue'.len] at this
      cases this
    · refine ⟨⟨haddr, (absurd · (List.cons_ne_nil _ _)), fun _ => hwait, .inr (.inr ⟨rfl, ?_⟩)⟩,
        fun h => hpend h _, fun _ h => by cases h⟩
      have hdue' : (s.peers i).RekeyDue env.now.time := ⟨ha, hidle, hbirth, hlate, he, hl, hr⟩
      exact hdue'.same haddr (by rw [hpeer])
    · refine ⟨⟨haddr, (absurd · (List.cons_ne_nil _ _)), fun _ => hwait, .inr (.inl ⟨_, rfl, ?_, ?_⟩)⟩,
        fun h => hpend h _, fun _ h => by cases h⟩
      · simp [failedRekey]
      · exact ⟨hp, hat ▸ hsent⟩
  · next hdue =>
    simp only [Option.some.injEq, Prod.mk.injEq] at hs
    obtain ⟨rfl, -⟩ := hs
    rw [if_neg hdue]
    refine ⟨⟨.refl _, fun _ t ht => .inl ht, fun h => absurd rfl h, .inl rfl⟩, fun _ => rfl,
      fun h => ?_⟩
    exact absurd ⟨h.idle, h.birth, Nat.pos_of_ne_zero h.len, h.late⟩ hdue

theorem keepalive_quiet {env : TickEnv} {out : List Upcall}
    (hs : tickKeepalive p env s i = (s', out)) : SameAddress (s.peers i) (s'.peers i)
      ∧ (s'.peers i).hsPending = (s.peers i).hsPending
      ∧ (s'.peers i).hsSentAt = (s.peers i).hsSentAt := by
  have hap := tickKeepalive_apart hs
  have htimers : ∃ last, (s'.peers i).timers = { (s.peers i).timers with lastAuthdTx := last } := by
    unfold tickKeepalive at hs
    split at hs
    · rcases hk : wgsEncap p s i [] (env.keepalive i) with ⟨rc, s₁, o⟩
      rw [hk] at hs
      simp only [Prod.mk.injEq] at hs
      obtain ⟨rfl, rfl⟩ := hs
      obtain ⟨sealable, htimers, -⟩ := encap_ticks rfl hk
      beta_reduce at htimers
      split at htimers
      · exact ⟨_, htimers⟩
      · exact ⟨_, htimers⟩
    · simp only [Prod.mk.injEq] at hs
      obtain ⟨rfl, -⟩ := hs
      exact ⟨_, rfl⟩
  obtain ⟨last, h⟩ := htimers
  exact ⟨⟨hap.steady.active i, hap.remote, congrArg PeerTimers.hasEndpoint h,
    congrArg PeerTimers.endpointLen h, congrArg PeerTimers.keypairBirth h⟩,
    congrArg PeerTimers.hsPending h, congrArg PeerTimers.hsSentAt h⟩

/-- A turn makes at most one call, and a rekey that is due makes one. -/
theorem tickPeer_turn {env : TickEnv} {out : List Upcall}
    (hsent : env.now.time ≤ (env.initiation i).sent.time)
    (hs : tickPeer p env s i = some (s', out)) :
    Turn i env.now.time (s.peers i) (s'.peers i) (turnCalls p env s i)
      ∧ ((s.peers i).RekeyDue env.now.time → turnCalls p env s i ≠ []) := by
  unfold turnCalls
  obtain ⟨hna, rfl, -⟩ | ⟨ha, s₁, s₂, o₁, o₂, o₃, h1, h2, h3, -⟩ := tickPeer_some hs
  · rw [if_neg hna]
    exact ⟨⟨.refl _, fun _ t ht => .inl ht, fun h => absurd rfl h, .inl rfl⟩,
      fun h => absurd h.active hna⟩
  rw [if_pos ha, h1]
  simp only [Option.toList_some, List.flatMap_cons, List.flatMap_nil, List.append_nil]
  obtain ⟨t1, hfail, hkeep⟩ := retransmit_turn hsent h1
  have ha₁ : (s₁.peers i).active := t1.same.active.trans ha
  obtain ⟨t2, hpend, hdue⟩ := rekey_turn ha₁ hsent h2
  obtain ⟨hsame, hp, hat⟩ := keepalive_quiet h3
  have tried : ∀ {t}, (s₂.peers i).Tried t → (s'.peers i).Tried t := fun h =>
    ⟨hp.trans h.1, hat ▸ h.2⟩
  have hsame' := (t1.same.trans t2.same).trans hsame
  refine ⟨?_, fun hr => ?_⟩
  · rcases t1.once with hc | ⟨c, hc, hne, htried⟩ | ⟨hc, -⟩
    · rw [hc, List.nil_append]
      refine ⟨hsame', fun hnil t ht => ?_, fun hne t ht => ?_, ?_⟩
      · rcases t1.quiet hc t ht with h | h
        · exact (t2.quiet hnil t h).imp_left tried
        · exact .inr h
      · rcases t1.quiet hc t ht with h | h
        · exact t2.waited hne t h
        · exact h
      · rcases t2.once with h | ⟨c, h, hne, htried⟩ | ⟨h, hr⟩
        · exact .inl h
        · exact .inr (.inl ⟨c, h, hne, tried htried⟩)
        · exact .inr (.inr ⟨h, hr.same hsame hp⟩)
    · -- the retransmission called, so the handshake is pending and no rekey is due
      have hnone := hpend htried.1
      rw [hnone, List.append_nil]
      refine ⟨hsame', fun hnil => absurd (hc.symm.trans hnil) (List.cons_ne_nil _ _), t1.waited,
        .inr (.inl ⟨c, hc, hne, ?_⟩)⟩
      have := t2.quiet hnone _ htried
      rcases this with h | h
      · exact tried h
      · exact absurd h (by simp [rekeyTimeoutSec])
    · exact absurd (hc ▸ List.mem_singleton_self _) hfail
  · have hpeer := hkeep hr.idle
    have : rekeyCalls p env s₁ i ≠ [] := hdue (by rw [hpeer]; exact hr)
    simp [this]

theorem sendCalls_slot {env : InitiationEnv} {rekey : Bool} {c : CreateCall}
    (h : c ∈ sendCalls p s i env rekey) : c.slot = i := by
  unfold sendCalls at h
  split at h
  · cases h
  split at h
  · cases h
  · obtain ⟨x, -, rfl⟩ := List.mem_map.mp h
    rfl

theorem turnCalls_slot {env : TickEnv} {c : CreateCall} (h : c ∈ turnCalls p env s i) :
    c.slot = i := by
  unfold turnCalls at h
  split at h
  · rcases List.mem_append.mp h with h | h
    · unfold retransmitCalls at h
      simp only [] at h
      split at h
      · split at h
        · cases h
        · exact sendCalls_slot h
      · cases h
    · obtain ⟨x, -, h⟩ := List.mem_flatMap.mp h
      simp only [rekeyCalls] at h
      split at h
      · exact sendCalls_slot h
      · cases h
  · cases h

theorem callsTo_turn (i j : ℕ) (env : TickEnv) : callsTo i (turnCalls p env s j)
    = if j = i then turnCalls p env s i else [] := by
  unfold callsTo
  split
  · next e =>
    subst e
    exact List.filter_eq_self.mpr fun c hc => decide_eq_true (turnCalls_slot hc)
  · next e =>
    exact List.filter_eq_nil_iff.mpr fun c hc => by simpa [turnCalls_slot hc] using e

/-! ## Ticks -/

theorem callsFrom_others {env : TickEnv} : ∀ {is : List ℕ} {s s' : WgSession}
    {calls : List CreateCall}, i ∉ is → callsFrom p env is s = some (s', calls) →
    s'.peers i = s.peers i ∧ callsTo i calls = []
  | [], s, s', calls, _, hs => by
    simp only [callsFrom, Option.some.injEq, Prod.mk.injEq] at hs
    obtain ⟨rfl, rfl⟩ := hs
    exact ⟨rfl, rfl⟩
  | j :: is, s, s', calls, hi, hs => by
    simp only [callsFrom, Option.bind_eq_bind, Option.bind_eq_some_iff, Option.pure_def,
      Option.some.injEq, Prod.mk.injEq] at hs
    obtain ⟨⟨s₁, o₁⟩, h1, ⟨s₂, c₂⟩, h2, rfl, rfl⟩ := hs
    rw [List.mem_cons, not_or] at hi
    obtain ⟨hsame, hnone⟩ := callsFrom_others hi.2 h2
    have hturn : callsTo i (turnCalls p env s j) = [] :=
      (callsTo_turn i j env).trans (if_neg (Ne.symm hi.1))
    refine ⟨hsame.trans ((tickPeer_apart h1).peers i hi.1), ?_⟩
    rw [callsTo, List.filter_append]
    exact List.append_eq_nil_iff.mpr ⟨hturn, hnone⟩

/-- Over a tick a slot's peer sees its own turn only. -/
theorem callsFrom_turn {env : TickEnv} (hsent : env.now.time ≤ (env.initiation i).sent.time) :
    ∀ {is : List ℕ} {s s' : WgSession} {calls : List CreateCall}, is.Nodup → i ∈ is →
    callsFrom p env is s = some (s', calls) →
    Turn i env.now.time (s.peers i) (s'.peers i) (callsTo i calls)
      ∧ ((s.peers i).RekeyDue env.now.time → callsTo i calls ≠ [])
  | [], _, _, _, _, hi, _ => by cases hi
  | j :: is, s, s', calls, hnd, hi, hs => by
    simp only [callsFrom, Option.bind_eq_bind, Option.bind_eq_some_iff, Option.pure_def,
      Option.some.injEq, Prod.mk.injEq] at hs
    obtain ⟨⟨s₁, o₁⟩, h1, ⟨s₂, c₂⟩, h2, rfl, rfl⟩ := hs
    obtain ⟨hj, hnd'⟩ := List.nodup_cons.mp hnd
    have happ : callsTo i (turnCalls p env s j ++ c₂)
        = (if j = i then turnCalls p env s i else []) ++ callsTo i c₂ := by
      rw [← callsTo_turn]
      exact List.filter_append ..
    rw [happ]
    by_cases e : j = i
    · subst e
      obtain ⟨hsame, hnone⟩ := callsFrom_others hj h2
      rw [if_pos rfl, hnone, List.append_nil, hsame]
      exact tickPeer_turn hsent h1
    · have hsame : s₁.peers i = s.peers i := (tickPeer_apart h1).peers i (Ne.symm e)
      rw [if_neg e, List.nil_append, ← hsame]
      exact callsFrom_turn hsent hnd' ((List.mem_cons.mp hi).resolve_left (Ne.symm e)) h2

theorem tickCalls_turn {env : TickEnv} {calls : List CreateCall}
    (hsent : env.now.time ≤ (env.initiation i).sent.time) (hi : i < s.nPeers)
    (hs : tickCalls p s env = some (s', calls)) :
    Turn i env.now.time (s.peers i) (s'.peers i) (callsTo i calls)
      ∧ ((s.peers i).RekeyDue env.now.time → callsTo i calls ≠ []) :=
  callsFrom_turn hsent List.nodup_range (List.mem_range.mpr hi) hs

theorem tickCalls_nPeers {env : TickEnv} {calls : List CreateCall}
    (hs : tickCalls p s env = some (s', calls)) : s'.nPeers = s.nPeers := by
  have hstate := congrArg (Option.map Prod.fst) hs
  rw [Option.map_some, tickCalls_state] at hstate
  obtain ⟨⟨s₁, out⟩, h, rfl⟩ := Option.map_eq_some_iff.mp hstate
  exact (tickFrom_sameConfig h).nPeers

/-! ## Runs of ticks -/

theorem callTimes_cons (i : ℕ) (env : TickEnv) (envs : List TickEnv) (c : List CreateCall)
    (cs : List (List CreateCall)) : callTimes i (env :: envs) (c :: cs)
      = ((callsTo i c).map fun _ => env.now.time) ++ callTimes i envs cs := rfl

theorem mem_callTimes {envs : List TickEnv} {cs : List (List CreateCall)} {t : ℤ}
    (h : t ∈ callTimes i envs cs) : ∃ env ∈ envs, env.now.time = t := by
  obtain ⟨⟨env, calls⟩, hx, ht⟩ := List.mem_flatMap.mp h
  obtain ⟨-, -, rfl⟩ := List.mem_map.mp ht
  exact ⟨env, (List.of_mem_zip hx).1, rfl⟩

/-- The clock does not run backwards, from tick to tick and in each to the end of an attempt. -/
structure Forward (i : ℕ) (envs : List TickEnv) : Prop where
  ticks : envs.Pairwise fun env env' => env.now.time ≤ env'.now.time
  sent : ∀ env ∈ envs, env.now.time ≤ (env.initiation i).sent.time

theorem Forward.tail {env : TickEnv} {envs : List TickEnv} (h : Forward i (env :: envs)) :
    Forward i envs :=
  ⟨(List.pairwise_cons.mp h.ticks).2, fun env' he => h.sent env' (List.mem_cons_of_mem _ he)⟩

/-- No rekey of the slot fails less than a timeout before the next tick. -/
def Unhurried (i : ℕ) (envs : List TickEnv) (cs : List (List CreateCall)) : Prop :=
  (envs.zip cs).IsChain fun x y =>
    failedRekey i ∈ x.2 → x.1.now.time + rekeyTimeoutSec ≤ y.1.now.time

/-- After an attempt at `t` the next call waits until the timeout is over. -/
theorem calls_wait : ∀ {envs : List TickEnv} {s s' : WgSession} {cs : List (List CreateCall)} {t : ℤ},
    i < s.nPeers → Forward i envs → Run.exec (tickCalls p) s envs = some (s', cs) →
    ((s.peers i).Tried t ∨ ∀ env ∈ envs, t + rekeyTimeoutSec ≤ env.now.time) →
    ∀ t' ∈ callTimes i envs cs, t + rekeyTimeoutSec ≤ t'
  | [], s, s', cs, t, _, _, hs, _ => by
    simp only [Run.exec, Option.some.injEq, Prod.mk.injEq] at hs
    obtain ⟨-, rfl⟩ := hs
    exact fun _ h => by cases h
  | env :: envs, s, s', cs, t, hi, hf, hs, hwait => by
    simp only [Run.exec, Option.bind_eq_bind, Option.bind_eq_some_iff, Option.pure_def,
      Option.some.injEq, Prod.mk.injEq] at hs
    obtain ⟨⟨s₁, c₁⟩, h1, ⟨s₂, c₂⟩, h2, rfl, rfl⟩ := hs
    obtain ⟨hturn, -⟩ := tickCalls_turn (hf.sent env List.mem_cons_self) hi h1
    have hle := (List.pairwise_cons.mp hf.ticks).1
    have hlater : t + rekeyTimeoutSec ≤ env.now.time →
        ∀ env' ∈ env :: envs, t + rekeyTimeoutSec ≤ env'.now.time := fun h env' he => by
      rcases List.mem_cons.mp he with rfl | he
      · exact h
      · exact h.trans (hle env' he)
    have hdone : (∀ env' ∈ env :: envs, t + rekeyTimeoutSec ≤ env'.now.time) →
        ∀ t' ∈ callTimes i (env :: envs) (c₁ :: c₂), t + rekeyTimeoutSec ≤ t' := fun h t' ht' => by
      obtain ⟨env', he, rfl⟩ := mem_callTimes ht'
      exact h env' he
    rcases hwait with htried | hall
    · by_cases hc : callsTo i c₁ = []
      · rcases hturn.quiet hc t htried with h | h
        · rw [callTimes_cons, hc, List.map_nil, List.nil_append]
          exact calls_wait (by rw [tickCalls_nPeers h1]; exact hi) hf.tail h2 (.inl h)
        · exact hdone (hlater h)
      · exact hdone (hlater (hturn.waited hc t htried))
    · exact hdone hall

theorem mem_callsTo (calls : List CreateCall) : failedRekey i ∈ callsTo i calls
    ↔ failedRekey i ∈ calls := by
  simp [callsTo, failedRekey]

/-- After a failed rekey a slot's next call comes with the next tick. -/
theorem calls_after_rekey {env : TickEnv} {envs : List TickEnv} {cs : List (List CreateCall)}
    (hi : i < s.nPeers) (hf : Forward i (env :: envs)) (hdue : (s.peers i).RekeyDue env.now.time)
    (hs : Run.exec (tickCalls p) s envs = some (s', cs)) :
    (∀ t ∈ callTimes i envs cs, env.now.time + rekeyTimeoutSec ≤ t)
      ↔ ∀ y ∈ (envs.zip cs).head?, env.now.time + rekeyTimeoutSec ≤ y.1.now.time := by
  have hle := (List.pairwise_cons.mp hf.ticks).1
  rcases envs with _ | ⟨env', envs⟩
  · exact iff_of_true (fun _ h => by cases h) fun _ h => by cases h
  have hexec := hs
  simp only [Run.exec, Option.bind_eq_bind, Option.bind_eq_some_iff, Option.pure_def,
    Option.some.injEq, Prod.mk.injEq] at hexec
  obtain ⟨⟨s₁, c₁⟩, h1, ⟨s₂, c₂⟩, -, -, rfl⟩ := hexec
  rw [List.zip_cons_cons, List.head?_cons]
  constructor
  · intro hall y hy
    obtain rfl := Option.some.inj hy
    have hcall := (tickCalls_turn (hf.tail.sent env' List.mem_cons_self) hi h1).2
      (hdue.mono (hle env' List.mem_cons_self))
    refine hall _ ?_
    rw [callTimes_cons]
    obtain ⟨c, hc⟩ := List.exists_mem_of_ne_nil _ hcall
    exact List.mem_append_left _ (List.mem_map.mpr ⟨c, hc, rfl⟩)
  · intro hnext
    refine calls_wait hi hf.tail hs (.inr fun env'' he => ?_)
    have hfirst := hnext _ rfl
    rcases List.mem_cons.mp he with rfl | he
    · exact hfirst
    · exact hfirst.trans ((List.pairwise_cons.mp hf.tail.ticks).1 env'' he)

/-- From every state, over every sequence of ticks, a slot's calls are a timeout apart if and only
if none of its rekeys fails less than a timeout before the next tick. -/
theorem backoff_iff : ∀ {envs : List TickEnv} {s s' : WgSession} {cs : List (List CreateCall)},
    i < s.nPeers → Forward i envs → Run.exec (tickCalls p) s envs = some (s', cs) →
    ((callTimes i envs cs).Pairwise (fun t t' => t + rekeyTimeoutSec ≤ t') ↔ Unhurried i envs cs)
  | [], s, s', cs, _, _, hs => by
    simp only [Run.exec, Option.some.injEq, Prod.mk.injEq] at hs
    obtain ⟨-, rfl⟩ := hs
    exact iff_of_true .nil .nil
  | env :: envs, s, s', cs, hi, hf, hs => by
    simp only [Run.exec, Option.bind_eq_bind, Option.bind_eq_some_iff, Option.pure_def,
      Option.some.injEq, Prod.mk.injEq] at hs
    obtain ⟨⟨s₁, c₁⟩, h1, ⟨s₂, c₂⟩, h2, rfl, rfl⟩ := hs
    obtain ⟨hturn, -⟩ := tickCalls_turn (hf.sent env List.mem_cons_self) hi h1
    have hi₁ : i < s₁.nPeers := by rw [tickCalls_nPeers h1]; exact hi
    have ih := backoff_iff hi₁ hf.tail h2
    rw [callTimes_cons, Unhurried, List.zip_cons_cons, List.isChain_cons, ← Unhurried,
      List.pairwise_append, ih, ← mem_callsTo c₁]
    rcases hturn.once with hc | ⟨c, hc, hne, htried⟩ | ⟨hc, hdue⟩ <;> rw [hc]
    · simp
    · have hwait := calls_wait hi₁ hf.tail h2 (.inl htried)
      simp only [List.map_cons, List.map_nil, List.pairwise_singleton, true_and, List.mem_singleton,
        forall_eq]
      exact ⟨fun h => ⟨fun _ _ he => absurd he.symm hne, h.1⟩, fun h => ⟨h.2, hwait⟩⟩
    · have hnext := calls_after_rekey hi₁ hf hdue h2
      simp only [List.map_cons, List.map_nil, List.pairwise_singleton, true_and, List.mem_singleton,
        forall_eq, forall_const]
      rw [hnext, and_comm]

namespace Specimen

/-- A secret that no public key is made for. -/
def refused : Bytes := zeros 30 ++ [1, 64]

def fussy : Prims := { specimen with
  curve25519GeneratePublic := fun secret =>
    if secret = refused then none else specimen.curve25519GeneratePublic secret }

/-- A dials B and has the answer. -/
def fussyOpened : Option WgSession := do
  let a ← wgSessionCreate fussy (names hostB) (conf keyA keyB "Endpoint=b:51820\n")
  let b ← wgSessionCreate fussy (names hostA) (conf keyB keyA "")
  let (a, ini) ← sessionStep fussy a (.kick (dial 100 7))
  let (_, rsp) ← sessionStep fussy b (.handleUdp (sent ini) hostA 16 (intake 100 8))
  let (a, _) ← sessionStep fussy a (.handleUdp (sent rsp) hostB 16 (intake 100 9))
  pure a

/-- A tick at second `t` whose attempts draw the refused secret. -/
def refusedTick (t : ℕ) : TickEnv :=
  ⟨instant t, fun _ => { dial t 20 with secret := refused }, fun _ => ⟨instant t, instant t, true⟩⟩

end Specimen

theorem fussyOpened_reachable (h : fussyOpened = some s) :
    ReachableIf fussy (fun _ _ => True) s := by
  simp only [fussyOpened, Option.bind_eq_bind, Option.bind_eq_some_iff, Option.pure_def,
    Option.some.injEq] at h
  obtain ⟨a₀, ha, b₀, -, ⟨a₁, o₁⟩, h1, ⟨b₁, o₂⟩, -, ⟨a₂, o₃⟩, h3, rfl⟩ := h
  exact ⟨a₀, _, ⟨_, _, ha⟩, .cons trivial h1 (.cons trivial h3 (.nil _))⟩

/-- A peer that never answers is called every six seconds. -/
theorem backoff_dialled : ∃ s s' cs, dialled = some s
    ∧ Run.exec (tickCalls specimen) s [tickAt 106 8, tickAt 112 9] = some (s', cs)
    ∧ (callTimes 0 [tickAt 106 8, tickAt 112 9] cs).Pairwise (fun t t' => t + rekeyTimeoutSec ≤ t') := by
  have hrun : dialled.any (fun s => decide (s.nPeers = 1)
      && (Run.exec (tickCalls specimen) s [tickAt 106 8, tickAt 112 9]).any fun x =>
        decide (x.2 = [[⟨0, false, true⟩], [⟨0, false, true⟩]])) = true := by
    decide +kernel
  obtain ⟨s, hs, h⟩ := (Option.any_eq_true _ _).mp hrun
  obtain ⟨hn, hx⟩ := Bool.and_eq_true_iff.mp h
  obtain ⟨⟨s', cs⟩, hexec, hcs⟩ := (Option.any_eq_true _ _).mp hx
  have hf : Forward 0 [tickAt 106 8, tickAt 112 9] := ⟨by decide, by decide⟩
  refine ⟨s, s', cs, hs, hexec, (backoff_iff (by rw [of_decide_eq_true hn]; decide) hf hexec).mpr ?_⟩
  rw [show cs = _ from of_decide_eq_true hcs, Unhurried]
  decide

/-- A rekey that fails is tried again a second later. -/
theorem backoff_missed : ¬ ∀ s, ReachableIf fussy (fun _ _ => True) s → ∀ envs s' cs i,
    Forward i envs → Run.exec (tickCalls fussy) s envs = some (s', cs) →
    (callTimes i envs cs).Pairwise (fun t t' => t + rekeyTimeoutSec ≤ t') := by
  intro hall
  have hrun : fussyOpened.any (fun s =>
      (Run.exec (tickCalls fussy) s [refusedTick 300, refusedTick 301]).any fun x =>
        decide (callTimes 0 [refusedTick 300, refusedTick 301] x.2 = [300, 301])) = true := by
    decide +kernel
  obtain ⟨s, hs, hx⟩ := (Option.any_eq_true _ _).mp hrun
  obtain ⟨⟨s', cs⟩, hexec, htimes⟩ := (Option.any_eq_true _ _).mp hx
  have hf : Forward 0 [refusedTick 300, refusedTick 301] := ⟨by decide, by decide⟩
  have hpair := hall s (fussyOpened_reachable hs) _ s' cs 0 hf hexec
  rw [show callTimes _ _ cs = _ from of_decide_eq_true htimes] at hpair
  exact absurd hpair (by decide)

end PolarWG
