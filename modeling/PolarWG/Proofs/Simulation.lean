import PolarWG.Proofs.Creation
import PolarWG.Proofs.Data

/-!
# Runs of a session against runs of its ledger

A tick slot by slot, then every call, then runs.
-/

namespace PolarWG

variable {p : Prims} {rules : LedgerRules} {s s' s'' : WgSession}

/-! ## What one slot's turn leaves alone -/

/-- The same peers are in use, and the tries are the same. -/
structure Steady (s s' : WgSession) : Prop where
  v4 : s'.aipsV4 = s.aipsV4
  v6 : s'.aipsV6 = s.aipsV6
  active : ∀ i, (s'.peers i).active = (s.peers i).active

theorem Steady.refl (s : WgSession) : Steady s s := ⟨rfl, rfl, fun _ => rfl⟩

theorem Steady.trans (h : Steady s s') (h' : Steady s' s'') : Steady s s'' :=
  ⟨h'.v4.trans h.v4, h'.v6.trans h.v6, fun i => (h'.active i).trans (h.active i)⟩

theorem steady_modPeer {i : ℕ} {f : WgsPeer → WgsPeer}
    (hf : (f (s.peers i)).active = (s.peers i).active) : Steady s (s.modPeer i f) :=
  ⟨rfl, rfl, modPeer_of_fixed _ hf⟩

theorem steady_setNoise (s : WgSession) (l : NoiseLocal) : Steady s (s.setNoise l) :=
  ⟨rfl, rfl, fun _ => rfl⟩

/-- Only slot `i`, its remote's handshake and what nobody's handshake reads are different. -/
structure Apart (s s' : WgSession) (i : ℕ) : Prop where
  peers : ∀ j ≠ i, s'.peers j = s.peers j
  remote : (s'.peers i).remote = (s.peers i).remote
  remotes : ∀ r, (s.peers i).remote ≠ some r → s'.noise.remotes r = s.noise.remotes r
  nPeers : s'.nPeers = s.nPeers
  identity : s'.noise.lHasIdentity = s.noise.lHasIdentity
  steady : Steady s s'

theorem Apart.refl (s : WgSession) (i : ℕ) : Apart s s i :=
  ⟨fun _ _ => rfl, rfl, fun _ _ => rfl, rfl, rfl, .refl s⟩

theorem Apart.trans {i : ℕ} (h : Apart s s' i) (h' : Apart s' s'' i) : Apart s s'' i where
  peers := fun j hj => (h'.peers j hj).trans (h.peers j hj)
  remote := h'.remote.trans h.remote
  remotes := fun r hr => (h'.remotes r (h.remote ▸ hr)).trans (h.remotes r hr)
  nPeers := h'.nPeers.trans h.nPeers
  identity := h'.identity.trans h.identity
  steady := h.steady.trans h'.steady

theorem apart_modPeer {i : ℕ} {f : WgsPeer → WgsPeer}
    (hf : (f (s.peers i)).remote = (s.peers i).remote)
    (ha : (f (s.peers i)).active = (s.peers i).active) : Apart s (s.modPeer i f) i where
  peers := fun j hj => by rw [modPeer_peers, if_neg hj]
  remote := modPeer_of_fixed _ hf i
  remotes := fun _ _ => rfl
  nPeers := rfl
  identity := rfl
  steady := steady_modPeer ha

theorem apart_setNoise {i : ℕ} {l : NoiseLocal}
    (hr : ∀ r, (s.peers i).remote ≠ some r → l.remotes r = s.noise.remotes r)
    (hi : l.lHasIdentity = s.noise.lHasIdentity) : Apart s (s.setNoise l) i :=
  ⟨fun _ _ => rfl, rfl, hr, rfl, hi, steady_setNoise s l⟩

theorem sendInitiation_apart {i : ℕ} {env : InitiationEnv} {rc : Int} {out : List Upcall}
    (hs : wgsSendInitiation p s i env = some (rc, s', out)) : Apart s s' i := by
  unfold wgsSendInitiation at hs
  simp only [] at hs
  split at hs
  · simp only [Option.some.injEq, Prod.mk.injEq] at hs
    exact hs.2.1 ▸ .refl s i
  split at hs
  · simp only [Option.some.injEq, Prod.mk.injEq] at hs
    exact hs.2.1 ▸ .refl s i
  next r hr =>
  rw [Option.map_eq_some_iff] at hs
  obtain ⟨⟨l, res⟩, hc, hs⟩ := hs
  have hne : ∀ r', (s.peers i).remote ≠ some r' → r' ≠ r := fun r' h e => h (e ▸ hr)
  cases res with
  | none =>
    simp only [Prod.mk.injEq] at hs
    obtain ⟨hs', rfl⟩ := createInitiation_none hc
    rw [← hs.2.1]
    exact apart_setNoise (fun r' h => by rw [modRemote_remotes, if_neg (hne r' h)]) rfl
  | some res =>
    obtain ⟨idx, msg⟩ := res
    simp only [Prod.mk.injEq] at hs
    obtain ⟨-, -, hs', l₁, -, hl₁, -, rfl⟩ := createInitiation_some hc
    rw [← hs.2.1]
    refine (apart_modPeer rfl rfl).trans (apart_setNoise (fun r' h => ?_) ?_)
    · rw [modRemote_remotes, if_neg (hne r' (by simpa only [modPeer_peers, if_true] using h)),
        indexInsert_remotes hl₁, if_neg (hne r' (by simpa only [modPeer_peers, if_true] using h)),
        modRemote_remotes, if_neg (hne r' (by simpa only [modPeer_peers, if_true] using h))]
      rfl
    · exact congrArg Links.hasIdentity (links_indexInsert hl₁)

theorem nonceNext_keeps {l l' : NoiseLocal} {k : ℕ} {o : Option ℕ}
    (h : noiseKeypairNonceNext l k = (l', o)) : l'.remotes = l.remotes
      ∧ l'.lHasIdentity = l.lHasIdentity ∧ (l'.keypairs k).kpRefcnt = (l.keypairs k).kpRefcnt := by
  unfold noiseKeypairNonceNext at h
  simp only [] at h
  repeat' split at h
  all_goals
    simp only [Prod.mk.injEq] at h
    obtain ⟨rfl, -⟩ := h
    refine ⟨rfl, rfl, ?_⟩
    simp only [modKeypair_keypairs, if_true]

theorem encap_apart {i : ℕ} {plain : Bytes} {env : EncapEnv} {rc : Int} {out : List Upcall}
    (hs : wgsEncap p s i plain env = (rc, s', out)) :
    Apart s s' i ∧ s'.noise.remotes = s.noise.remotes := by
  unfold wgsEncap at hs
  simp only [] at hs
  generalize (if (plain.length + 15) / 16 * 16 = 0 then 16 else (plain.length + 15) / 16 * 16)
    = padded at hs
  have same : Apart s s i ∧ s.noise.remotes = s.noise.remotes := ⟨.refl s i, rfl⟩
  split at hs
  · simp only [Prod.mk.injEq] at hs
    exact hs.2.1 ▸ same
  split at hs
  · simp only [Prod.mk.injEq] at hs
    exact hs.2.1 ▸ same
  split at hs
  · simp only [Prod.mk.injEq] at hs
    exact hs.2.1 ▸ same
  next r hr =>
  have noise : ∀ l : NoiseLocal, l.remotes = s.noise.remotes →
      l.lHasIdentity = s.noise.lHasIdentity →
      Apart s (s.setNoise l) i ∧ (s.setNoise l).noise.remotes = s.noise.remotes := fun l h1 h2 =>
    ⟨apart_setNoise (fun r _ => congrFun h1 r) h2, h1⟩
  split at hs
  · next l hl =>
    simp only [Prod.mk.injEq] at hs
    rw [← hs.2.1]
    unfold noiseKeypairCurrent at hl
    repeat' split at hl
    all_goals
      simp only [Prod.mk.injEq, reduceCtorEq, and_false, and_true] at hl
      try exact hl ▸ noise _ rfl rfl
  next l k hl =>
  have hc : (s.noise.keypairs k).kpRefcnt ≠ 0 := by
    unfold noiseKeypairCurrent at hl
    repeat' split at hl
    all_goals simp_all
  obtain ⟨-, -, -, rfl⟩ := keypairCurrent_some hl
  -- the reference taken is not the last
  have hput : ∀ l' o, noiseKeypairNonceNext (noiseKeypairRef s.noise k) k = (l', o) →
      (noiseKeypairPut l' k).remotes = s.noise.remotes
        ∧ (noiseKeypairPut l' k).lHasIdentity = s.noise.lHasIdentity := fun l' o hn => by
    obtain ⟨h1, h2, h3⟩ := nonceNext_keeps hn
    rw [noiseKeypairRef, modKeypair_keypairs, if_pos rfl] at h3
    unfold noiseKeypairPut
    rw [if_neg (by rw [h3]; simpa using hc)]
    exact ⟨h1, h2⟩
  split at hs
  · next l' hn =>
    simp only [Prod.mk.injEq] at hs
    exact hs.2.1 ▸ noise _ (hput _ _ hn).1 (hput _ _ hn).2
  next l' nonce hn =>
  split at hs
  · simp only [Prod.mk.injEq] at hs
    exact hs.2.1 ▸ noise _ (hput _ _ hn).1 (hput _ _ hn).2
  split at hs
  · simp only [Prod.mk.injEq] at hs
    exact hs.2.1 ▸ noise _ (hput _ _ hn).1 (hput _ _ hn).2
  · simp only [Prod.mk.injEq] at hs
    rw [← hs.2.1]
    refine ⟨(apart_modPeer rfl rfl).trans
      (apart_setNoise (fun r _ => congrFun (hput _ _ hn).1 r) (hput _ _ hn).2), (hput _ _ hn).1⟩

/-! ## Ticks -/

theorem tickRetransmit_apart {env : TickEnv} {i : ℕ} {out : List Upcall}
    (hs : tickRetransmit p env s i = some (s', out)) : Apart s s' i := by
  unfold tickRetransmit at hs
  simp only [] at hs
  split at hs
  · split at hs
    · simp only [Option.some.injEq, Prod.mk.injEq] at hs
      exact hs.1 ▸ (apart_modPeer rfl rfl).trans (apart_modPeer rfl rfl)
    · obtain ⟨⟨rc, s₁, o⟩, h1, h2⟩ := Option.map_eq_some_iff.mp hs
      simp only [Prod.mk.injEq] at h2
      exact h2.1 ▸ (apart_modPeer rfl rfl).trans (sendInitiation_apart h1)
  · simp only [Option.some.injEq, Prod.mk.injEq] at hs
    exact hs.1 ▸ .refl s i

theorem tickRekey_apart {env : TickEnv} {i : ℕ} {out : List Upcall}
    (hs : tickRekey p env s i = some (s', out)) : Apart s s' i := by
  unfold tickRekey at hs
  simp only [] at hs
  split at hs
  · obtain ⟨⟨rc, s₁, o⟩, h1, h2⟩ := Option.map_eq_some_iff.mp hs
    simp only [Prod.mk.injEq] at h2
    exact h2.1 ▸ (apart_modPeer rfl rfl).trans (sendInitiation_apart h1)
  · simp only [Option.some.injEq, Prod.mk.injEq] at hs
    exact hs.1 ▸ .refl s i

theorem tickKeepalive_apart {env : TickEnv} {i : ℕ} {out : List Upcall}
    (hs : tickKeepalive p env s i = (s', out)) : Apart s s' i := by
  unfold tickKeepalive at hs
  split at hs
  · obtain ⟨rc, hs⟩ : ∃ rc, wgsEncap p s i [] (env.keepalive i) = (rc, s', out) :=
      ⟨_, Prod.ext rfl hs⟩
    exact (encap_apart hs).1
  · simp only [Prod.mk.injEq] at hs
    exact hs.1 ▸ .refl s i

/-- The three parts of a slot's turn. -/
theorem tickPeer_some {env : TickEnv} {i : ℕ} {out : List Upcall}
    (hs : tickPeer p env s i = some (s', out)) :
    ¬ (s.peers i).active ∧ s' = s ∧ out = [] ∨
      (s.peers i).active ∧ ∃ s₁ s₂ o₁ o₂ o₃, tickRetransmit p env s i = some (s₁, o₁)
        ∧ tickRekey p env s₁ i = some (s₂, o₂) ∧ tickKeepalive p env s₂ i = (s', o₃)
        ∧ out = o₁ ++ o₂ ++ o₃ := by
  unfold tickPeer at hs
  split at hs
  · next ha =>
    simp only [Option.bind_eq_bind, Option.bind_eq_some_iff, Option.pure_def, Option.some.injEq,
      Prod.mk.injEq] at hs
    obtain ⟨⟨s₁, o₁⟩, h1, ⟨s₂, o₂⟩, h2, h3, h4⟩ := hs
    exact .inr ⟨ha, s₁, s₂, o₁, o₂, _, h1, h2, Prod.ext h3 rfl, h4.symm⟩
  · next ha =>
    simp only [Option.some.injEq, Prod.mk.injEq] at hs
    exact .inl ⟨ha, hs.1.symm, hs.2.symm⟩

theorem tickPeer_apart {env : TickEnv} {i : ℕ} {out : List Upcall}
    (hs : tickPeer p env s i = some (s', out)) : Apart s s' i := by
  obtain ⟨-, rfl, -⟩ | ⟨-, s₁, s₂, o₁, o₂, o₃, h1, h2, h3, -⟩ := tickPeer_some hs
  · exact .refl s' i
  · exact ((tickRetransmit_apart h1).trans (tickRekey_apart h2)).trans (tickKeepalive_apart h3)

/-- Giving a peer up needs the rules' leave. -/
def MayQuit (rules : LedgerRules) (s : WgSession) (i : ℕ) : Prop :=
  ∀ L t, s.ledger.tenants i = some t → L.tenants i = some t → t.pending →
    maxHandshakeAttempts ≤ t.attempts → rules.quit L i

theorem tickRetransmit_refines (h : Accounted p s) {env : TickEnv} {i : ℕ} {out : List Upcall}
    (ha : (s.peers i).active) (hq : MayQuit rules s i)
    (hs : tickRetransmit p env s i = some (s', out)) : Refines p rules s s' := by
  unfold tickRetransmit at hs
  simp only [] at hs
  split at hs
  · next hp =>
    have hr : Refines p rules s (s.modPeer i fun peer => { peer with hsSentAt := env.now.time }) :=
      h.quietPeer rfl rfl rfl
    have hact : ((s.modPeer i fun peer => { peer with hsSentAt := env.now.time }).peers i).active := by
      simpa only [modPeer_peers, if_true] using ha
    split at hs
    · next hn =>
      simp only [Option.some.injEq, Prod.mk.injEq] at hs
      rw [← hs.1]
      obtain ⟨r, t, -, ht, -, htp, -, hta, -⟩ := tenant_of_active hr.1 hact
      refine hr.trans (hr.1.loudPeer (g := fun t => { t with pending := false, attempts := 0 })
        (.giveUp ht (hta ▸ hn) (hq _ t ?_ ht ?_ (hta ▸ hn))) rfl rfl fun _ => rfl)
      · rw [← ht, ledger_modPeer_fixed rfl]
      · rw [htp]
        simpa only [modPeer_peers, if_true] using hp.1
    · obtain ⟨⟨rc, s₁, o⟩, h1, h2⟩ := Option.map_eq_some_iff.mp hs
      simp only [Prod.mk.injEq] at h2
      exact h2.1 ▸ hr.trans (sendInitiation_refines hr.1 hact h1)
  · simp only [Option.some.injEq, Prod.mk.injEq] at hs
    exact hs.1 ▸ .refl h

theorem tickRekey_refines (h : Accounted p s) {env : TickEnv} {i : ℕ} {out : List Upcall}
    (ha : (s.peers i).active) (hs : tickRekey p env s i = some (s', out)) :
    Refines p rules s s' := by
  unfold tickRekey at hs
  simp only [] at hs
  split at hs
  · next hp =>
    obtain ⟨⟨rc, s₁, o⟩, h1, h2⟩ := Option.map_eq_some_iff.mp hs
    simp only [Prod.mk.injEq] at h2
    obtain ⟨r, t, -, ht, -, htp, -, -, htb, -⟩ := tenant_of_active h ha
    have hr : Refines p rules s (s.modPeer i fun peer => { peer with hsAttempts := 0 }) :=
      h.loudPeer (g := fun t => { t with attempts := 0 })
        (.restart ht (htp ▸ hp.1) (htb ▸ hp.2.1)) rfl rfl fun _ => rfl
    exact h2.1 ▸ hr.trans (sendInitiation_refines hr.1
      (by simpa only [modPeer_peers, if_true] using ha) h1)
  · simp only [Option.some.injEq, Prod.mk.injEq] at hs
    exact hs.1 ▸ .refl h

theorem tickKeepalive_refines (h : Accounted p s) {env : TickEnv} {i : ℕ} {out : List Upcall}
    (hs : tickKeepalive p env s i = (s', out)) : Refines p rules s s' := by
  unfold tickKeepalive at hs
  split at hs
  · obtain ⟨rc, hs⟩ : ∃ rc, wgsEncap p s i [] (env.keepalive i) = (rc, s', out) :=
      ⟨_, Prod.ext rfl hs⟩
    exact encap_refines h hs
  · simp only [Prod.mk.injEq] at hs
    exact hs.1 ▸ .refl h

theorem Refines.active (h : Accounted p s) (hr : Refines p rules s s') {i : ℕ} (ha : Apart s s' i)
    (hi : (s.peers i).active) : (s'.peers i).active := by
  rw [hr.1.remote, ha.remote, ← h.remote]
  exact hi

theorem tickPeer_refines (h : Accounted p s) {env : TickEnv} {i : ℕ} {out : List Upcall}
    (hq : MayQuit rules s i) (hs : tickPeer p env s i = some (s', out)) : Refines p rules s s' := by
  obtain ⟨-, rfl, -⟩ | ⟨ha, s₁, s₂, o₁, o₂, o₃, h1, h2, h3, -⟩ := tickPeer_some hs
  · exact .refl h
  · have hr₁ := tickRetransmit_refines h ha hq h1
    have hr₂ : Refines p rules s₁ s₂ :=
      tickRekey_refines hr₁.1 (hr₁.active h (tickRetransmit_apart h1) ha) h2
    exact hr₁.trans (hr₂.trans (tickKeepalive_refines hr₂.1 h3))

theorem tickFrom_refines {env : TickEnv} : ∀ {is : List ℕ} {s s' : WgSession} {out : List Upcall},
    Accounted p s → is.Nodup → (∀ i ∈ is, MayQuit rules s i) →
    tickFrom p env is s = some (s', out) → Refines p rules s s'
  | [], s, s', _, h, _, _, hs => by
    simp only [tickFrom, Option.some.injEq, Prod.mk.injEq] at hs
    exact hs.1 ▸ .refl h
  | i :: is, s, s', _, h, hn, hq, hs => by
    simp only [tickFrom, Option.bind_eq_bind, Option.bind_eq_some_iff, Option.pure_def,
      Option.some.injEq, Prod.mk.injEq] at hs
    obtain ⟨⟨s₁, o₁⟩, h1, ⟨s₂, o₂⟩, h2, rfl, -⟩ := hs
    obtain ⟨hi, hn⟩ := List.nodup_cons.mp hn
    have hr := tickPeer_refines h (hq i (by simp)) h1
    refine hr.trans (tickFrom_refines hr.1 hn (fun j hj L t ht => ?_) h2)
    -- an earlier slot's turn leaves this tenant as it is
    refine hq j (by simp [hj]) L t ?_
    change (s₁.peers j).tenant = some t at ht
    rwa [(tickPeer_apart h1).peers j (by rintro rfl; exact hi hj)] at ht

theorem kick_refines (h : Accounted p s) {env : InitiationEnv} {rc : Int} {out : List Upcall}
    (hs : wgSessionKick p s env = some (rc, s', out)) : Refines p rules s s' := by
  unfold wgSessionKick at hs
  split at hs
  · simp only [Option.some.injEq, Prod.mk.injEq] at hs
    exact hs.2.1 ▸ .refl h
  · next i hi =>
    have := List.find?_some hi
    simp only [decide_eq_true_eq] at this
    exact sendInitiation_refines h this.1 hs

/-! ## Calls -/

/-- What the rules ask of a call. -/
def CallAllowed (p : Prims) (rules : LedgerRules) (s : WgSession) : Call → Prop
  | .handleUdp _ _ srcLen env => rules.source srcLen ∧ rules.clock env.initiation.finish.time
      ∧ rules.clock env.response.finish.time
  | .tick _ => ∀ i, MayQuit rules s i
  | .setUapi resolve text =>
    SetAllowed p resolve (LineAllowed rules) (strtok '\n' (cstr text)) s none
  | _ => True

theorem handleUdp_refines (h : Accounted p s) {bytes : Bytes} {src : Sockaddr} {srcLen : ℕ}
    {env : UdpEnv} {rc : Int} {out : List Upcall} (hstall : rules.stall ∨ p.Curve)
    (hok : CallAllowed p rules s (.handleUdp bytes src srcLen env))
    (hs : wgSessionHandleUdp p s bytes src srcLen env = some (rc, s', out)) :
    Refines p rules s s' := by
  obtain ⟨hsrc, hini, hres⟩ := hok
  unfold wgSessionHandleUdp at hs
  simp only [] at hs
  split at hs
  · simp only [Option.some.injEq, Prod.mk.injEq] at hs
    exact hs.2.1 ▸ .refl h
  split at hs
  · exact handleData_refines h hsrc (Option.some.inj hs)
  split at hs
  · exact handleInitiation_refines h hstall hini hs
  split at hs
  · exact handleResponse_refines h hres (Option.some.inj hs)
  split at hs
  · exact handleCookie_refines h (Option.some.inj hs)
  · simp only [Option.some.injEq, Prod.mk.injEq] at hs
    exact hs.2.1 ▸ .refl h

theorem handleTun_refines (h : Accounted p s) {bytes : Bytes} {env : EncapEnv} {rc : Int}
    {out : List Upcall} (hs : wgSessionHandleTun p s bytes env = (rc, s', out)) :
    Refines p rules s s' := by
  unfold wgSessionHandleTun at hs
  split at hs
  · simp only [Prod.mk.injEq] at hs
    exact hs.2.1 ▸ .refl h
  split at hs
  · simp only [Prod.mk.injEq] at hs
    exact hs.2.1 ▸ .refl h
  · exact encap_refines h hs

theorem sessionStep_refines (h : Accounted p s) {call : Call} {out : List Upcall}
    (hstall : rules.stall ∨ p.Curve) (hok : CallAllowed p rules s call)
    (hs : sessionStep p s call = some (s', out)) : Refines p rules s s' := by
  cases call with
  | handleUdp bytes src srcLen env =>
    obtain ⟨⟨rc, s₁, o⟩, h1, h2⟩ := Option.map_eq_some_iff.mp hs
    simp only [Prod.mk.injEq] at h2
    exact h2.1 ▸ handleUdp_refines h hstall hok h1
  | handleTun bytes env =>
    obtain ⟨rc, hs⟩ : ∃ rc, wgSessionHandleTun p s bytes env = (rc, s', out) :=
      ⟨_, Prod.ext rfl (Option.some.inj hs)⟩
    exact handleTun_refines h hs
  | tick env => exact tickFrom_refines h List.nodup_range (fun i _ => hok i) hs
  | kick env =>
    obtain ⟨⟨rc, s₁, o⟩, h1, h2⟩ := Option.map_eq_some_iff.mp hs
    simp only [Prod.mk.injEq] at h2
    exact h2.1 ▸ kick_refines h h1
  | setUapi resolve text =>
    simp only [sessionStep, Option.some.injEq, Prod.mk.injEq] at hs
    exact hs.1 ▸ setUapi_refines h hok

/-! ## Runs -/

/-- A run whose calls the rules allow is a run of the ledger. -/
theorem run_refines (h : Accounted p s) {calls : List Call} (hstall : rules.stall ∨ p.Curve)
    (hrun : Run (sessionStep p) (CallAllowed p rules) s calls s') : Refines p rules s s' :=
  hrun.simulates WgSession.ledger (Accounted p) h fun _ _ _ _ h hok hs =>
    sessionStep_refines h hstall hok hs

theorem SetAllowed.mono {resolve : Resolver} {ok ok' : WgSession → Option ℕ → Text → Text → Prop}
    (h : ∀ s cur key val, ok s cur key val → ok' s cur key val) : ∀ {lines s cur},
    SetAllowed p resolve ok lines s cur → SetAllowed p resolve ok' lines s cur
  | [], _, _, _ => trivial
  | line :: rest, s, cur, hok => by
    obtain ⟨h1, h2⟩ := hok
    refine ⟨fun key val hl => h _ _ _ _ (h1 key val hl), ?_⟩
    split
    · trivial
    · next s' cur' hs =>
      rw [hs] at h2
      exact h2.mono h

theorem setAllowed_of_forall {resolve : Resolver} {ok : WgSession → Option ℕ → Text → Text → Prop}
    (h : ∀ s cur key val, ok s cur key val) : ∀ lines s cur, SetAllowed p resolve ok lines s cur
  | [], _, _ => trivial
  | line :: rest, s, cur => by
    refine ⟨fun key val _ => h s cur key val, ?_⟩
    split
    · trivial
    · exact setAllowed_of_forall h rest _ _

/-- A guard on the lines of requests, and rules on nothing else. -/
theorem callAllowed_of_guarded {ok : WgSession → Option ℕ → Text → Text → Prop}
    (hline : ∀ s cur key val, ok s cur key val → LineAllowed rules s cur key val)
    (hquit : ∀ L i, rules.quit L i) (hclock : ∀ t, rules.clock t) (hsource : ∀ n, rules.source n)
    {call : Call} (h : Guarded p ok s call) : CallAllowed p rules s call := by
  cases call with
  | handleUdp => exact ⟨hsource _, hclock _, hclock _⟩
  | handleTun => trivial
  | tick => exact fun i L t _ _ _ _ => hquit L i
  | kick => trivial
  | setUapi resolve text => exact SetAllowed.mono hline h

/-- What holds of founding ledgers and is kept by the steps the rules allow holds in every run that
keeps to the rules. -/
theorem reachable_invariant (rules : LedgerRules) {ok : WgSession → Call → Prop} (hstall : rules.stall ∨ p.Curve)
    (hok : ∀ s call, ok s call → CallAllowed p rules s call) (Inv : Ledger → Prop)
    (hfound : ∀ L : Ledger, L.Founding → Inv L)
    (hstep : ∀ L L', LedgerInv p L → Inv L → LedgerStep p rules L L' → Inv L')
    (h : ReachableIf p ok s) : Accounted p s ∧ Inv s.ledger := by
  obtain ⟨s₀, calls, h0, hrun⟩ := h
  obtain ⟨hacc, hf⟩ := created_accounted h0
  obtain ⟨hacc', hsteps⟩ := run_refines hacc hstall (hrun.mono hok)
  exact ⟨hacc', (hacc.ledger.steps_invariant Inv (hfound _ hf) hstep hsteps).2⟩

/-- Rules on removals only. -/
def LedgerRules.removing (ok : Ledger → ℕ → Prop) : LedgerRules := { LedgerRules.all with removal := ok }

theorem reachable_removing {okS : WgSession → ℕ → Prop} (ok : Ledger → ℕ → Prop)
    (hok : ∀ s i, okS s i → ok s.ledger i) (Inv : Ledger → Prop)
    (hfound : ∀ L : Ledger, L.Founding → Inv L)
    (hstep : ∀ L L', LedgerInv p L → Inv L → LedgerStep p (.removing ok) L L' → Inv L')
    (h : ReachableIf p (Guarded p (OnRemoval okS)) s) : Accounted p s ∧ Inv s.ledger :=
  reachable_invariant (.removing ok) (.inl trivial)
    (fun _ _ => callAllowed_of_guarded
      (fun _ _ _ _ h => ⟨fun hk hv i hc => hok _ _ (h hk hv i hc), fun _ _ _ _ _ _ => trivial,
        fun _ _ _ => trivial⟩)
      (fun _ _ => trivial) (fun _ => trivial) fun _ => trivial)
    Inv hfound hstep h

/-- Rules on additions only. -/
def LedgerRules.adding (ok : Ledger → ℕ → Prop) : LedgerRules := { LedgerRules.all with addition := ok }

theorem reachable_adding {okS : WgSession → ℕ → Prop} (ok : Ledger → ℕ → Prop)
    (hok : ∀ s i, okS s i → ok s.ledger i) (Inv : Ledger → Prop)
    (hfound : ∀ L : Ledger, L.Founding → Inv L)
    (hstep : ∀ L L', LedgerInv p L → Inv L → LedgerStep p (.adding ok) L L' → Inv L')
    (h : ReachableIf p (Guarded p (OnAddition okS)) s) : Accounted p s ∧ Inv s.ledger :=
  reachable_invariant (.adding ok) (.inl trivial)
    (fun _ _ => callAllowed_of_guarded
      (fun _ _ _ _ h => ⟨fun _ _ _ _ => trivial,
        fun hk pk hpk hf i hi => hok _ _ (h hk pk hpk hf i hi), fun _ _ _ => trivial⟩)
      (fun _ _ => trivial) (fun _ => trivial) fun _ => trivial)
    Inv hfound hstep h

theorem reachable_of_exec {ok : WgSession → Call → Prop} {resolve : Resolver} {text : Text}
    {calls : List Call} {out : List (List Upcall)} (hok : ∀ s, ∀ call ∈ calls, ok s call)
    (h : (wgSessionCreate p resolve text).bind (fun s => Run.exec (sessionStep p) s calls)
      = some (s, out)) : ReachableIf p ok s := by
  obtain ⟨s₀, h0, hrun⟩ := Option.bind_eq_some_iff.mp h
  exact ⟨s₀, calls, ⟨resolve, text, h0⟩, Run.of_exec hok hrun⟩

/-- Every call is allowed where there are no rules. -/
theorem callAllowed_all (s : WgSession) (call : Call) : CallAllowed p .all s call := by
  cases call with
  | handleUdp => exact ⟨trivial, trivial, trivial⟩
  | handleTun => trivial
  | tick => exact fun _ _ _ _ _ _ _ => trivial
  | kick => trivial
  | setUapi resolve text =>
    exact setAllowed_of_forall (fun _ _ _ _ =>
      ⟨fun _ _ _ _ => trivial, fun _ _ _ _ _ _ => trivial, fun _ _ _ => trivial⟩) _ _ _

theorem reachable_accounted {ok : WgSession → Call → Prop} (h : ReachableIf p ok s) :
    Accounted p s :=
  (reachable_invariant .all (.inl trivial) (fun s call _ => callAllowed_all s call)
    (fun _ => True) (fun _ _ => trivial) (fun _ _ _ _ _ => trivial) h).1

end PolarWG
