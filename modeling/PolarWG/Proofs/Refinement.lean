import PolarWG.Run
import PolarWG.Proofs.Messages
import PolarWG.Proofs.Ledger

/-!
# A session against its ledger

Every call of a session is steps of its ledger, and keeps the counts and the index table in
accordance with it.
-/

namespace PolarWG

/-- The references that are not the Noise layer's own: the slots' to their remotes. -/
def Links.refs (L : Links) : Refs := ⟨fun r => (L.remotes r).enabled.toNat, 0, [], none⟩

structure Accounted (p : Prims) (s : WgSession) : Prop where
  counted : Counted s.noise s.noise.links.refs
  ledger : LedgerInv p s.ledger
  remote : ∀ i, (s.peers i).active = (s.peers i).remote.isSome
  range : ∀ i, (s.peers i).active → i < s.nPeers
  small : s.nPeers ≤ wgsMaxPeers

/-- From an accounted session to an accounted session by steps of the ledger. -/
def Refines (p : Prims) (rules : LedgerRules) (s s' : WgSession) : Prop :=
  Accounted p s' ∧ Relation.ReflTransGen (LedgerStep p rules) s.ledger s'.ledger

variable {p : Prims} {rules : LedgerRules} {s s' s'' : WgSession}

/-- The rules of an unguarded run. -/
def LedgerRules.all : LedgerRules where
  removal := fun _ _ => True
  addition := fun _ _ => True
  endpoint := fun _ _ => True
  quit := fun _ _ => True
  stall := True
  clock := fun _ => True
  source := fun _ => True

theorem Refines.refl (h : Accounted p s) : Refines p rules s s := ⟨h, .refl⟩

theorem Refines.trans (h : Refines p rules s s') (h' : Refines p rules s' s'') :
    Refines p rules s s'' := ⟨h'.1, h.2.trans h'.2⟩

theorem LedgerInv.steps_invariant {L L' : Ledger} (Inv : Ledger → Prop) (h : LedgerInv p L)
    (h' : Inv L) (hstep : ∀ L L', LedgerInv p L → Inv L → LedgerStep p rules L L' → Inv L')
    (hs : Relation.ReflTransGen (LedgerStep p rules) L L') : LedgerInv p L' ∧ Inv L' := by
  induction hs with
  | refl => exact ⟨h, h'⟩
  | tail _ hs ih => exact ⟨ih.1.step hs, hstep _ _ ih.1 ih.2 hs⟩

theorem LedgerInv.steps {L L' : Ledger} (h : LedgerInv p L)
    (hs : Relation.ReflTransGen (LedgerStep p rules) L L') : LedgerInv p L' :=
  (h.steps_invariant (fun _ => True) trivial (fun _ _ _ _ _ => trivial) hs).1

/-- A call that adds and removes no peer. -/
theorem Accounted.refines (h : Accounted p s) (hc : Counted s'.noise s'.noise.links.refs)
    (hs : Relation.ReflTransGen (LedgerStep p rules) s.ledger s'.ledger)
    (hn : s'.nPeers = s.nPeers) (ha : ∀ i, (s'.peers i).active = (s.peers i).active)
    (hr : ∀ i, (s'.peers i).remote = (s.peers i).remote) : Refines p rules s s' := by
  refine ⟨⟨hc, h.ledger.steps hs, fun i => ?_, fun i => ?_, hn ▸ h.small⟩, hs⟩
  · rw [ha, hr]
    exact h.remote i
  · rw [ha, hn]
    exact h.range i

/-! ## Updates -/

theorem modPeer_peers (s : WgSession) (i j : ℕ) (f : WgsPeer → WgsPeer) :
    (s.modPeer i f).peers j = if j = i then f (s.peers i) else s.peers j := by
  simp only [WgSession.modPeer, Function.update_apply]

theorem modPeer_of_fixed {i : ℕ} {f : WgsPeer → WgsPeer} {α : Type*} (g : WgsPeer → α)
    (h : g (f (s.peers i)) = g (s.peers i)) (j : ℕ) : g ((s.modPeer i f).peers j) = g (s.peers j) := by
  rw [modPeer_peers]
  split
  · next e => rw [h, e]
  · rfl

@[simp] theorem modPeer_noise (s : WgSession) (i : ℕ) (f : WgsPeer → WgsPeer) :
    (s.modPeer i f).noise = s.noise := rfl

@[simp] theorem setNoise_noise (s : WgSession) (l : NoiseLocal) : (s.setNoise l).noise = l := rfl

@[simp] theorem setNoise_peers (s : WgSession) (l : NoiseLocal) :
    (s.setNoise l).peers = s.peers := rfl

theorem ledger_modPeer {i : ℕ} {f : WgsPeer → WgsPeer} {g : Tenant → Tenant}
    (h : (f (s.peers i)).tenant = (s.peers i).tenant.map g) :
    (s.modPeer i f).ledger = s.ledger.modTenant i g := by
  simp only [WgSession.ledger, Ledger.modTenant, modPeer_noise, Ledger.mk.injEq, true_and]
  funext j
  rw [modPeer_peers, Function.update_apply]
  split
  · exact h
  · rfl

theorem ledger_modPeer_fixed {i : ℕ} {f : WgsPeer → WgsPeer}
    (h : (f (s.peers i)).tenant = (s.peers i).tenant) : (s.modPeer i f).ledger = s.ledger := by
  simp only [WgSession.ledger, modPeer_noise, Ledger.mk.injEq, true_and]
  funext j
  exact modPeer_of_fixed WgsPeer.tenant h j

theorem ledger_of_setNoise (s : WgSession) (l : NoiseLocal) :
    (s.setNoise l).ledger = { s.ledger with links := l.links } := rfl

theorem ledger_setNoise {l : NoiseLocal} (h : l.links = s.noise.links) :
    (s.setNoise l).ledger = s.ledger := by
  simp only [WgSession.ledger, setNoise_noise, setNoise_peers, h]

/-- The tenant of a slot in use. -/
def WgsPeer.tenantOf (peer : WgsPeer) (r : ℕ) : Tenant :=
  ⟨r, peer.pubkey, peer.hsPending, peer.hsLocalIdx, peer.hsAttempts, peer.keypairBirth,
    peer.hasEndpoint, peer.endpointLen⟩

theorem tenant_map {peer peer' : WgsPeer} {g : Tenant → Tenant} (ha : peer'.active = peer.active)
    (hr : peer'.remote = peer.remote) (hg : ∀ r, g (peer.tenantOf r) = peer'.tenantOf r) :
    peer'.tenant = peer.tenant.map g := by
  unfold WgsPeer.tenant
  rw [ha, hr]
  split
  · rw [Option.map_map]
    exact congrArg (Option.map · peer.remote) (funext fun r => (hg r).symm)
  · rfl

theorem tenant_of_active {i : ℕ} (h : Accounted p s) (ha : (s.peers i).active) :
    ∃ r t, (s.peers i).remote = some r ∧ s.ledger.tenants i = some t ∧ t.remote = r
      ∧ t.pending = (s.peers i).hsPending ∧ t.hsIdx = (s.peers i).hsLocalIdx
      ∧ t.attempts = (s.peers i).hsAttempts ∧ t.birth = (s.peers i).keypairBirth
      ∧ t.pubkey = (s.peers i).pubkey ∧ t.hasEndpoint = (s.peers i).hasEndpoint
      ∧ t.endpointLen = (s.peers i).endpointLen := by
  have hr := h.remote i
  rw [ha, eq_comm, Option.isSome_iff_exists] at hr
  obtain ⟨r, hr⟩ := hr
  have ht : s.ledger.tenants i = some ⟨r, (s.peers i).pubkey, (s.peers i).hsPending,
      (s.peers i).hsLocalIdx, (s.peers i).hsAttempts, (s.peers i).keypairBirth,
      (s.peers i).hasEndpoint, (s.peers i).endpointLen⟩ := by
    simp only [WgSession.ledger, WgsPeer.tenant, ha, hr, if_true, Option.map_some]
  exact ⟨r, _, hr, ht, rfl, rfl, rfl, rfl, rfl, rfl, rfl, rfl⟩

theorem active_of_tenant {i : ℕ} {t : Tenant} (h : s.ledger.tenants i = some t) :
    (s.peers i).active ∧ (s.peers i).remote = some t.remote := by
  simp only [WgSession.ledger, WgsPeer.tenant] at h
  split at h
  · next ha =>
    obtain ⟨r, hr, rfl⟩ := Option.map_eq_some_iff.mp h
    exact ⟨ha, hr⟩
  · cases h

theorem refs_modRemote {L : Links} {r : ℕ} {f : RemoteLink → RemoteLink}
    (h : (f (L.remotes r)).enabled = (L.remotes r).enabled) : (L.modRemote r f).refs = L.refs := by
  simp only [Links.refs, Links.modRemote, Refs.mk.injEq, and_true]
  funext r'
  rw [Function.update_apply]
  split
  · next e => rw [h, e]
  · rfl

@[simp] theorem refs_pushKeypair (L : Links) (k : KeypairLink) : (L.pushKeypair k).refs = L.refs :=
  rfl

/-- A change of one peer, with the tenant's change that goes with it, and new links. -/
theorem ledger_peer {i : ℕ} {l : NoiseLocal} {f : WgsPeer → WgsPeer} {g : Tenant → Tenant}
    (h : (f (s.peers i)).tenant = (s.peers i).tenant.map g) :
    ((s.modPeer i f).setNoise l).ledger = { s.ledger with links := l.links }.modTenant i g :=
  ledger_modPeer (s := s.setNoise l) h

/-- A tenant and its links change together. -/
theorem Accounted.loud (h : Accounted p s) {i : ℕ} {l : NoiseLocal} {f : WgsPeer → WgsPeer}
    {g : Tenant → Tenant} (hc : Counted l l.links.refs)
    (hs : LedgerStep p rules s.ledger ({ s.ledger with links := l.links }.modTenant i g))
    (ha : (f (s.peers i)).active = (s.peers i).active)
    (hr : (f (s.peers i)).remote = (s.peers i).remote)
    (hg : ∀ r, g ((s.peers i).tenantOf r) = (f (s.peers i)).tenantOf r) :
    Refines p rules s ((s.modPeer i f).setNoise l) :=
  h.refines hc (ledger_peer (tenant_map ha hr hg) ▸ .single hs) rfl (modPeer_of_fixed _ ha)
    (modPeer_of_fixed _ hr)

theorem Accounted.loudPeer (h : Accounted p s) {i : ℕ} {f : WgsPeer → WgsPeer} {g : Tenant → Tenant}
    (hs : LedgerStep p rules s.ledger (s.ledger.modTenant i g))
    (ha : (f (s.peers i)).active = (s.peers i).active)
    (hr : (f (s.peers i)).remote = (s.peers i).remote)
    (hg : ∀ r, g ((s.peers i).tenantOf r) = (f (s.peers i)).tenantOf r) :
    Refines p rules s (s.modPeer i f) :=
  h.loud (l := s.noise) h.counted hs ha hr hg

/-- A change that no tenant shows, and the same links. -/
theorem Accounted.quiet (h : Accounted p s) {i : ℕ} {l : NoiseLocal} {f : WgsPeer → WgsPeer}
    (hc : Counted l s.noise.links.refs) (hl : l.links = s.noise.links)
    (hf : (f (s.peers i)).tenant = (s.peers i).tenant)
    (ha : (f (s.peers i)).active = (s.peers i).active)
    (hr : (f (s.peers i)).remote = (s.peers i).remote) :
    Refines p rules s ((s.modPeer i f).setNoise l) := by
  refine h.refines ?_ ?_ rfl (modPeer_of_fixed _ ha) (modPeer_of_fixed _ hr)
  · rw [setNoise_noise, hl]
    exact hc
  · rw [ledger_setNoise (s := s.modPeer i f) hl, ledger_modPeer_fixed hf]

theorem Accounted.quietNoise (h : Accounted p s) {l : NoiseLocal}
    (hc : Counted l s.noise.links.refs) (hl : l.links = s.noise.links) :
    Refines p rules s (s.setNoise l) := by
  refine h.refines ?_ ?_ rfl (fun _ => rfl) (fun _ => rfl)
  · rw [setNoise_noise, hl]
    exact hc
  · rw [ledger_setNoise hl]

theorem Accounted.quietPeer (h : Accounted p s) {i : ℕ} {f : WgsPeer → WgsPeer}
    (hf : (f (s.peers i)).tenant = (s.peers i).tenant)
    (ha : (f (s.peers i)).active = (s.peers i).active)
    (hr : (f (s.peers i)).remote = (s.peers i).remote) : Refines p rules s (s.modPeer i f) :=
  h.quiet h.counted rfl hf ha hr

/-! ## Handshakes -/

theorem sendInitiation_refines (h : Accounted p s) {i : ℕ} {env : InitiationEnv} {rc : Int}
    {out : List Upcall} (ha : (s.peers i).active)
    (hs : wgsSendInitiation p s i env = some (rc, s', out)) : Refines p rules s s' := by
  obtain ⟨r, t, hr, ht, rfl, -⟩ := tenant_of_active h ha
  unfold wgsSendInitiation at hs
  simp only [hr] at hs
  split at hs
  · simp only [Option.some.injEq, Prod.mk.injEq] at hs
    exact hs.2.1 ▸ .refl h
  · rw [Option.map_eq_some_iff] at hs
    obtain ⟨⟨l, res⟩, hc, hs⟩ := hs
    cases res with
    | none =>
      simp only [Prod.mk.injEq] at hs
      rw [← hs.2.1]
      exact h.quietNoise (h.counted.createInitiation hc) (links_createInitiation_none hc)
    | some res =>
      obtain ⟨idx, msg⟩ := res
      simp only [Prod.mk.injEq] at hs
      have hl := links_createInitiation_some hc
      rw [← hs.2.1]
      refine h.loud (g := fun t => { t with
        pending := true, hsIdx := idx, attempts := t.attempts + 1 }) ?_ ?_ rfl rfl fun _ => rfl
      · rw [hl, refs_modRemote rfl]
        exact h.counted.createInitiation hc
      · rw [hl]
        exact .dial idx _ ht

/-- Once the initiation is taken in, nothing is left that the response could fail at. -/
theorem no_stall (hcurve : p.Curve) (hi : LedgerInv p s.ledger) {l l' : NoiseLocal} {r : ℕ}
    {sIdx : UInt32} {msg : Initiation} {env env' : ResponderEnv} (hr : r < s.noise.nRemotes)
    (hc : noiseConsumeInitiation p s.noise sIdx msg env = some (l, some r))
    (hn : noiseCreateResponse p l r env' = (l', none)) : False := by
  obtain ⟨hid, rPublic, ck, hash, ts, hs, l₁, hread, hfind, hts, -, -, hl₁, rfl⟩ :=
    consumeInitiation_some hc
  obtain ⟨hs', -, hmsg⟩ := createResponse_none hn
  rw [modRemote_remotes, if_pos rfl] at hmsg
  replace hmsg := hmsg rfl
  have hv := indexInsert_remotes hl₁ r
  rw [if_pos rfl, modRemote_remotes, if_pos rfl, noiseRemoteRef, modRemote_remotes, if_pos rfl] at hv
  -- the ephemeral key was multiplied by our own key
  have hE : hs.hsE = msg.ue ∧ ∀ a, p.curve25519 a msg.ue ≠ none := by
    unfold noiseReadTimestamp at hts
    simp only [Option.bind_eq_bind, Option.bind_eq_some_iff] at hts
    obtain ⟨_, _, _, _, he⟩ := hts
    simp only [Option.pure_def, Option.some.injEq, Prod.mk.injEq] at he
    refine ⟨by rw [← he.2], fun a ha => ?_⟩
    simp [noiseReadStatic, noiseMixDh, hcurve.lowOrder _ s.noise.lPrivate _ ha] at hread
  -- and the peer's key by ours when the remote was made
  have hP : ∀ a, p.curve25519 a (s.noise.remotes r).rPublic ≠ none := fun a ha => by
    have hss : (s.noise.remotes r).rSs = _ := hi.shared r hr
    have hz : (s.noise.remotes r).rSs = zeros 32 := by
      rw [hss]
      simp only [Links.precomputeSs, WgSession.ledger, NoiseLocal.links, hid, if_true]
      rw [show (Ledger.remote _ r).pub = (s.noise.remotes r).rPublic from rfl,
        hcurve.lowOrder _ s.noise.lPrivate _ ha]
      rfl
    simp [noiseReadTimestamp, noiseMixSs, hz] at hts
  obtain ⟨pub, hpub⟩ := hcurve.generate env'.secret
  unfold noiseResponseMessage at hmsg
  simp only [hpub, noiseMixDh] at hmsg
  have h1 := hE.2 env'.secret
  have h2 := hP env'.secret
  rw [← hE.1] at h1
  obtain ⟨dh, h1⟩ := Option.ne_none_iff_exists'.mp h1
  obtain ⟨dh', h2⟩ := Option.ne_none_iff_exists'.mp h2
  rw [hv] at hmsg
  simp only [h1, h2, Option.map_some] at hmsg
  simp at hmsg

theorem handleInitiation_refines (h : Accounted p s) {bytes : Bytes} {src : Sockaddr} {srcLen : ℕ}
    {env : ResponderEnv} {rc : Int} {out : List Upcall} (hstall : rules.stall ∨ p.Curve)
    (hclock : rules.clock env.finish.time)
    (hs : wgsHandleInitiation p s bytes src srcLen env = some (rc, s', out)) :
    Refines p rules s s' := by
  unfold wgsHandleInitiation at hs
  split at hs
  · simp only [Option.some.injEq, Prod.mk.injEq] at hs
    exact hs.2.1 ▸ .refl h
  split at hs
  · simp only [Option.some.injEq, Prod.mk.injEq] at hs
    exact hs.2.1 ▸ .refl h
  rw [Option.map_eq_some_iff] at hs
  obtain ⟨⟨l, res⟩, hc, hs⟩ := hs
  cases res with
  | none =>
    simp only [Prod.mk.injEq] at hs
    obtain ⟨h1, h2⟩ := h.counted.consumeInitiation_none hc
    exact hs.2.1 ▸ h.quietNoise h1 h2
  | some r =>
    obtain ⟨hcount, hmem, hst, idx, hlink⟩ := h.counted.consumeInitiation_some hc
    -- the remote is the one of the slot it points at
    obtain ⟨i, t, ht, rfl⟩ := (h.ledger.owned r).mp ((h.ledger.enabled r).mp hmem)
    obtain ⟨-, hlt, harg, -⟩ := h.ledger.owner i t ht
    have hi : (l.remotes t.remote).rArg = i := by
      have : (l.links.remotes t.remote).arg = i := by
        rw [hlink, Links.modRemote_remotes, if_pos rfl]
        exact harg
      exact this
    simp only [] at hs
    split at hs
    · next l' hn =>
      simp only [Prod.mk.injEq] at hs
      rw [← hs.2.1]
      rcases hstall with hstall | hcurve
      · have hl' : (noiseRemotePut l' t.remote).links = s.noise.links.modRemote t.remote fun v =>
            { v with state := .responder, idx } := by
          rw [links_remotePut, links_createResponse_none hn, hlink]
        refine h.refines ?_ (.single ?_) rfl (fun _ => rfl) (fun _ => rfl)
        · rw [setNoise_noise, hl', refs_modRemote rfl]
          exact (hcount.createResponse rfl rfl rfl hn).remotePut
        · have := LedgerStep.stall (p := p) idx ht hstall
          rwa [ledger_of_setNoise, hl']
      · exact (no_stall hcurve h.ledger hlt hc hn).elim
    · next sIdx rIdx msg hn =>
      simp only [Prod.mk.injEq, hi] at hs
      rw [← hs.2.1]
      obtain ⟨recv, hl'⟩ := links_createResponse_some hn
      rw [← links_remotePut _ t.remote, hlink] at hl'
      refine h.loud (g := fun t => { t with
        pending := false, birth := env.finish.time, endpointLen := srcLen }) ?_ ?_ rfl rfl
        fun _ => rfl
      · rw [hl', refs_pushKeypair, refs_modRemote rfl, refs_modRemote rfl]
        exact (hcount.createResponse rfl rfl rfl hn).remotePut
      · have hnk : l.nKeypairs = s.noise.links.nKeypairs := congrArg Links.nKeypairs hlink
        have hidx : (l.remotes t.remote).iLocalIndex = idx := by
          rw [show (l.remotes t.remote).iLocalIndex = (l.links.remotes t.remote).idx from rfl, hlink,
            Links.modRemote_remotes, if_pos rfl]
        have := LedgerStep.answer (p := p) idx env.stamp.getsbinuptime recv
          env.birth.getsbinuptime env.finish.time srcLen ht hclock
        rw [hl', Links.modRemote_modRemote, hnk, hidx]
        simp only [Ledger.pushKeypair, Ledger.modRemote, Links.modRemote_remotes, if_true,
          RemoteLink.answered] at this ⊢
        exact this

theorem findPending_some {idx : UInt32} {i : ℕ} (h : findPending s idx = some i) :
    i < s.nPeers ∧ (s.peers i).active ∧ (s.peers i).hsPending ∧ (s.peers i).hsLocalIdx = idx := by
  unfold findPending at h
  have h1 := List.mem_of_find?_eq_some h
  have h2 := List.find?_some h
  simp only [List.mem_range, decide_eq_true_eq] at h1 h2
  exact ⟨h1, h2⟩

/-- A remote that has not been freed is some slot's or has keypairs. -/
theorem Accounted.owned_of_refcnt (h : Accounted p s) {r : ℕ}
    (hc : (s.noise.remotes r).rRefcnt ≠ 0) :
    s.ledger.Owned r ∨ (s.ledger.remote r).slots ≠ [] := by
  have hcount := h.counted.remoteCount r
  simp only [Links.refs, List.countP_nil] at hcount
  by_cases hen : (s.ledger.remote r).enabled
  · exact .inl ((h.ledger.owned r).mp hen)
  · refine .inr fun hs => hc ?_
    rw [hcount, show s.noise.slots r = [] from hs,
      show (s.noise.links.remotes r).enabled = false from eq_false_of_ne_true hen]
    rfl

/-- No two entries of the table have the same index. -/
theorem Counted.index_unique {l : NoiseLocal} {ρ : Refs} (h : Counted l ρ) {e e' : NoiseIndex}
    (he : e ∈ l.lIndexHash) (he' : e' ∈ l.lIndexHash) (hi : l.iLocalIndex e = l.iLocalIndex e') :
    e = e' := List.inj_on_of_nodup_map h.indices he he' hi

theorem handleResponse_refines (h : Accounted p s) {bytes : Bytes} {env : ConsumeEnv} {rc : Int}
    {out : List Upcall} (hclock : rules.clock env.finish.time)
    (hs : wgsHandleResponse p s bytes env = (rc, s', out)) : Refines p rules s s' := by
  unfold wgsHandleResponse at hs
  split at hs
  · simp only [Prod.mk.injEq] at hs
    exact hs.2.1 ▸ .refl h
  split at hs
  · simp only [Prod.mk.injEq] at hs
    exact hs.2.1 ▸ .refl h
  next i hfind =>
  obtain ⟨-, ha, hpend, hidx⟩ := findPending_some hfind
  obtain ⟨r₀, t, hr₀, ht, rfl, htp, hti, -⟩ := tenant_of_active h ha
  split at hs
  · next l hc =>
    simp only [Prod.mk.injEq] at hs
    obtain rfl := consumeResponse_none hc
    exact hs.2.1 ▸ h.quietNoise h.counted rfl
  next l r hc =>
  obtain ⟨htab, href, -, hst, hri, -⟩ := consumeResponse_some hc
  obtain ⟨hcount, recv, hl⟩ := h.counted.consumeResponse_some rfl rfl rfl hc
  rw [← links_remotePut l r] at hl
  split at hs
  · next hne =>
    simp only [Prod.mk.injEq] at hs
    rw [← hs.2.1]
    refine h.refines ?_ (.single ?_) rfl (fun _ => rfl) (fun _ => rfl)
    · rw [setNoise_noise, hl, refs_pushKeypair, refs_modRemote rfl]
      exact hcount.remotePut
    · have hu : ∀ r', (s.ledger.remote r').state ≠ .dead → (s.ledger.remote r').idx = t.hsIdx →
          r' = r := fun r' hd hi => by
        have h1 := (h.counted.remoteLinked r').mpr hd
        have h2 := List.mem_of_find?_eq_some htab
        have := h.counted.index_unique h1 h2 (by
          rw [show s.noise.iLocalIndex (.remote r') = t.hsIdx from hi, hti, hidx, ← hri]
          rfl)
        simpa using this
      have : LedgerStep p rules s.ledger _ := .mismatch recv env.birth.getsbinuptime ht
        (by rw [htp, hpend]) (hri.trans (hidx.symm.trans hti.symm)) hst
        (by rw [hr₀] at hne; simpa using hne) (h.owned_of_refcnt href) hu
      rw [ledger_of_setNoise, hl]
      simp only [Ledger.pushKeypair, Ledger.modRemote, Links.modRemote_remotes, if_true,
        RemoteLink.completed] at this ⊢
      exact this
  · next he =>
    simp only [Prod.mk.injEq] at hs
    rw [← hs.2.1]
    have : r = t.remote := by
      rw [hr₀] at he
      simpa using he
    subst this
    refine h.loud (g := fun t => { t with pending := false, attempts := 0, birth := env.finish.time })
      ?_ ?_ rfl rfl fun _ => rfl
    · rw [hl, refs_pushKeypair, refs_modRemote rfl]
      exact hcount.remotePut
    · have := LedgerStep.complete (p := p) recv env.birth.getsbinuptime env.finish.time ht
        (by rw [htp, hpend]) hst hclock
      rw [hl]
      simp only [Ledger.pushKeypair, Ledger.modRemote, Links.modRemote_remotes, if_true,
        RemoteLink.completed] at this ⊢
      exact this

theorem handleCookie_refines (h : Accounted p s) {bytes : Bytes} {now : Moment} {rc : Int}
    {out : List Upcall} (hs : wgsHandleCookie p s bytes now = (rc, s', out)) :
    Refines p rules s s' := by
  unfold wgsHandleCookie at hs
  repeat' split at hs
  all_goals
    simp only [Prod.mk.injEq] at hs
    rw [← hs.2.1]
  · exact .refl h
  · exact .refl h
  · exact h.quietPeer rfl rfl rfl

end PolarWG
