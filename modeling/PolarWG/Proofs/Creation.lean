import PolarWG.Proofs.Peers

/-!
# A created session

The parser leaves every peer idle, and creation makes a tenant of each, with a remote of its own
and no handshake.
-/

namespace PolarWG

variable {p : Prims} {s s' : WgSession}

/-! ## Parsing -/

/-- A slot the parser may have filled in, before its peer is created. -/
structure WgsPeer.Idle (peer : WgsPeer) : Prop where
  active : ¬ peer.active
  remote : peer.remote = none
  pending : ¬ peer.hsPending
  attempts : peer.hsAttempts = 0
  birth : peer.keypairBirth = 0

structure WgSession.Parsed (s : WgSession) : Prop where
  noise : s.noise = noiseLocalAlloc
  small : s.nPeers ≤ wgsMaxPeers
  idle : ∀ i, (s.peers i).Idle
  v4 : s.aipsV4 = aipsInit 32
  v6 : s.aipsV6 = aipsInit 128

theorem configPeerKey_idle {key val : Text} {peer peer' : WgsPeer}
    (h : configPeerKey p key val peer = some peer') (hi : peer.Idle) : peer'.Idle := by
  unfold configPeerKey parseListCidrs at h
  repeat' split at h
  all_goals
    simp only [Option.map_eq_some_iff, Option.some.injEq, Prod.exists, reduceCtorEq] at h
  all_goals first
    | (obtain ⟨_, -, rfl⟩ := h; exact ⟨hi.1, hi.2, hi.3, hi.4, hi.5⟩)
    | (obtain ⟨_, _, -, rfl⟩ := h; exact ⟨hi.1, hi.2, hi.3, hi.4, hi.5⟩)

theorem configKey_parsed {c c' : ConfigState} {key val : Text} (h : configKey p c key val = some c')
    (hc : c.session.Parsed) : c'.session.Parsed := by
  unfold configKey at h
  simp only [] at h
  repeat' split at h
  all_goals
    simp only [Option.map_eq_some_iff, Option.some.injEq, reduceCtorEq] at h
  · obtain ⟨_, -, rfl⟩ := h
    exact ⟨hc.1, hc.2, hc.3, hc.4, hc.5⟩
  · subst h
    exact ⟨hc.1, hc.2, hc.3, hc.4, hc.5⟩
  · obtain ⟨_, -, rfl⟩ := h
    exact ⟨hc.1, hc.2, hc.3, hc.4, hc.5⟩
  · next _ _ i _ _ =>
    obtain ⟨peer, hp, rfl⟩ := h
    refine ⟨hc.1, hc.2, fun j => ?_, hc.4, hc.5⟩
    rw [modPeer_peers]
    split
    · exact configPeerKey_idle hp (hc.idle i)
    · exact hc.idle j
  · exact h ▸ hc

theorem configLine_parsed {c c' : ConfigState} {line : Text} (hc : c.session.Parsed)
    (h : configLine p c line = some c') : c'.session.Parsed := by
  unfold configLine at h
  split at h
  · simp only [Option.some.injEq] at h
    exact h ▸ hc
  simp only [] at h
  split at h
  · simp only [Option.some.injEq] at h
    exact h ▸ hc
  split at h
  · split at h
    · split at h
      · simp at h
      · next hlt =>
        simp only [Option.some.injEq] at h
        subst h
        exact ⟨hc.1, by simp only; omega, hc.3, hc.4, hc.5⟩
    · simp only [Option.some.injEq] at h
      subst h
      exact ⟨hc.1, hc.2, hc.3, hc.4, hc.5⟩
  · split at h
    · simp only [Option.some.injEq] at h
      exact h ▸ hc
    · exact configKey_parsed h hc

theorem parseConfigText_parsed {text : Text} (h : parseConfigText p text = some s) : s.Parsed := by
  unfold parseConfigText at h
  rw [Option.bind_eq_some_iff] at h
  obtain ⟨c, hc, h⟩ := h
  have hp : c.session.Parsed := by
    refine foldlM_inv (fun c : ConfigState => c.session.Parsed) (fun _ _ _ => configLine_parsed) ?_ hc
    refine ⟨rfl, Nat.zero_le _, fun _ => ?_, rfl, rfl⟩
    exact ⟨by simp [WgSession.blank, WgsPeer.blank], rfl, by simp [WgSession.blank, WgsPeer.blank],
      rfl, rfl⟩
  repeat' split at h
  all_goals simp only [Option.some.injEq, reduceCtorEq] at h
  exact h ▸ hp

/-! ## Creation -/

/-- Every tenant is new, and nothing is linked. -/
structure Ledger.Founding (L : Ledger) : Prop where
  pending : ∀ i t, L.tenants i = some t → ¬ t.pending
  attempts : ∀ i t, L.tenants i = some t → t.attempts = 0
  birth : ∀ i t, L.tenants i = some t → t.birth = 0
  lastSent : ∀ i t, L.tenants i = some t → (L.remote t.remote).lastSent = timerReset
  state : ∀ r, (L.remote r).state = .dead
  slots : ∀ r, (L.remote r).slots = []

theorem Ledger.Founding.enlist {L : Ledger} (h : L.Founding) (hi : LedgerInv p L) {i : ℕ} {pub : Bytes}
    {g : Tenant → Tenant} (hr : ∀ t, (g t).remote = t.remote) (hp : ∀ t, ¬ (g t).pending)
    (ha : ∀ t, (g t).attempts = 0) (hb : ∀ t, (g t).birth = 0) :
    ((L.enlist p i pub).modTenant i g).Founding := by
  have htn : ∀ j t, ((L.enlist p i pub).modTenant i g).tenants j = some t →
      (j = i ∧ ∃ u, t = g u ∧ u.remote = L.links.nRemotes) ∨ (j ≠ i ∧ L.tenants j = some t) := by
    intro j t ht
    rw [tenants_modTenant, L.tenants_enlist, L.tenants_enlist, if_pos rfl] at ht
    split at ht
    · next e =>
      simp only [Option.map_some, Option.some.injEq] at ht
      exact .inl ⟨e, _, ht.symm, rfl⟩
    · next e => exact .inr ⟨e, ht⟩
  refine ⟨fun j t ht => ?_, fun j t ht => ?_, fun j t ht => ?_, fun j t ht => ?_, fun r => ?_,
    fun r => ?_⟩
  · obtain ⟨-, u, rfl, -⟩ | ⟨-, ht⟩ := htn j t ht
    · exact hp u
    · exact h.pending j t ht
  · obtain ⟨-, u, rfl, -⟩ | ⟨-, ht⟩ := htn j t ht
    · exact ha u
    · exact h.attempts j t ht
  · obtain ⟨-, u, rfl, -⟩ | ⟨-, ht⟩ := htn j t ht
    · exact hb u
    · exact h.birth j t ht
  · rw [remote_modTenant, L.remote_enlist]
    obtain ⟨-, u, rfl, hu⟩ | ⟨-, ht⟩ := htn j t ht
    · rw [hr, hu, if_pos rfl]
      rfl
    · rw [if_neg (hi.owner j t ht).2.1.ne]
      exact h.lastSent j t ht
  · rw [remote_modTenant, L.remote_enlist]
    split
    · rfl
    · exact h.state r
  · rw [remote_modTenant, L.remote_enlist]
    split
    · rfl
    · exact h.slots r

/-- What resolving the endpoint leaves alone. -/
theorem resolved_peer (resolve : Resolver) {i : ℕ} (hidle : (s.peers i).Idle) : ∃ peer : WgsPeer,
    peer = (if (s.peers i).hasEndpoint then
        match resolve (s.peers i).endpointHost (s.peers i).endpointPort with
        | some (endpoint, endpointLen) => { s.peers i with
          active := true, remote := some s.noise.nRemotes
          cookie := cookieMakerInit p (s.peers i).pubkey, cookieInited := true
          endpoint, endpointLen }
        | none => { s.peers i with
          active := true, remote := some s.noise.nRemotes
          cookie := cookieMakerInit p (s.peers i).pubkey, cookieInited := true
          endpointLen := 0 }
      else { s.peers i with
        active := true, remote := some s.noise.nRemotes
        cookie := cookieMakerInit p (s.peers i).pubkey, cookieInited := true })
    ∧ peer.active ∧ peer.remote = some s.noise.nRemotes ∧ peer.pubkey = (s.peers i).pubkey
    ∧ ¬ peer.hsPending ∧ peer.hsAttempts = 0 ∧ peer.keypairBirth = 0 := by
  refine ⟨_, rfl, ?_⟩
  repeat' split
  all_goals exact ⟨rfl, rfl, rfl, hidle.pending, hidle.attempts, hidle.birth⟩

theorem createPeer_some {resolve : Resolver} {i : ℕ} (h : Accounted p s) (hf : s.ledger.Founding)
    (hi : i < s.nPeers) (hidle : (s.peers i).Idle) (hs : createPeer p resolve s i = some s') :
    Accounted p s' ∧ s'.ledger.Founding ∧ s'.nPeers = s.nPeers
      ∧ ∀ j ≠ i, s'.peers j = s.peers j := by
  obtain ⟨hen, hc, hl⟩ := h.pushRemote i (s.peers i).pubkey
  unfold createPeer at hs
  simp only [] at hs
  rw [show noiseRemoteAlloc p s.noise i (s.peers i).pubkey
    = ((noiseRemoteAlloc p s.noise i (s.peers i).pubkey).1, s.noise.nRemotes) from rfl] at hs
  simp only [hen, Option.some.injEq] at hs
  subst hs
  generalize hpush : s.noise.pushRemote (newRemote p s.noise i (s.peers i).pubkey) = l at hc hl
  -- the preshared key is not linked to anything
  have hpsk : Counted (if (s.peers i).hasPsk then
        noiseRemoteSetPsk l s.noise.nRemotes (s.peers i).psk else l)
        (if (s.peers i).hasPsk then
          noiseRemoteSetPsk l s.noise.nRemotes (s.peers i).psk else l).links.refs
      ∧ (if (s.peers i).hasPsk then
          noiseRemoteSetPsk l s.noise.nRemotes (s.peers i).psk else l).links = l.links := by
    split
    · have : (noiseRemoteSetPsk l s.noise.nRemotes (s.peers i).psk).links = l.links :=
        links_modRemote_fixed rfl
      exact ⟨this ▸ hc.modRemote rfl rfl rfl rfl, this⟩
    · exact ⟨hc, rfl⟩
  generalize (if (s.peers i).hasPsk then
    noiseRemoteSetPsk l s.noise.nRemotes (s.peers i).psk else l) = l' at hpsk ⊢
  obtain ⟨peer, hpeer, ha, hr, hpk, hp, hat, hb⟩ := resolved_peer (p := p) resolve hidle
  obtain ⟨h1, h2⟩ := h.settle hi hidle.active peer (g := fun t => { t with
      hsIdx := peer.hsLocalIdx, pending := false, attempts := 0, birth := 0
      hasEndpoint := peer.hasEndpoint, endpointLen := peer.endpointLen })
    ha hr hpsk.1 (hpsk.2.trans hl)
    (by simp only [WgsPeer.tenantOf, hpk, hat, hb, eq_false_of_ne_true hp])
    (fun _ => rfl) (fun _ => rfl)
  have hshape : ∀ x, x = peer → Accounted p ((s.modPeer i fun _ => x).setNoise l')
      ∧ ((s.modPeer i fun _ => x).setNoise l').ledger.Founding ∧ s.nPeers = s.nPeers
      ∧ ∀ j ≠ i, ((s.modPeer i fun _ => x).setNoise l').peers j = s.peers j := by
    rintro _ rfl
    refine ⟨h1, ?_, rfl, fun j hj => ?_⟩
    · rw [h2]
      exact hf.enlist h.ledger (fun _ => rfl) (fun _ => by simp) (fun _ => rfl) (fun _ => rfl)
    · rw [setNoise_peers, modPeer_peers, if_neg hj]
  exact hshape _ hpeer.symm

theorem createPeers_some {resolve : Resolver} : ∀ {is : List ℕ} {s s' : WgSession}, is.Nodup →
    Accounted p s → s.ledger.Founding → (∀ i ∈ is, i < s.nPeers ∧ (s.peers i).Idle) →
    is.foldlM (createPeer p resolve) s = some s' → Accounted p s' ∧ s'.ledger.Founding
  | [], s, s', _, h, hf, _, hs => by
    simp only [List.foldlM_nil, Option.pure_def, Option.some.injEq] at hs
    exact hs ▸ ⟨h, hf⟩
  | i :: is, s, s', hn, h, hf, hi, hs => by
    simp only [List.foldlM_cons, Option.bind_eq_bind, Option.bind_eq_some_iff] at hs
    obtain ⟨s₁, hs₁, hs⟩ := hs
    obtain ⟨hout, hn⟩ := List.nodup_cons.mp hn
    obtain ⟨h1, h2, h3, h4⟩ := createPeer_some h hf (hi i (by simp)).1 (hi i (by simp)).2 hs₁
    refine createPeers_some hn h1 h2 (fun j hj => ?_) hs
    obtain ⟨h5, h6⟩ := hi j (by simp [hj])
    rw [h3, h4 j (by rintro rfl; exact hout hj)]
    exact ⟨h5, h6⟩

theorem accounted_of_parsed (h : s.Parsed) :
    Accounted p (s.setNoise (noiseLocalPrivate p noiseLocalAlloc s.privateKey))
      ∧ (s.setNoise (noiseLocalPrivate p noiseLocalAlloc s.privateKey)).ledger.Founding := by
  have hl : ∀ l, l = noiseLocalPrivate p noiseLocalAlloc s.privateKey →
      l.lIndexHash = [] ∧ l.lRemoteHash = [] ∧ l.nRemotes = 0 ∧ l.nKeypairs = 0
        ∧ (l.remotes = fun _ => .blank) ∧ l.keypairs = fun _ => .blank := by
    rintro _ rfl
    unfold noiseLocalPrivate
    simp only []
    split <;> exact ⟨rfl, rfl, rfl, rfl, rfl, rfl⟩
  generalize hl' : noiseLocalPrivate p noiseLocalAlloc s.privateKey = l
  obtain ⟨h1, h2, h3, h4, h5, h6⟩ := hl l hl'.symm
  have hten : ∀ i, (s.setNoise l).ledger.tenants i = none := fun i => by
    show WgsPeer.tenant (s.peers i) = none
    rw [WgsPeer.tenant, if_neg (h.idle i).active]
  have hsl : ∀ r, l.slots r = [] := fun r => by
    show (l.remotes r).link.slots = []
    rw [h5]
    rfl
  have hheld : ∀ k, ¬ Held l l.links.refs k := fun k hk => by
    rcases hk with hk | hk
    · simp [hsl] at hk
    · simp [Links.refs] at hk
  have hst : ∀ r, (l.remotes r).rHandshakeState = .dead := fun r => by rw [h5]; rfl
  refine ⟨⟨⟨?_, fun r => ?_, fun k => ?_, fun r k hk => ?_, fun r => ?_, fun k hk => ?_, fun k hk => ?_,
    fun r => ?_⟩, ⟨?_, fun r => ?_, fun r => ?_, fun i t ht => ?_, fun r _ => ⟨hst r, hsl r⟩,
    fun r hr => ?_, fun k => ?_⟩, fun i => ?_, fun i hi => ?_, h.small⟩, ?_⟩
  · simp [h1]
  · simp [h1, hst]
  · simp only [setNoise_noise, h1, List.not_mem_nil, false_iff, not_and]
    exact fun hk => absurd hk (hheld k)
  · simp [hsl] at hk
  · simp [hsl, Links.refs]
  · exact absurd hk (hheld k)
  · exact absurd hk (hheld k)
  · simp only [setNoise_noise, hsl, Links.refs, List.length_nil, List.countP_nil]
    show _ = (l.remotes r).rEntryInserted.toNat + 0 + 0
    rw [h5]
    rfl
  · show l.lRemoteHash.Nodup
    simp [h2]
  · show r ∈ l.lRemoteHash ↔ (l.remotes r).rEntryInserted
    simp [h2, h5, NoiseRemote.blank]
  · show (l.remotes r).rEntryInserted ↔ _
    simp only [h5, NoiseRemote.blank, Bool.false_eq_true, false_iff]
    rintro ⟨i, t, ht, -⟩
    simp [hten] at ht
  · simp [hten] at ht
  · exact absurd (show r < l.nRemotes from hr) (by omega)
  · show (l.keypairs k).kpNonceRecv = 0
    rw [h6]
    rfl
  · rw [setNoise_peers, (h.idle i).remote, eq_false_of_ne_true (h.idle i).active]
    rfl
  · exact absurd hi (h.idle i).active
  · exact ⟨fun i t ht => by simp [hten] at ht, fun i t ht => by simp [hten] at ht,
      fun i t ht => by simp [hten] at ht, fun i t ht => by simp [hten] at ht, hst, hsl⟩

/-- A created session has the peers of its text, with what each is given of its own; the tries
and the checker are beside them. -/
theorem created_slots {resolve : Resolver} {text : Text}
    (h : wgSessionCreate p resolve text = some s) :
    ∃ s₀ s₁, parseConfigText p text = some s₀
      ∧ (List.range s₀.nPeers).foldlM (createPeer p resolve)
        (s₀.setNoise (noiseLocalPrivate p noiseLocalAlloc s₀.privateKey)) = some s₁
      ∧ s.noise = s₁.noise ∧ s.peers = s₁.peers ∧ s.nPeers = s₁.nPeers := by
  simp only [wgSessionCreate, Option.bind_eq_bind, Option.bind_eq_some_iff, Option.pure_def,
    Option.some.injEq] at h
  obtain ⟨s₀, hparse, s₁, hs₁, rfl⟩ := h
  generalize hcheck : (if s₁.noise.lHasIdentity then
    { s₁ with checker := cookieCheckerUpdate p s₁.noise.lPublic } else s₁) = s₂
  obtain ⟨hnoise, hpeers, hN⟩ : s₂.noise = s₁.noise ∧ s₂.peers = s₁.peers
      ∧ s₂.nPeers = s₁.nPeers := by
    rw [← hcheck]
    split <;> exact ⟨rfl, rfl, rfl⟩
  obtain ⟨onoise, opeers, oN⟩ := foldl_outside
    (f := fun s i => (s.peers i).allowed.foldl (insertAllowed i) s)
    (fun s i => foldl_outside (insertAllowed_outside i) _ _) (List.range s₂.nPeers) s₂
  exact ⟨s₀, s₁, hparse, hs₁, onoise.trans hnoise, opeers.trans hpeers, oN.trans hN⟩

theorem created_accounted (h : Created p s) : Accounted p s ∧ s.ledger.Founding := by
  obtain ⟨resolve, text, h⟩ := h
  obtain ⟨s₀, s₁, hparse, hs₁, hnoise, hpeers, hN⟩ := created_slots h
  have hp := parseConfigText_parsed hparse
  obtain ⟨h1, h2⟩ := accounted_of_parsed (p := p) hp
  obtain ⟨h3, h4⟩ := createPeers_some (List.nodup_range (n := s₀.nPeers)) h1 h2
    (fun i hi => ⟨List.mem_range.mp hi, hp.idle i⟩) hs₁
  have hr : Refines p .all s₁ s := h3.outside hnoise hpeers hN
  refine ⟨hr.1, ?_⟩
  rwa [show s.ledger = s₁.ledger by simp only [WgSession.ledger, hnoise, hpeers]]

end PolarWG
