import PolarWG.Proofs.Data

/-!
# Adding and removing peers

A request adds tenants to the ledger, takes them out and edits them; creating a session adds one
for every peer of the configuration text.
-/

namespace PolarWG

variable {p : Prims} {rules : LedgerRules} {s s' s'' : WgSession}

/-! ## New remotes -/

/-- A session has few peers, so the table of remotes always has room. -/
theorem LedgerInv.enabled_length {L : Ledger} (h : LedgerInv p L) :
    L.links.enabled.length ≤ wgsMaxPeers := by
  have hown : ∀ r ∈ L.links.enabled, ∃ i t, L.tenants i = some t ∧ t.remote = r := fun r hr =>
    (h.owned r).mp ((h.enabled r).mp hr)
  have hnodup : (L.links.enabled.map fun r => (L.remote r).arg).Nodup := by
    refine h.enabledNodup.map_on fun a ha b hb e => ?_
    obtain ⟨i, t, ht, rfl⟩ := hown a ha
    obtain ⟨j, u, hu, rfl⟩ := hown b hb
    rw [(h.owner i t ht).2.2.1, (h.owner j u hu).2.2.1] at e
    subst e
    rw [ht, Option.some.injEq] at hu
    rw [hu]
  have hsub : (L.links.enabled.map fun r => (L.remote r).arg) ⊆ List.range wgsMaxPeers := by
    intro i hi
    obtain ⟨r, hr, rfl⟩ := List.mem_map.mp hi
    obtain ⟨j, t, ht, rfl⟩ := hown r hr
    rw [(h.owner j t ht).2.2.1]
    exact List.mem_range.mpr (h.owner j t ht).1
  simpa using (hnodup.subperm hsub).length_le

/-- The remote that `noiseRemoteAlloc` makes, once enabled. -/
def newRemote (p : Prims) (l : NoiseLocal) (arg : ℕ) (pub : Bytes) : NoiseRemote :=
  { NoiseRemote.blank with
    rPublic := pub, rLastSent := timerReset, rLastInitRecv := timerReset
    rSs := noisePrecomputeSs p l pub, rRefcnt := 1, rArg := arg, rEntryInserted := true }

def NoiseLocal.pushRemote (l : NoiseLocal) (v : NoiseRemote) : NoiseLocal :=
  { l with
    remotes := Function.update l.remotes l.nRemotes v, nRemotes := l.nRemotes + 1
    lRemoteHash := l.nRemotes :: l.lRemoteHash }

theorem alloc_enable {l : NoiseLocal} (h : l.lRemoteHash.length < maxRemotePerLocal) (arg : ℕ)
    (pub : Bytes) : noiseRemoteEnable (noiseRemoteAlloc p l arg pub).1 l.nRemotes
      = (l.pushRemote (newRemote p l arg pub), true) := by
  simp only [noiseRemoteEnable, noiseRemoteAlloc, NoiseLocal.modRemote, Function.update_self,
    NoiseRemote.blank, Bool.false_eq_true, if_false, h, if_true, Function.update_idem]
  rfl

theorem links_pushRemote (l : NoiseLocal) (arg : ℕ) (pub : Bytes) :
    (l.pushRemote (newRemote p l arg pub)).links
      = l.links.pushRemote (.fresh arg pub (l.links.precomputeSs p pub)) := by
  simp only [NoiseLocal.links, NoiseLocal.pushRemote, Links.pushRemote, Links.mk.injEq, true_and,
    and_true]
  funext r
  simp only [Function.update_apply]
  split <;> rfl

theorem Counted.pushRemote {l : NoiseLocal} (h : Counted l l.links.refs)
    (hd : (l.remotes l.nRemotes).rHandshakeState = .dead) (hs : l.slots l.nRemotes = [])
    (arg : ℕ) (pub : Bytes) : Counted (l.pushRemote (newRemote p l arg pub))
      (l.pushRemote (newRemote p l arg pub)).links.refs := by
  set v := newRemote p l arg pub with hv
  have hr : ∀ r, (l.pushRemote v).remotes r = if r = l.nRemotes then v else l.remotes r :=
    fun r => Function.update_apply ..
  have hold := h.remoteCount l.nRemotes
  simp only [Links.refs, List.countP_nil, hs, List.length_nil] at hold
  refine h.recount rfl rfl (fun r hm => ?_) (fun r => ?_) (fun r => ?_) (fun _ => rfl)
    (fun _ => rfl) rfl rfl (fun _ _ => rfl) fun r => ?_
  · have : r ≠ l.nRemotes := by
      rintro rfl
      exact (h.remoteLinked _).mp hm hd
    rw [hr, if_neg this]
  · rw [hr]
    split
    · next e => rw [e, hd]; rfl
    · rfl
  · rw [NoiseLocal.slots, hr]
    split
    · next e => rw [e, hs]; rfl
    · rfl
  · show _ = _ + ((l.pushRemote v).remotes r).rEntryInserted.toNat
    rw [hr]
    split
    · next e =>
      rw [e, hold, hv]
      simp only [newRemote, Links.refs]
      show 1 + _ = _ + 0 + 0 + 1
      omega
    · rfl

/-! ## Removal -/

/-- The slot's reference to its remote goes, and the remote stays as long as it has keypairs. -/
theorem Counted.tombstone {l : NoiseLocal} (h : Counted l l.links.refs) {r : ℕ}
    (he : (l.remotes r).rEntryInserted) :
    Counted (noiseRemotePut (noiseRemoteDisable l r) r)
        (noiseRemotePut (noiseRemoteDisable l r) r).links.refs
      ∧ (noiseRemotePut (noiseRemoteDisable l r) r).links = l.links.disable r := by
  rw [noiseRemoteDisable, if_pos he]
  set l' := noiseRemotePut _ r with hl'
  have hr : ∀ r', l'.remotes r' = if r' = r then
      { l.remotes r with rEntryInserted := false, rRefcnt := (l.remotes r).rRefcnt - 1 }
      else l.remotes r' := fun r' => by
    rw [hl', noiseRemotePut, modRemote_remotes]
    simp only [NoiseLocal.modRemote, Function.update_apply, if_true]
    split <;> rfl
  have hfix : ∀ {α : Type} (g : NoiseRemote → α),
      g { l.remotes r with rEntryInserted := false, rRefcnt := (l.remotes r).rRefcnt - 1 }
        = g (l.remotes r) → ∀ r', g (l'.remotes r') = g (l.remotes r') := fun g hg r' => by
    rw [hr]
    split
    · next e => rw [hg, e]
    · rfl
  have hcount := h.remoteCount r
  simp only [Links.refs] at hcount
  rw [show (l.links.remotes r).enabled = true from he] at hcount
  constructor
  · refine h.recount rfl rfl (fun r' _ => hfix NoiseRemote.iLocalIndex rfl r')
      (hfix NoiseRemote.rHandshakeState rfl) (hfix (fun v => v.link.slots) rfl) (fun _ => rfl)
      (fun _ => rfl) rfl rfl (fun _ _ => rfl) fun r' => ?_
    show _ + (l.remotes r').rEntryInserted.toNat = _ + (l'.remotes r').rEntryInserted.toNat
    rw [hr]
    split
    · next e =>
      subst e
      simp only [he, Bool.toNat_true, Bool.toNat_false] at hcount ⊢
      omega
    · rfl
  · simp only [NoiseLocal.links, Links.disable, Links.modRemote, Links.mk.injEq]
    refine ⟨rfl, rfl, rfl, ?_, rfl, rfl, rfl⟩
    funext r'
    rw [hr, Function.update_apply]
    split <;> rfl

/-- A slot emptied, whatever the rules say. -/
theorem tombstone_ledger (h : Accounted p s) {i : ℕ} {t : Tenant}
    (ht : s.ledger.tenants i = some t) : Accounted p (peerTombstone s i)
      ∧ (peerTombstone s i).ledger = s.ledger.remove i t.remote := by
  obtain ⟨ha, hr⟩ := active_of_tenant ht
  have he : (s.noise.remotes t.remote).rEntryInserted :=
    (h.ledger.owned t.remote).mpr ⟨i, t, ht, rfl⟩
  obtain ⟨hc, hl⟩ := h.counted.tombstone he
  have hs : peerTombstone s i = (s.modPeer i fun _ => .blank).setNoise
      (noiseRemotePut (noiseRemoteDisable s.noise t.remote) t.remote) := by
    unfold peerTombstone
    rw [hr]
    rfl
  have hled : (peerTombstone s i).ledger = s.ledger.remove i t.remote := by
    rw [hs]
    simp only [WgSession.ledger, Ledger.remove, Ledger.mk.injEq, setNoise_noise, setNoise_peers]
    refine ⟨hl, ?_⟩
    funext j
    rw [modPeer_peers, Function.update_apply]
    split <;> rfl
  refine ⟨⟨?_, ?_, fun j => ?_, fun j => ?_, hs ▸ h.small⟩, hled⟩
  · rw [hs]
    exact hc
  · rw [hled]
    exact h.ledger.remove ht
  · rw [hs, setNoise_peers, modPeer_peers]
    split
    · rfl
    · exact h.remote j
  · rw [hs, setNoise_peers, modPeer_peers]
    split
    · intro hb
      simp [WgsPeer.blank] at hb
    · exact h.range j

theorem tombstone_refines (h : Accounted p s) {i : ℕ} (ha : (s.peers i).active)
    (hrule : rules.removal s.ledger i) : Refines p rules s (peerTombstone s i) := by
  obtain ⟨r, t, -, ht, -⟩ := tenant_of_active h ha
  obtain ⟨hacc, hled⟩ := tombstone_ledger h ht
  refine ⟨hacc, ?_⟩
  rw [hled]
  exact .single (.remove ht hrule)

/-! ## Requests -/

/-- A slot that turns into a new peer's. -/
theorem Accounted.settle (h : Accounted p s) {i : ℕ} (hi : i < s.nPeers) (hout : ¬ (s.peers i).active)
    (peer : WgsPeer) {pub : Bytes} {l : NoiseLocal} {g : Tenant → Tenant}
    (ha : peer.active) (hr : peer.remote = some s.noise.nRemotes)
    (hc : Counted l l.links.refs) (hl : l.links = (s.ledger.enlist p i pub).links)
    (ht : peer.tenantOf s.noise.nRemotes = g ⟨s.noise.nRemotes, pub, false, 0, 0, 0, false, 0⟩)
    (hgr : ∀ t, (g t).remote = t.remote) (hgp : ∀ t, (g t).pubkey = t.pubkey) :
    Accounted p ((s.modPeer i fun _ => peer).setNoise l)
      ∧ ((s.modPeer i fun _ => peer).setNoise l).ledger = (s.ledger.enlist p i pub).modTenant i g := by
  have hnone : s.ledger.tenants i = none := by
    simp only [WgSession.ledger, WgsPeer.tenant, if_neg hout]
  have hten : (fun j => ((s.modPeer i fun _ => peer).peers j).tenant)
      = ((s.ledger.enlist p i pub).modTenant i g).tenants := by
    funext j
    rw [modPeer_peers, Ledger.tenants_modTenant, Ledger.tenants_enlist, Ledger.tenants_enlist,
      if_pos rfl]
    split
    · simp only [WgsPeer.tenant, ha, hr, if_true, Option.map_some, Option.some.injEq]
      exact ht
    · rfl
  have hled : ((s.modPeer i fun _ => peer).setNoise l).ledger
      = (s.ledger.enlist p i pub).modTenant i g := by
    show (⟨l.links, fun j => ((s.modPeer i fun _ => peer).peers j).tenant⟩ : Ledger) = _
    rw [hl, hten]
    rfl
  refine ⟨⟨hc, ?_, fun j => ?_, fun j => ?_, h.small⟩, hled⟩
  · rw [hled]
    exact (h.ledger.enlist pub hnone (hi.trans_le h.small)).modTenant hgr hgp
  · rw [setNoise_peers, modPeer_peers]
    split
    · rw [ha, hr]
      rfl
    · exact h.remote j
  · rw [setNoise_peers, modPeer_peers]
    split
    · next e => exact fun _ => e ▸ hi
    · exact h.range j

/-- A new remote can always be enabled. -/
theorem Accounted.pushRemote (h : Accounted p s) (i : ℕ) (pub : Bytes) :
    noiseRemoteEnable (noiseRemoteAlloc p s.noise i pub).1 s.noise.nRemotes
        = (s.noise.pushRemote (newRemote p s.noise i pub), true)
      ∧ Counted (s.noise.pushRemote (newRemote p s.noise i pub))
        (s.noise.pushRemote (newRemote p s.noise i pub)).links.refs
      ∧ (s.noise.pushRemote (newRemote p s.noise i pub)).links = (s.ledger.enlist p i pub).links := by
  obtain ⟨hd, hs⟩ := h.ledger.unborn s.noise.nRemotes le_rfl
  refine ⟨alloc_enable (h.ledger.enabled_length.trans_lt (by decide)) i pub,
    h.counted.pushRemote hd hs i pub, ?_⟩
  rw [links_pushRemote]
  rfl

theorem peerInitRuntime_refines (h : Accounted p s) {i : ℕ} (hi : i < s.nPeers)
    (hout : ¬ (s.peers i).active) (hrule : rules.addition s.ledger i) {pub : Bytes} {ok : Bool}
    (hs : peerInitRuntime p s i pub = (s', ok)) :
    Refines p rules s s' ∧ ok = true ∧ (s'.peers i).active := by
  obtain ⟨hen, hc, hl⟩ := h.pushRemote i pub
  have hs₁ : noiseRemoteAlloc p s.noise i pub
      = ((noiseRemoteAlloc p s.noise i pub).1, s.noise.nRemotes) := rfl
  unfold peerInitRuntime at hs
  rw [hs₁] at hs
  simp only [hen, Prod.mk.injEq] at hs
  obtain ⟨rfl, rfl⟩ := hs
  have hset := h.settle hi hout { WgsPeer.blank with
      pubkey := pub, active := true, remote := some s.noise.nRemotes
      cookie := cookieMakerInit p pub, cookieInited := true }
    (g := fun t => t) rfl rfl hc hl rfl (fun _ => rfl) (fun _ => rfl)
  have hnone : s.ledger.tenants i = none := by
    simp only [WgSession.ledger, WgsPeer.tenant, if_neg hout]
  refine ⟨⟨hset.1, ?_⟩, rfl, ?_⟩
  · have hid : ∀ L : Ledger, (L.modTenant i fun t => t) = L := fun L => by
      simp only [Ledger.modTenant, Option.map_id', Function.update_eq_self]
    rw [hset.2, hid]
    exact .single (.enlist pub hnone (hi.trans_le h.small) hrule)
  · rw [setNoise_peers, modPeer_peers, if_pos rfl]

theorem findPeerByPubkey_some {pub : Bytes} {i : ℕ} (h : findPeerByPubkey s pub = some i) :
    i < s.nPeers ∧ (s.peers i).active ∧ (s.peers i).pubkey = pub := by
  unfold findPeerByPubkey at h
  have h1 := List.mem_of_find?_eq_some h
  have h2 := List.find?_some h
  simp only [List.mem_range, decide_eq_true_eq] at h1 h2
  exact ⟨h1, h2⟩

/-- The slot is not in use, and nothing else changes. -/
theorem allocPeerSlot_some (rules : LedgerRules) (h : Accounted p s) {i : ℕ} (hs : allocPeerSlot s = (s', some i)) :
    Refines p rules s s' ∧ i < s'.nPeers ∧ ¬ (s'.peers i).active ∧ s'.ledger = s.ledger := by
  unfold allocPeerSlot at hs
  split at hs
  · next j hj =>
    simp only [Prod.mk.injEq, Option.some.injEq] at hs
    obtain ⟨rfl, rfl⟩ := hs
    have h1 := List.mem_of_find?_eq_some hj
    have h2 := List.find?_some hj
    exact ⟨.refl h, List.mem_range.mp h1, by simpa using h2, rfl⟩
  · split at hs
    · simp at hs
    · next hlt =>
      simp only [Prod.mk.injEq, Option.some.injEq] at hs
      obtain ⟨rfl, rfl⟩ := hs
      have hout : ¬ (s.peers s.nPeers).active := fun ha => (h.range _ ha).false
      exact ⟨⟨⟨h.counted, h.ledger, h.remote, fun j hj => (h.range j hj).trans (Nat.lt_succ_self _),
        by simpa using hlt⟩, .refl⟩, Nat.lt_succ_self _, hout, rfl⟩

theorem allocPeerSlot_none (hs : allocPeerSlot s = (s', none)) : s' = s := by
  unfold allocPeerSlot at hs
  repeat' split at hs
  all_goals simp_all

/-- The session a line leaves. -/
def SetResult.session : SetResult → WgSession
  | .next s _ => s
  | .fail s => s

/-- The peer a line leaves selected is one in use. -/
def SetResult.Selected : SetResult → Prop
  | .next s cur => ∀ i, cur = some i → (s.peers i).active
  | .fail _ => True

theorem setPublicKey_refines (h : Accounted p s) {val : Text}
    (hrule : ∀ pk, hexDecode val 32 = some pk → findPeerByPubkey s pk = none →
      ∀ i, (allocPeerSlot s).2 = some i → rules.addition s.ledger i) :
    Refines p rules s (setPublicKey p s val).session ∧ (setPublicKey p s val).Selected := by
  unfold setPublicKey
  split
  · exact ⟨.refl h, trivial⟩
  next pk hpk =>
  split
  · next i hi =>
    refine ⟨.refl h, ?_⟩
    rintro _ ⟨⟩
    exact (findPeerByPubkey_some hi).2.1
  next hfind =>
  split
  · next s' hs' =>
    obtain rfl := allocPeerSlot_none hs'
    exact ⟨.refl h, trivial⟩
  next s' i hs' =>
  obtain ⟨hr, hi, hout, hled⟩ := allocPeerSlot_some rules h hs'
  have hadd : rules.addition s'.ledger i := by
    rw [hled]
    exact hrule pk hpk hfind i (by rw [hs'])
  split
  · next s'' hs'' =>
    exact absurd (peerInitRuntime_refines hr.1 hi hout hadd hs'').2.1 (by simp)
  · next s'' hs'' =>
    obtain ⟨hr', -, ha⟩ := peerInitRuntime_refines hr.1 hi hout hadd hs''
    refine ⟨hr.trans hr', ?_⟩
    rintro _ ⟨⟩
    exact ha

/-- What the rules ask of a line. -/
def LineAllowed (rules : LedgerRules) (s : WgSession) (cur : Option ℕ) (key val : Text) : Prop :=
  OnRemoval (fun s i => rules.removal s.ledger i) s cur key val
    ∧ OnAddition (fun s i => rules.addition s.ledger i) s cur key val
    ∧ OnEndpoint (fun s i => rules.endpoint s.ledger i) s cur key val

theorem peerSetEndpointStr_some {resolve : Resolver} {peer peer' : WgsPeer} {spec : Text}
    (h : peerSetEndpointStr resolve peer spec = some peer') :
    ∃ host port addr, ∃ len : ℕ+, peer' = { peer with
      endpoint := addr, endpointLen := len, hasEndpoint := true, endpointHost := host
      endpointPort := port } := by
  simp only [peerSetEndpointStr, Option.bind_eq_bind, Option.bind_eq_some_iff, Option.pure_def,
    Option.some.injEq, Prod.exists] at h
  obtain ⟨host, port, -, addr, len, -, rfl⟩ := h
  exact ⟨host, port, addr, len, rfl⟩

theorem setPeerKey_refines (h : Accounted p s) {resolve : Resolver} {i : ℕ}
    (ha : (s.peers i).active) {key val : Text} (hrule : LineAllowed rules s (some i) key val) :
    Refines p rules s (setPeerKey p resolve s i key val).session
      ∧ (setPeerKey p resolve s i key val).Selected := by
  -- an edit of the selected peer
  have edit : ∀ {s' : WgSession}, Refines p rules s s' →
      (s'.peers i).active = (s.peers i).active →
      Refines p rules s (SetResult.next s' (some i)).session
        ∧ (SetResult.next s' (some i)).Selected := fun hr hf => by
    refine ⟨hr, ?_⟩
    rintro _ ⟨⟩
    rw [hf, ha]
  have same : Refines p rules s (SetResult.next s (some i)).session
      ∧ (SetResult.next s (some i)).Selected := by
    refine ⟨.refl h, ?_⟩
    rintro _ ⟨⟩
    exact ha
  unfold setPeerKey
  split
  · next hk =>
    split
    · next hv => exact ⟨tombstone_refines h ha (hrule.1 hk hv i rfl), fun _ hc => by cases hc⟩
    · exact same
  split
  · split
    · exact ⟨.refl h, trivial⟩
    · next psk _ =>
      simp only []
      split
      · next r _ =>
        refine edit (h.quiet ?_ ?_ rfl rfl rfl)
          (by simp only [setNoise_peers, modPeer_peers, if_true])
        · exact h.counted.modRemote rfl rfl rfl rfl
        · exact links_modRemote_fixed rfl
      · exact edit (h.quietPeer rfl rfl rfl) (by simp only [modPeer_peers, if_true])
  split
  · next hk =>
    split
    · exact ⟨.refl h, trivial⟩
    · next peer hpeer =>
      obtain ⟨host, port, addr, len, rfl⟩ := peerSetEndpointStr_some hpeer
      obtain ⟨r, t, -, ht, -⟩ := tenant_of_active h ha
      exact edit (h.loudPeer (g := fun t => { t with
          hasEndpoint := true, endpointLen := (len : ℕ) }) (.setEndpoint len ht (hrule.2.2 hk i rfl)) rfl rfl
        fun _ => rfl) (by simp only [modPeer_peers, if_true])
  split
  · simp only []
    split
    · exact ⟨.refl h, trivial⟩
    · exact edit (h.quietPeer rfl rfl rfl) (by simp only [modPeer_peers, if_true])
  split
  · split
    · exact edit (h.quietPeer rfl rfl rfl) (by simp only [modPeer_peers, if_true])
    · exact same
  split
  · split
    · exact ⟨.refl h, trivial⟩
    · split
      · exact ⟨.refl h, trivial⟩
      · exact edit (h.quietPeer rfl rfl rfl) (by simp only [modPeer_peers, if_true])
  · exact same

/-- Changes outside the peers and the Noise layer. -/
theorem Accounted.outside (h : Accounted p s) (hn : s'.noise = s.noise) (hp : s'.peers = s.peers)
    (hN : s'.nPeers = s.nPeers) : Refines p rules s s' := by
  have hl : s'.ledger = s.ledger := by
    simp only [WgSession.ledger, hn, hp]
  exact h.refines (by rw [hn]; exact h.counted) (hl ▸ .refl) hN (fun _ => by rw [hp])
    fun _ => by rw [hp]

theorem setLine_refines (h : Accounted p s) (resolve : Resolver) {cur : Option ℕ} {line : Text}
    (hcur : ∀ i, cur = some i → (s.peers i).active)
    (hrule : ∀ key val, uapiLine line = some (key, val) → LineAllowed rules s cur key val) :
    Refines p rules s (setLine p resolve s cur line).session
      ∧ (setLine p resolve s cur line).Selected := by
  unfold setLine
  split
  · exact ⟨.refl h, hcur⟩
  next key val hline =>
  unfold setKey
  split
  · exact ⟨.refl h, hcur⟩
  split
  · exact ⟨.refl h, trivial⟩
  split
  · simp only []
    split
    · exact ⟨.refl h, trivial⟩
    · exact ⟨h.outside rfl rfl rfl, hcur⟩
  split
  · next hk => exact setPublicKey_refines h ((hrule key val hline).2.1 hk)
  split
  · exact ⟨.refl h, fun _ hc => by cases hc⟩
  · next i => exact setPeerKey_refines h (hcur i rfl) (hrule key val hline)

/-- A line that is taken keeps the books, and what it selects is in use. -/
theorem setLine_next (h : Accounted p s) {resolve : Resolver} {cur cur' : Option ℕ} {line : Text}
    (hcur : ∀ i, cur = some i → (s.peers i).active)
    (hs : setLine p resolve s cur line = .next s' cur') :
    Accounted p s' ∧ ∀ i, cur' = some i → (s'.peers i).active := by
  have hr : Refines p .all s (setLine p resolve s cur line).session
      ∧ (setLine p resolve s cur line).Selected :=
    setLine_refines h resolve hcur fun _ _ _ =>
      ⟨fun _ _ _ _ => trivial, fun _ _ _ _ _ _ => trivial, fun _ _ _ => trivial⟩
  rw [hs] at hr
  exact ⟨hr.1.1, hr.2⟩

theorem setLines_refines {resolve : Resolver} : ∀ (lines : List Text) {s : WgSession}
    {cur : Option ℕ}, Accounted p s → (∀ i, cur = some i → (s.peers i).active) →
    SetAllowed p resolve (LineAllowed rules) lines s cur →
    Refines p rules s (setLines p resolve lines s cur).2
  | [], s, _, h, _, _ => .refl h
  | line :: rest, s, cur, h, hcur, hok => by
    obtain ⟨hrule, hrest⟩ := hok
    obtain ⟨hr, hsel⟩ := setLine_refines h resolve hcur hrule
    unfold setLines
    split
    · next s' hs' =>
      rw [hs'] at hr
      exact hr
    · next s' cur' hs' =>
      rw [hs'] at hr hsel hrest
      exact hr.trans (setLines_refines rest hr.1 hsel hrest)

theorem insertAllowed_outside (i : ℕ) (s : WgSession) (c : WgsAllowedCidr) :
    (insertAllowed i s c).noise = s.noise ∧ (insertAllowed i s c).peers = s.peers
      ∧ (insertAllowed i s c).nPeers = s.nPeers := by
  unfold insertAllowed
  split <;> exact ⟨rfl, rfl, rfl⟩

theorem foldl_outside {α : Type*} {f : WgSession → α → WgSession}
    (hf : ∀ s a, (f s a).noise = s.noise ∧ (f s a).peers = s.peers ∧ (f s a).nPeers = s.nPeers) :
    ∀ (as : List α) (s : WgSession), (as.foldl f s).noise = s.noise
      ∧ (as.foldl f s).peers = s.peers ∧ (as.foldl f s).nPeers = s.nPeers
  | [], _ => ⟨rfl, rfl, rfl⟩
  | a :: as, s => by
    obtain ⟨h1, h2, h3⟩ := foldl_outside hf as (f s a)
    obtain ⟨h4, h5, h6⟩ := hf s a
    exact ⟨h1.trans h4, h2.trans h5, h3.trans h6⟩

/-- Rebuilding the tries touches nothing else. -/
theorem rebuildAips_outside (s : WgSession) : (rebuildAips s).noise = s.noise
    ∧ (rebuildAips s).peers = s.peers ∧ (rebuildAips s).nPeers = s.nPeers := by
  unfold rebuildAips
  refine foldl_outside (fun s i => ?_) _ _
  split
  · exact foldl_outside (insertAllowed_outside i) _ _
  · exact ⟨rfl, rfl, rfl⟩

theorem setUapi_refines (h : Accounted p s) {resolve : Resolver} {text : Text}
    (hok : SetAllowed p resolve (LineAllowed rules) (strtok '\n' (cstr text)) s none) :
    Refines p rules s (wgSessionSetUapi p resolve s text).2 := by
  have hr := setLines_refines (strtok '\n' (cstr text)) h (fun _ hc => by cases hc) hok
  obtain ⟨h1, h2, h3⟩ := rebuildAips_outside (setLines p resolve (strtok '\n' (cstr text)) s none).2
  exact hr.trans (hr.1.outside h1 h2 h3)

end PolarWG
