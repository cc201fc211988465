import PolarWG.Proofs.Configured

/-!
# A request and the peers it does not name

A line edits at most one slot: the selected peer's, or the one it adds a peer in. The selected
peer is always one a `public_key` line named, and a peer is added only in a slot that is not in
use, so a request leaves alone every peer whose key it does not name.
-/

namespace PolarWG

open Specimen

variable {p : Prims} {s s' s'' : WgSession}

/-- The key a line names, if it is a `public_key` line with one. -/
def namedKey (line : Text) : Option Bytes :=
  (uapiLine line).bind fun (key, val) =>
    if key = "public_key".toList then hexDecode val 32 else none

/-- The keys of the `public_key` lines of a request. -/
def namedKeys (text : Text) : List Bytes := (strtok '\n' (cstr text)).filterMap namedKey

/-! ## Edits of one slot -/

/-- What an edit of the slot `j` leaves: all the other slots, the remotes that are not the slot's,
every keypair and what belongs to the device. -/
structure Edits (j : ℕ) (s s' : WgSession) : Prop where
  privateKey : s'.privateKey = s.privateKey
  ifAddrs : s'.ifAddrs = s.ifAddrs
  nPeers : s.nPeers ≤ s'.nPeers
  peers : ∀ i ≠ j, s'.peers i = s.peers i
  keypairs : s'.noise.keypairs = s.noise.keypairs
  table : s'.noise.lIndexHash = s.noise.lIndexHash
  remotes : ∀ r < s.noise.nRemotes, (s.peers j).remote ≠ some r →
    s'.noise.remotes r = s.noise.remotes r

theorem Edits.refl (j : ℕ) (s : WgSession) : Edits j s s :=
  ⟨rfl, rfl, le_rfl, fun _ _ => rfl, rfl, rfl, fun _ _ _ => rfl⟩

theorem edits_modPeer (j : ℕ) (s : WgSession) (f : WgsPeer → WgsPeer) : Edits j s (s.modPeer j f) :=
  ⟨rfl, rfl, le_rfl, fun i hi => by rw [modPeer_peers, if_neg hi], rfl, rfl, fun _ _ _ => rfl⟩

/-- Changes of the slot's remote, after an edit of the slot. -/
theorem Edits.setNoise {j : ℕ} (h : Edits j s s') {l : NoiseLocal}
    (hk : l.keypairs = s.noise.keypairs) (ht : l.lIndexHash = s.noise.lIndexHash)
    (hr : ∀ r < s.noise.nRemotes, (s.peers j).remote ≠ some r →
      l.remotes r = s.noise.remotes r) : Edits j s (s'.setNoise l) :=
  ⟨h.privateKey, h.ifAddrs, h.nPeers, h.peers, hk, ht, hr⟩

theorem peerTombstone_edits (s : WgSession) (i : ℕ) : Edits i s (peerTombstone s i) := by
  unfold peerTombstone
  split
  · next r hr =>
    simp only []
    have hfix : ∀ r' ≠ r, (noiseRemotePut (noiseRemoteDisable s.noise r) r).remotes r'
        = s.noise.remotes r' := fun r' hne => by
      rw [noiseRemotePut, modRemote_remotes, if_neg hne, noiseRemoteDisable]
      split
      · exact Function.update_of_ne hne ..
      · rfl
    refine (edits_modPeer i s fun _ => .blank).setNoise ?_ ?_ fun r' _ hne => hfix r' ?_
    · rw [noiseRemotePut, noiseRemoteDisable]
      split <;> rfl
    · rw [noiseRemotePut, noiseRemoteDisable]
      split <;> rfl
    · rintro rfl
      exact hne hr
  · exact edits_modPeer i s _

theorem peerInitRuntime_edits (s : WgSession) (i : ℕ) (pk : Bytes) :
    Edits i s (peerInitRuntime p s i pk).1 := by
  have hen : ∀ r < s.noise.nRemotes, (noiseRemoteEnable (noiseRemoteAlloc p s.noise i pk).1
      s.noise.nRemotes).1.remotes r = s.noise.remotes r := fun r hr => by
    have halloc : (noiseRemoteAlloc p s.noise i pk).1.remotes r = s.noise.remotes r :=
      Function.update_of_ne hr.ne ..
    rw [noiseRemoteEnable]
    repeat' split
    · exact halloc
    · exact (Function.update_of_ne hr.ne ..).trans halloc
    · exact halloc
  have hrest : (noiseRemoteEnable (noiseRemoteAlloc p s.noise i pk).1 s.noise.nRemotes).1.keypairs
        = s.noise.keypairs
      ∧ (noiseRemoteEnable (noiseRemoteAlloc p s.noise i pk).1 s.noise.nRemotes).1.lIndexHash
        = s.noise.lIndexHash := by
    rw [noiseRemoteEnable]
    repeat' split
    all_goals exact ⟨rfl, rfl⟩
  have halloc : noiseRemoteAlloc p s.noise i pk
      = ((noiseRemoteAlloc p s.noise i pk).1, s.noise.nRemotes) := rfl
  unfold peerInitRuntime
  rw [halloc]
  simp only []
  rcases he : noiseRemoteEnable (noiseRemoteAlloc p s.noise i pk).1 s.noise.nRemotes with ⟨l, ok⟩
  rw [he] at hen hrest
  cases ok
  · refine (edits_modPeer i s _).setNoise hrest.1 hrest.2 fun r hr _ => ?_
    rw [noiseRemotePut, modRemote_remotes, if_neg hr.ne]
    exact hen r hr
  · exact (edits_modPeer i s _).setNoise hrest.1 hrest.2 fun r hr _ => hen r hr

theorem setPeerKey_edits (resolve : Resolver) (s : WgSession) (i : ℕ) (key val : Text) :
    Edits i s (setPeerKey p resolve s i key val).session
      ∧ ∀ s' cur, setPeerKey p resolve s i key val = .next s' cur → cur = none ∨ cur = some i := by
  have same : Edits i s (SetResult.next s (some i)).session
      ∧ ∀ s' cur, SetResult.next s (some i) = .next s' cur → cur = none ∨ cur = some i :=
    ⟨.refl i s, fun _ _ e => .inr (SetResult.next.inj e).2.symm⟩
  have stop : Edits i s (SetResult.fail s).session
      ∧ ∀ s' cur, SetResult.fail s = .next s' cur → cur = none ∨ cur = some i :=
    ⟨.refl i s, fun _ _ e => nomatch e⟩
  have edit : ∀ {s₁ : WgSession}, Edits i s s₁ → Edits i s (SetResult.next s₁ (some i)).session
      ∧ ∀ s' cur, SetResult.next s₁ (some i) = .next s' cur → cur = none ∨ cur = some i :=
    fun h => ⟨h, fun _ _ e => .inr (SetResult.next.inj e).2.symm⟩
  unfold setPeerKey
  split
  · split
    · exact ⟨peerTombstone_edits s i, fun _ _ e => .inl (SetResult.next.inj e).2.symm⟩
    · exact same
  split
  · split
    · exact stop
    · next psk _ =>
      simp only []
      split
      · next r hr =>
        refine edit ((edits_modPeer i s _).setNoise rfl rfl fun r' _ hne => ?_)
        rw [noiseRemoteSetPsk, modRemote_remotes, if_neg]
        · rfl
        · rintro rfl
          simp only [modPeer_peers, if_true] at hr
          exact hne hr
      · exact edit (edits_modPeer i s _)
  split
  · split
    · exact stop
    · exact edit (edits_modPeer i s _)
  split
  · simp only []
    split
    · exact stop
    · exact edit (edits_modPeer i s _)
  split
  · split
    · exact edit (edits_modPeer i s _)
    · exact same
  split
  · repeat' split
    · exact stop
    · exact stop
    · exact edit (edits_modPeer i s _)
  · exact same

/-! ## Lines -/

/-- A `public_key` line selects a peer with the key, or adds one in a slot that was not in use. -/
theorem setPublicKey_edits (s : WgSession) (val : Text) : ∃ j,
    Edits j s (setPublicKey p s val).session
      ∧ ((s.peers j).active → j < s.nPeers → hexDecode val 32 = some (s.peers j).pubkey)
      ∧ ∀ s' cur, setPublicKey p s val = .next s' cur → cur = some j := by
  -- a slot past the others for the cases in which none is edited
  have hpast : (s.peers s.nPeers).active → s.nPeers < s.nPeers →
      hexDecode val 32 = some (s.peers s.nPeers).pubkey := fun _ h => absurd h (lt_irrefl _)
  unfold setPublicKey
  split
  · exact ⟨s.nPeers, .refl _ s, hpast, fun _ _ e => nomatch e⟩
  next pk hpk =>
  split
  · next i hi =>
    refine ⟨i, .refl i s, fun _ _ => ?_, fun _ _ e => (SetResult.next.inj e).2.symm⟩
    rw [(findPeerByPubkey_some hi).2.2, hpk]
  split
  · next s₁ h₁ =>
    obtain rfl := allocPeerSlot_none h₁
    exact ⟨s₁.nPeers, .refl _ s₁, hpast, fun _ _ e => nomatch e⟩
  next s₁ i h₁ =>
  have hfree : Edits i s s₁ ∧ ((s.peers i).active → i < s.nPeers →
      hexDecode val 32 = some (s.peers i).pubkey) ∧ s₁.noise = s.noise ∧ s₁.peers = s.peers := by
    unfold allocPeerSlot at h₁
    split at h₁
    · next j hj =>
      simp only [Prod.mk.injEq, Option.some.injEq] at h₁
      obtain ⟨rfl, rfl⟩ := h₁
      refine ⟨.refl _ _, fun ha => ?_, rfl, rfl⟩
      exact absurd ha (by simpa using List.find?_some hj)
    · split at h₁
      · simp at h₁
      · simp only [Prod.mk.injEq, Option.some.injEq] at h₁
        obtain ⟨rfl, rfl⟩ := h₁
        exact ⟨⟨rfl, rfl, Nat.le_succ _, fun _ _ => rfl, rfl, rfl, fun _ _ _ => rfl⟩, hpast, rfl, rfl⟩
  obtain ⟨he₁, hname, hnoise, hpeers⟩ := hfree
  have he₂ := peerInitRuntime_edits (p := p) s₁ i pk
  have he : Edits i s (peerInitRuntime p s₁ i pk).1 := by
    refine ⟨he₂.privateKey.trans he₁.privateKey, he₂.ifAddrs.trans he₁.ifAddrs,
      he₁.nPeers.trans he₂.nPeers, fun j hj => (he₂.peers j hj).trans (he₁.peers j hj),
      he₂.keypairs.trans he₁.keypairs, he₂.table.trans he₁.table, fun r hr hne => ?_⟩
    rw [he₂.remotes r (hnoise ▸ hr) (hpeers ▸ hne), hnoise]
  refine ⟨i, ?_⟩
  split
  · next s₂ h₂ =>
    rw [h₂] at he
    exact ⟨he, hname, fun _ _ e => nomatch e⟩
  · next s₂ h₂ =>
    rw [h₂] at he
    exact ⟨he, hname, fun _ _ e => (SetResult.next.inj e).2.symm⟩

/-- A line edits the selected peer or one it names, and one of these is selected after it. -/
theorem setLine_edits (resolve : Resolver) (s : WgSession) (cur : Option ℕ) (line : Text) : ∃ j,
    Edits j s (setLine p resolve s cur line).session
      ∧ ((s.peers j).active → j < s.nPeers → cur = some j ∨ namedKey line = some (s.peers j).pubkey)
      ∧ ∀ s' cur', setLine p resolve s cur line = .next s' cur' →
        cur' = none ∨ cur' = cur ∨ cur' = some j := by
  have hpast : ∀ q : Prop, (s.peers s.nPeers).active → s.nPeers < s.nPeers → q :=
    fun _ _ h => absurd h (lt_irrefl _)
  have same : ∃ j, Edits j s (SetResult.next s cur).session
      ∧ ((s.peers j).active → j < s.nPeers → cur = some j ∨ namedKey line = some (s.peers j).pubkey)
      ∧ ∀ s' cur', SetResult.next s cur = .next s' cur' →
        cur' = none ∨ cur' = cur ∨ cur' = some j :=
    ⟨s.nPeers, .refl _ s, hpast _, fun _ _ e => .inr (.inl (SetResult.next.inj e).2.symm)⟩
  have stop : ∃ j, Edits j s (SetResult.fail s).session
      ∧ ((s.peers j).active → j < s.nPeers → cur = some j ∨ namedKey line = some (s.peers j).pubkey)
      ∧ ∀ s' cur', SetResult.fail s = .next s' cur' → cur' = none ∨ cur' = cur ∨ cur' = some j :=
    ⟨s.nPeers, .refl _ s, hpast _, fun _ _ e => nomatch e⟩
  unfold setLine
  split
  · exact same
  next key val hline =>
  unfold setKey
  split
  · exact same
  split
  · exact stop
  split
  · simp only []
    split
    · exact stop
    · exact ⟨s.nPeers, ⟨rfl, rfl, le_rfl, fun _ _ => rfl, rfl, rfl, fun _ _ _ => rfl⟩, hpast _,
        fun _ _ e => .inr (.inl (SetResult.next.inj e).2.symm)⟩
  split
  · next hkey =>
    obtain ⟨j, he, hname, hsel⟩ := setPublicKey_edits (p := p) s val
    refine ⟨j, he, fun ha hj => .inr ?_, fun s' cur' h => .inr (.inr (hsel s' cur' h))⟩
    rw [namedKey, hline, Option.bind_some]
    exact (if_pos hkey).trans (hname ha hj)
  split
  · exact same
  · next i =>
    obtain ⟨he, hsel⟩ := setPeerKey_edits (p := p) resolve s i key val
    refine ⟨i, he, fun _ _ => .inl rfl, fun s' cur' h => ?_⟩
    rcases hsel s' cur' h with hc | hc
    · exact .inl hc
    · exact .inr (.inr hc)

/-! ## Requests -/

theorem setLines_device (resolve : Resolver) : ∀ (lines : List Text) (s : WgSession)
    (cur : Option ℕ), (setLines p resolve lines s cur).2.privateKey = s.privateKey
      ∧ (setLines p resolve lines s cur).2.ifAddrs = s.ifAddrs
      ∧ (setLines p resolve lines s cur).2.noise.keypairs = s.noise.keypairs
      ∧ (setLines p resolve lines s cur).2.noise.lIndexHash = s.noise.lIndexHash
  | [], _, _ => ⟨rfl, rfl, rfl, rfl⟩
  | line :: rest, s, cur => by
    obtain ⟨j, he, -⟩ := setLine_edits (p := p) resolve s cur line
    unfold setLines
    split
    · next h₁ =>
      rw [h₁] at he
      exact ⟨he.privateKey, he.ifAddrs, he.keypairs, he.table⟩
    · next s₁ cur₁ h₁ =>
      rw [h₁] at he
      obtain ⟨h1, h2, h3, h4⟩ := setLines_device resolve rest s₁ cur₁
      exact ⟨h1.trans he.privateKey, h2.trans he.ifAddrs, h3.trans he.keypairs, h4.trans he.table⟩

/-- The peer in slot `i` as it was, and no slot less. -/
structure Leaves (i : ℕ) (s s' : WgSession) : Prop where
  peer : s'.peers i = s.peers i
  nPeers : s.nPeers ≤ s'.nPeers

theorem Leaves.trans {i : ℕ} (h : Leaves i s s') (h' : Leaves i s' s'') : Leaves i s s'' :=
  ⟨h'.peer.trans h.peer, h.nPeers.trans h'.nPeers⟩

/-- A line whose key is another's, read while another peer is selected. -/
theorem setLine_leaves (resolve : Resolver) {cur : Option ℕ} {line : Text} {i : ℕ}
    (ha : (s.peers i).active) (hi : i < s.nPeers) (hcur : cur ≠ some i)
    (hname : namedKey line ≠ some (s.peers i).pubkey) :
    Leaves i s (setLine p resolve s cur line).session
      ∧ (∀ s' cur', setLine p resolve s cur line = .next s' cur' → cur' ≠ some i)
      ∧ (Accounted p s → ∀ r, (s.peers i).remote = some r →
        (setLine p resolve s cur line).session.noise.remotes r = s.noise.remotes r) := by
  obtain ⟨j, he, hslot, hsel⟩ := setLine_edits (p := p) resolve s cur line
  have hij : i ≠ j := by
    rintro rfl
    rcases hslot ha hi with h | h
    · exact hcur h
    · exact hname h
  refine ⟨⟨he.peers i hij, he.nPeers⟩, fun s' cur' h => ?_, fun hacc r hr => ?_⟩
  · rcases hsel s' cur' h with rfl | rfl | rfl
    · simp
    · exact hcur
    · simpa using hij.symm
  · -- the remote of one slot is not the remote of another
    obtain ⟨r', t, hr', ht, rfl, -⟩ := tenant_of_active hacc ha
    obtain rfl : t.remote = r := Option.some.inj (hr'.symm.trans hr)
    refine he.remotes _ (hacc.ledger.owner i t ht).2.1 fun hj => ?_
    have haj : (s.peers j).active := by rw [hacc.remote, hj]; rfl
    obtain ⟨_, u, hu', hu, rfl, -⟩ := tenant_of_active hacc haj
    exact hij (hacc.ledger.owner_unique ht hu (Option.some.inj (hj.symm.trans hu')))

/-- Over the lines of a request another peer, or none, stays selected. -/
theorem setLines_leaves (resolve : Resolver) : ∀ (lines : List Text) {s : WgSession}
    (cur : Option ℕ) {i : ℕ}, (s.peers i).active → i < s.nPeers → cur ≠ some i →
    (s.peers i).pubkey ∉ lines.filterMap namedKey →
    Leaves i s (setLines p resolve lines s cur).2
      ∧ (Accounted p s → (∀ j, cur = some j → (s.peers j).active) → ∀ r, (s.peers i).remote = some r →
        (setLines p resolve lines s cur).2.noise.remotes r = s.noise.remotes r)
  | [], s, _, i, _, _, _, _ => ⟨⟨rfl, le_rfl⟩, fun _ _ _ _ => rfl⟩
  | line :: rest, s, cur, i, ha, hi, hcur, hname => by
    have hline : namedKey line ≠ some (s.peers i).pubkey := fun h =>
      hname (List.mem_filterMap.mpr ⟨line, List.mem_cons_self, h⟩)
    obtain ⟨hl, hsel, hrem⟩ := setLine_leaves (p := p) resolve ha hi hcur hline
    unfold setLines
    split
    · next s₁ h₁ =>
      rw [h₁] at hl hrem
      exact ⟨hl, fun hacc _ => hrem hacc⟩
    · next s₁ cur₁ h₁ =>
      rw [h₁] at hl hrem
      have hpeer : s₁.peers i = s.peers i := hl.peer
      obtain ⟨hl', hrem'⟩ := setLines_leaves (s := s₁) resolve rest cur₁
        (by rw [hpeer]; exact ha) (hi.trans_le hl.nPeers) (hsel s₁ cur₁ h₁) fun h => by
          rw [hpeer] at h
          obtain ⟨line', hm, h⟩ := List.mem_filterMap.mp h
          exact hname (List.mem_filterMap.mpr ⟨line', List.mem_cons_of_mem _ hm, h⟩)
      refine ⟨hl.trans hl', fun hacc hact r hr => ?_⟩
      obtain ⟨hacc', hact'⟩ := setLine_next hacc hact h₁
      exact (hrem' hacc' hact' r (by rw [hpeer]; exact hr)).trans (hrem hacc r hr)

theorem rebuildAips_device (s : WgSession) : (rebuildAips s).privateKey = s.privateKey
    ∧ (rebuildAips s).ifAddrs = s.ifAddrs ∧ (rebuildAips s).listenPort = s.listenPort := by
  have hins : ∀ (i : ℕ) (cs : List WgsAllowedCidr) (s : WgSession),
      (cs.foldl (insertAllowed i) s).privateKey = s.privateKey
        ∧ (cs.foldl (insertAllowed i) s).ifAddrs = s.ifAddrs
        ∧ (cs.foldl (insertAllowed i) s).listenPort = s.listenPort := fun i cs => by
    induction cs with
    | nil => exact fun _ => ⟨rfl, rfl, rfl⟩
    | cons c cs ih =>
      intro s
      rw [List.foldl_cons]
      obtain ⟨h1, h2, h3⟩ := ih (insertAllowed i s c)
      rw [h1, h2, h3]
      unfold insertAllowed
      split <;> exact ⟨rfl, rfl, rfl⟩
  have hloop : ∀ (is : List ℕ) (s : WgSession),
      let s' := is.foldl (fun s i =>
        if (s.peers i).active then (s.peers i).allowed.foldl (insertAllowed i) s else s) s
      s'.privateKey = s.privateKey ∧ s'.ifAddrs = s.ifAddrs ∧ s'.listenPort = s.listenPort :=
    fun is => by
      induction is with
      | nil => exact fun _ => ⟨rfl, rfl, rfl⟩
      | cons i is ih =>
        intro s
        simp only [List.foldl_cons]
        obtain ⟨h1, h2, h3⟩ := ih (if (s.peers i).active then
          (s.peers i).allowed.foldl (insertAllowed i) s else s)
        rw [h1, h2, h3]
        split
        · exact hins i _ s
        · exact ⟨rfl, rfl, rfl⟩
  exact hloop (List.range s.nPeers) _

/-- A request, whatever it returns, leaves the private key, the interface addresses and every peer
in use that it does not name, the peer's remote with it. -/
theorem set_frame (p : Prims) (resolve : Resolver) (s : WgSession) (text : Text) :
    (wgSessionSetUapi p resolve s text).2.privateKey = s.privateKey
      ∧ (wgSessionSetUapi p resolve s text).2.ifAddrs = s.ifAddrs
      ∧ (wgSessionSetUapi p resolve s text).2.noise.keypairs = s.noise.keypairs
      ∧ (wgSessionSetUapi p resolve s text).2.noise.lIndexHash = s.noise.lIndexHash
      ∧ ∀ i < s.nPeers, (s.peers i).active → (s.peers i).pubkey ∉ namedKeys text →
        (wgSessionSetUapi p resolve s text).2.peers i = s.peers i
          ∧ (ReachableIf p (fun _ _ => True) s → ∀ r, (s.peers i).remote = some r →
            (wgSessionSetUapi p resolve s text).2.noise.remotes r = s.noise.remotes r) := by
  set lines := strtok '\n' (cstr text) with hlines
  have hs : (wgSessionSetUapi p resolve s text).2 = rebuildAips (setLines p resolve lines s none).2 :=
    rfl
  obtain ⟨hnoise, hpeers, -⟩ := rebuildAips_outside (setLines p resolve lines s none).2
  obtain ⟨hpriv, haddrs, -⟩ := rebuildAips_device (setLines p resolve lines s none).2
  obtain ⟨h1, h2, h3, h4⟩ := setLines_device (p := p) resolve lines s none
  rw [hs, hpriv, haddrs, hnoise, hpeers]
  refine ⟨h1, h2, h3, h4, fun i hi ha hname => ?_⟩
  obtain ⟨hl, hrem⟩ := setLines_leaves (p := p) resolve lines none ha hi (by simp) hname
  exact ⟨hl.peer, fun hreach => hrem (reachable_accounted hreach) fun _ hc => nomatch hc⟩

end PolarWG
