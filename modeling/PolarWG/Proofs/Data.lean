import PolarWG.Proofs.Refinement

/-!
# The data path against the ledger

What taking in a data packet and sending one do. A packet is taken in where it is authentic under
the keypair its index leads to; the slot it is put down to is the one that keypair's remote points
at.
-/

namespace PolarWG

variable {p : Prims} {rules : LedgerRules} {s s' s'' : WgSession}

/-! ## Data -/

theorem modKeypair_modKeypair (l : NoiseLocal) (k : ℕ) (f g : NoiseKeypair → NoiseKeypair) :
    (l.modKeypair k f).modKeypair k g = l.modKeypair k fun v => g (f v) := by
  simp only [NoiseLocal.modKeypair, Function.update_idem, Function.update_self]

/-- A reference taken to a keypair that has not been freed, and put. -/
theorem keypairPut_ref {l : NoiseLocal} {k : ℕ} (h : (l.keypairs k).kpRefcnt ≠ 0) :
    noiseKeypairPut (noiseKeypairRef l k) k = l := by
  unfold noiseKeypairPut noiseKeypairRef
  rw [modKeypair_modKeypair, modKeypair_keypairs, if_pos rfl, if_neg (by simpa using h)]
  simp only [NoiseLocal.modKeypair, Nat.add_sub_cancel, Function.update_eq_self]

theorem keypairLookup_some {l l' : NoiseLocal} {idx : UInt32} {k : ℕ}
    (h : noiseKeypairLookup l idx = (l', some k)) : .keypair k ∈ l.lIndexHash
      ∧ (l.keypairs k).iLocalIndex = idx ∧ (l.keypairs k).kpRefcnt ≠ 0
      ∧ l' = noiseKeypairRef l k := by
  unfold noiseKeypairLookup at h
  split at h
  · next k' hf =>
    split at h
    · simp at h
    · next hc =>
      simp only [Prod.mk.injEq, Option.some.injEq] at h
      obtain ⟨h1, rfl⟩ := h
      have := List.find?_some hf
      simp only [decide_eq_true_eq] at this
      exact ⟨List.mem_of_find?_eq_some hf, this.1, hc, h1.symm⟩
  · simp at h

theorem keypairLookup_none {l l' : NoiseLocal} {idx : UInt32}
    (h : noiseKeypairLookup l idx = (l', none)) : l' = l := by
  unfold noiseKeypairLookup at h
  repeat' split at h
  all_goals simp_all

/-- The datagram is a data message that is authentic under keypair `k`, with `m` in it. -/
structure Accepts (p : Prims) (s : WgSession) (bytes : Bytes) (now : Moment) (k : ℕ) (m : Bytes) :
    Prop where
  length : 32 ≤ bytes.length
  lookup : (noiseKeypairLookup s.noise (le32dec (slice 4 4 bytes))).2 = some k
  decrypt : noiseKeypairDecrypt p s.noise k (leDec (slice 8 8 bytes)) (bytes.drop 16)
    now.getsbinuptime = some m

theorem Accepts.mem {bytes : Bytes} {now : Moment} {k : ℕ} {m : Bytes}
    (h : Accepts p s bytes now k m) : .keypair k ∈ s.noise.lIndexHash :=
  (keypairLookup_some (Prod.ext rfl h.lookup)).1

/-- The Noise layer after a packet under `k`. -/
def afterReceipt (l : NoiseLocal) (k : ℕ) : NoiseLocal :=
  noiseKeypairPut (noiseKeypairReceivedWith (noiseKeypairRef l k) k) k

/-- The slot that packets under `k` are put down to. -/
def slotOf (l : NoiseLocal) (k : ℕ) : ℕ := (l.remotes (l.keypairs k).kpRemote).rArg

theorem decrypt_ref (p : Prims) (l : NoiseLocal) (k nonce : ℕ) (m : Bytes) (now : ℤ) :
    noiseKeypairDecrypt p (noiseKeypairRef l k) k nonce m now
      = noiseKeypairDecrypt p l k nonce m now := by
  simp only [noiseKeypairDecrypt, noiseKeypairRef, modKeypair_keypairs, if_true]

theorem slotOf_links (l : NoiseLocal) (k : ℕ) :
    slotOf l k = (l.links.remotes (l.links.keypairs k).remote).arg := rfl

theorem slotOf_receivedWith (l : NoiseLocal) (k : ℕ) :
    slotOf (noiseKeypairReceivedWith (noiseKeypairRef l k) k) k = slotOf l k := by
  rw [slotOf_links, slotOf_links, links_receivedWith, links_keypairRef]
  split
  · rw [Links.modRemote_remotes]
    show (if (l.links.keypairs k).remote = _ then _ else _ : RemoteLink).arg = _
    split
    · next e => rw [e]; rfl
    · rfl
  · rfl

theorem slotOf_afterReceipt (l : NoiseLocal) (k : ℕ) : slotOf (afterReceipt l k) k = slotOf l k := by
  rw [← slotOf_receivedWith l, slotOf_links, afterReceipt, links_keypairPut, ← slotOf_links]

theorem handleData_accepts {bytes : Bytes} {now : Moment} {k : ℕ} {m : Bytes}
    (h : Accepts p s bytes now k m) (src : Sockaddr) (srcLen : ℕ) :
    wgsHandleData p s bytes src srcLen now
      = wgsDeliver (s.setNoise (afterReceipt s.noise k)) (slotOf s.noise k) m src srcLen := by
  obtain ⟨hlen, hlook, hdec⟩ := h
  obtain ⟨l, hpair⟩ : ∃ l, noiseKeypairLookup s.noise (le32dec (slice 4 4 bytes)) = (l, some k) :=
    ⟨_, Prod.ext rfl hlook⟩
  obtain ⟨-, -, -, rfl⟩ := keypairLookup_some hpair
  unfold wgsHandleData
  rw [if_neg (by omega), hpair]
  simp only [decrypt_ref, hdec, noiseKeypairRemote, put_ref]
  rw [← slotOf_receivedWith]
  simp only [slotOf, noiseRemoteRef, modRemote_remotes, if_true]
  rfl

/-- What is not taken in changes nothing. -/
theorem handleData_rejects {bytes : Bytes} {now : Moment} (h : ¬ ∃ k m, Accepts p s bytes now k m)
    (src : Sockaddr) (srcLen : ℕ) : wgsHandleData p s bytes src srcLen now = (-1, s, []) := by
  unfold wgsHandleData
  split
  · rfl
  next hlen =>
  split
  · next l hl => rw [keypairLookup_none hl]; rfl
  next l k hl =>
  obtain ⟨-, -, hc, rfl⟩ := keypairLookup_some hl
  simp only [decrypt_ref]
  split
  · rw [keypairPut_ref hc]
    rfl
  · next m hm => exact absurd ⟨k, m, by omega, by rw [hl], hm⟩ h

/-- A keypair in the table is in a place of its remote. -/
theorem Accounted.slots_of_table (h : Accounted p s) {k : ℕ} (hk : .keypair k ∈ s.noise.lIndexHash) :
    k ∈ s.noise.slots (s.noise.keypairs k).kpRemote := by
  obtain ⟨hheld, -⟩ := (h.counted.keypairLinked k).mp hk
  exact hheld.resolve_right (by simp [Links.refs])

theorem held_of_links {l l' : NoiseLocal} {ρ : Refs} {k : ℕ} (h : l'.links = l.links) :
    Held l' ρ k ↔ Held l ρ k := by
  show k ∈ (l'.links.remotes (l'.links.keypairs k).remote).slots ∨ _ ↔
    k ∈ (l.links.remotes (l.links.keypairs k).remote).slots ∨ _
  rw [h]

/-- The Noise layer's part of taking in a packet under `k`. -/
theorem afterReceipt_refines (rules : LedgerRules) (h : Accounted p s) {k : ℕ} (hk : .keypair k ∈ s.noise.lIndexHash) :
    Refines p rules s (s.setNoise (afterReceipt s.noise k))
      ∧ k ∈ (afterReceipt s.noise k).slots (s.noise.keypairs k).kpRemote := by
  unfold afterReceipt
  set l := noiseKeypairReceivedWith (noiseKeypairRef s.noise k) k with hl
  set r := (s.noise.keypairs k).kpRemote with hr
  have hslot : k ∈ s.noise.slots r := h.slots_of_table hk
  have hkr : ((noiseKeypairRef s.noise k).keypairs k).kpRemote = r :=
    modKeypair_of_fixed (l := s.noise) NoiseKeypair.kpRemote rfl k
  have hlinks : l.links = if (s.noise.remotes r).rNext = some k then
      s.noise.links.modRemote r (·.confirmed k) else s.noise.links := by
    rw [hl, links_receivedWith, hkr, links_keypairRef]
    rfl
  have hcount : Counted l (s.noise.links.refs.addPin k) :=
    (h.counted.keypairRef k).receivedWith rfl rfl fun k' hne => by
      simp [Refs.addPin, Links.refs, hne]
  have hslot' : k ∈ l.slots r := by
    show k ∈ (l.links.remotes r).slots
    rw [hlinks]
    split
    · rw [Links.modRemote_remotes, if_pos rfl]
      simp [RemoteLink.confirmed, RemoteLink.slots]
    · exact hslot
  have hput : (noiseKeypairPut l k).links = l.links := links_keypairPut l k
  have hkr' : (l.keypairs k).kpRemote = r := hcount.slotRemote r k hslot'
  refine ⟨?_, by
    show k ∈ ((noiseKeypairPut l k).links.remotes r).slots
    rw [hput]
    exact hslot'⟩
  refine h.refines ?_ ?_ rfl (fun _ => rfl) (fun _ => rfl)
  · rw [setNoise_noise, hput]
    have hrefs : l.links.refs = s.noise.links.refs := by
      rw [hlinks]
      split
      · exact refs_modRemote rfl
      · rfl
    rw [hrefs]
    exact hcount.keypairPut (.inl (hkr' ▸ hslot'))
  · rw [ledger_of_setNoise, hput, hlinks]
    split
    · next hnext =>
      refine .single ?_
      exact LedgerStep.confirm (L := s.ledger) (r := r) hnext
    · exact .refl

/-- Whatever becomes of the packet, the slot's endpoint is where it came from. -/
theorem deliver_peer {i : ℕ} {m : Bytes} {src : Sockaddr} {srcLen : ℕ} {rc : Int}
    {out : List Upcall} (hs : wgsDeliver s i m src srcLen = (rc, s', out)) :
    ∃ f : WgsPeer → WgsPeer, s' = s.modPeer i f ∧ ∀ v, (f v).active = v.active
      ∧ (f v).remote = v.remote ∧ ∀ r, (f v).tenantOf r = { v.tenantOf r with endpointLen := srcLen } := by
  have twice : ∀ f g : WgsPeer → WgsPeer, (s.modPeer i f).modPeer i g
      = s.modPeer i fun v => g (f v) := fun f g => by
    simp only [WgSession.modPeer, Function.update_self, Function.update_idem]
  unfold wgsDeliver at hs
  simp only [twice] at hs
  repeat' split at hs
  all_goals
    simp only [Prod.mk.injEq] at hs
    exact ⟨_, hs.2.1.symm, fun _ => ⟨rfl, rfl, fun _ => rfl⟩⟩

theorem handleData_refines (h : Accounted p s) {bytes : Bytes} {src : Sockaddr} {srcLen : ℕ}
    {now : Moment} {rc : Int} {out : List Upcall} (hsrc : rules.source srcLen)
    (hs : wgsHandleData p s bytes src srcLen now = (rc, s', out)) : Refines p rules s s' := by
  by_cases hacc : ∃ k m, Accepts p s bytes now k m
  · obtain ⟨k, m, hacc⟩ := hacc
    obtain ⟨hr, hk⟩ := afterReceipt_refines rules h hacc.mem
    rw [handleData_accepts hacc, ← slotOf_afterReceipt] at hs
    obtain ⟨f, rfl, hf⟩ := deliver_peer hs
    set s₁ := s.setNoise (afterReceipt s.noise k)
    have hlinked : s₁.ledger.Linked (.keypair k) := by
      have hk' := hr.1.counted.slotRemote _ k hk
      show k ∈ s₁.noise.slots (s₁.noise.keypairs k).kpRemote
      rw [hk']
      exact hk
    refine hr.trans (hr.1.refines hr.1.counted (.single ?_) rfl
      (modPeer_of_fixed _ (hf _).1) (modPeer_of_fixed _ (hf _).2.1))
    rw [ledger_modPeer (tenant_map (hf _).1 (hf _).2.1
      (g := fun t => { t with endpointLen := srcLen }) fun r => ((hf _).2.2 r).symm)]
    exact .roam srcLen hlinked hsrc
  · rw [handleData_rejects hacc] at hs
    simp only [Prod.mk.injEq] at hs
    exact hs.2.1 ▸ .refl h

/-! ## Sending -/

theorem keypairCurrent_some {l l' : NoiseLocal} {r k : ℕ} {now : ℤ}
    (h : noiseKeypairCurrent l r now = (l', some k)) : (l.remotes r).rCurrent = some k
      ∧ (l.keypairs k).kpCanSend
      ∧ ¬ noiseTimerExpired now (l.keypairs k).kpBirthdate rejectAfterTime 0
      ∧ l' = noiseKeypairRef l k := by
  unfold noiseKeypairCurrent at h
  repeat' split at h
  all_goals simp only [Prod.mk.injEq, reduceCtorEq, and_false, Option.some.injEq] at h
  next k' hk hs he hc =>
  obtain ⟨rfl, rfl⟩ := h
  exact ⟨hk, hs, he, rfl⟩

theorem keypairCurrent_none {l l' : NoiseLocal} {r : ℕ} {now : ℤ}
    (h : noiseKeypairCurrent l r now = (l', none)) :
    l'.links = l.links ∧ ∀ ρ, Counted l ρ → Counted l' ρ := by
  unfold noiseKeypairCurrent at h
  repeat' split at h
  all_goals
    simp only [Prod.mk.injEq, reduceCtorEq, and_false, and_true] at h
    try subst h
  · exact ⟨rfl, fun _ => id⟩
  · exact ⟨links_modKeypair_fixed rfl, fun _ hc => hc.modKeypair rfl rfl rfl⟩
  · exact ⟨rfl, fun _ => id⟩
  · exact ⟨rfl, fun _ => id⟩

theorem nonceNext_quiet {l l' : NoiseLocal} {k : ℕ} {o : Option ℕ}
    (h : noiseKeypairNonceNext l k = (l', o)) :
    l'.links = l.links ∧ ∀ ρ, Counted l ρ → Counted l' ρ := by
  have once : ∀ {l : NoiseLocal} {f : NoiseKeypair → NoiseKeypair}, (∀ v, (f v).link = v.link) →
      (∀ v, (f v).kpRefcnt = v.kpRefcnt) →
      (l.modKeypair k f).links = l.links ∧ ∀ ρ, Counted l ρ → Counted (l.modKeypair k f) ρ :=
    fun hl hc => ⟨links_modKeypair_fixed (hl _), fun _ h => h.modKeypair
      (congrArg KeypairLink.idx (hl _)) (congrArg KeypairLink.remote (hl _)) (hc _)⟩
  unfold noiseKeypairNonceNext at h
  simp only [] at h
  repeat' split at h
  all_goals
    simp only [Prod.mk.injEq] at h
    obtain ⟨rfl, -⟩ := h
  · exact once (fun _ => rfl) (fun _ => rfl)
  · obtain ⟨h1, h2⟩ := once (l := l)
      (f := fun v => { v with kpNonceSend := (l.keypairs k).kpNonceSend + 1 })
      (fun _ => rfl) (fun _ => rfl)
    obtain ⟨h3, h4⟩ := once
      (l := l.modKeypair k fun v => { v with kpNonceSend := (l.keypairs k).kpNonceSend + 1 })
      (f := fun v => { v with kpCanSend := false }) (fun _ => rfl) (fun _ => rfl)
    exact ⟨h3.trans h1, fun ρ hc => h4 ρ (h2 ρ hc)⟩
  · exact ⟨rfl, fun _ => id⟩

/-- Sending under the current keypair leaves the ledger as it is. -/
theorem encap_refines (h : Accounted p s) {i : ℕ} {plain : Bytes} {env : EncapEnv} {rc : Int}
    {out : List Upcall} (hs : wgsEncap p s i plain env = (rc, s', out)) : Refines p rules s s' := by
  unfold wgsEncap at hs
  simp only [] at hs
  generalize (if (plain.length + 15) / 16 * 16 = 0 then 16 else (plain.length + 15) / 16 * 16)
    = padded at hs
  split at hs
  · simp only [Prod.mk.injEq] at hs
    exact hs.2.1 ▸ .refl h
  split at hs
  · simp only [Prod.mk.injEq] at hs
    exact hs.2.1 ▸ .refl h
  split at hs
  · simp only [Prod.mk.injEq] at hs
    exact hs.2.1 ▸ .refl h
  next r hr =>
  split at hs
  · next l hl =>
    simp only [Prod.mk.injEq] at hs
    obtain ⟨h1, h2⟩ := keypairCurrent_none hl
    exact hs.2.1 ▸ h.quietNoise (h2 _ h.counted) h1
  next l k hl =>
  obtain ⟨hcur, -, -, rfl⟩ := keypairCurrent_some hl
  have hslot : k ∈ s.noise.slots r := by
    simp [NoiseLocal.slots, NoiseRemote.link, RemoteLink.slots, hcur]
  have hheld : Held s.noise s.noise.links.refs k :=
    .inl ((h.counted.slotRemote r k hslot).symm ▸ hslot)
  -- the keypair is held while its nonce is drawn
  have hput : ∀ l', l'.links = (noiseKeypairRef s.noise k).links →
      (∀ ρ, Counted (noiseKeypairRef s.noise k) ρ → Counted l' ρ) →
      (noiseKeypairPut l' k).links = s.noise.links
        ∧ Counted (noiseKeypairPut l' k) s.noise.links.refs := fun l' h1 h2 => by
    refine ⟨by rw [links_keypairPut, h1, links_keypairRef], ?_⟩
    exact (h2 _ (h.counted.keypairRef k)).keypairPut
      ((held_of_links (h1.trans (links_keypairRef _ _))).mpr hheld)
  split at hs
  · next l' hn =>
    simp only [Prod.mk.injEq] at hs
    obtain ⟨h1, h2⟩ := nonceNext_quiet hn
    obtain ⟨h3, h4⟩ := hput _ h1 h2
    exact hs.2.1 ▸ h.quietNoise h4 h3
  next l' nonce hn =>
  obtain ⟨h1, h2⟩ := nonceNext_quiet hn
  obtain ⟨h3, h4⟩ := hput _ h1 h2
  split at hs
  · simp only [Prod.mk.injEq] at hs
    exact hs.2.1 ▸ h.quietNoise h4 h3
  split at hs
  · simp only [Prod.mk.injEq] at hs
    exact hs.2.1 ▸ h.quietNoise h4 h3
  · simp only [Prod.mk.injEq] at hs
    exact hs.2.1 ▸ h.quiet h4 h3 rfl rfl rfl

end PolarWG
