import PolarWG.Proofs.Simulation
import PolarWG.Specimen

/-!
# Pending handshakes and the index table

A session's own record of a pending handshake agrees with its Noise layer in every run. What the
index table holds has not been freed as long as no request removes a peer whose handshake is all
that its remote is kept for.
-/

namespace PolarWG

open Specimen

variable {p : Prims} {s : WgSession}

/-! ## Pending handshakes -/

/-- Nothing is asked of a run but that an answer does not fail half way. -/
def LedgerRules.swift : LedgerRules := { LedgerRules.all with stall := False }

theorem reachable_pending (hcurve : p.Curve) (h : ReachableIf p (fun _ _ => True) s) :
    Accounted p s ∧ PendingInv s.ledger :=
  reachable_invariant .swift (.inr hcurve)
    (fun s call _ => by
      have := callAllowed_all (p := p) s call
      cases call <;> exact this)
    PendingInv (fun _ hf i t ht hp => absurd hp (hf.pending i t ht))
    (fun _ _ hi h hs => h.step hi (fun hf => hf) hs) h

/-- In every run, a pending peer's remote is in its own handshake under the index the peer
remembers, no two pending peers remember the same index, and a response that is found a pending
peer and completes a handshake completes that peer's. -/
theorem pending_coherent (hcurve : p.Curve) (h : ReachableIf p (fun _ _ => True) s) :
    (∀ i, (s.peers i).active → (s.peers i).hsPending → ∃ r, (s.peers i).remote = some r
      ∧ (s.noise.remotes r).rHandshakeState = .initiator
      ∧ (s.noise.remotes r).iLocalIndex = (s.peers i).hsLocalIdx)
    ∧ (∀ i j, (s.peers i).active → (s.peers i).hsPending → (s.peers j).active →
      (s.peers j).hsPending → (s.peers i).hsLocalIdx = (s.peers j).hsLocalIdx → i = j)
    ∧ ∀ sIdx rIdx msg birth i l r, findPending s rIdx = some i →
      noiseConsumeResponse p s.noise sIdx rIdx msg birth = (l, some r) →
      (s.peers i).remote = some r := by
  obtain ⟨hacc, hpend⟩ := reachable_pending hcurve h
  have own : ∀ i, (s.peers i).active → (s.peers i).hsPending →
      ∃ t, s.ledger.tenants i = some t ∧ (s.peers i).remote = some t.remote
        ∧ (s.noise.remotes t.remote).rHandshakeState = .initiator
        ∧ (s.noise.remotes t.remote).iLocalIndex = (s.peers i).hsLocalIdx := fun i ha hp => by
    obtain ⟨r, t, hr, ht, rfl, htp, hti, -⟩ := tenant_of_active hacc ha
    obtain ⟨h1, h2⟩ := hpend i t ht (htp ▸ hp)
    exact ⟨t, ht, hr, h1, h2.trans hti⟩
  -- entries of the table with one index are one entry
  have unique : ∀ r r', (s.noise.remotes r).rHandshakeState = .initiator →
      (s.noise.remotes r').rHandshakeState = .initiator →
      (s.noise.remotes r).iLocalIndex = (s.noise.remotes r').iLocalIndex → r = r' :=
    fun r r' h1 h2 h3 => by
      have := hacc.counted.index_unique ((hacc.counted.remoteLinked r).mpr (by simp [h1]))
        ((hacc.counted.remoteLinked r').mpr (by simp [h2])) h3
      simpa using this
  refine ⟨fun i ha hp => ?_, fun i j hai hpi haj hpj hidx => ?_, ?_⟩
  · obtain ⟨t, -, h1, h2, h3⟩ := own i ha hp
    exact ⟨t.remote, h1, h2, h3⟩
  · obtain ⟨t, ht, -, h1, h2⟩ := own i hai hpi
    obtain ⟨u, hu, -, h3, h4⟩ := own j haj hpj
    exact hacc.ledger.owner_unique ht hu
      (unique _ _ h1 h3 (h2.trans (hidx.trans h4.symm)))
  · intro sIdx rIdx msg birth i l r hfind hc
    obtain ⟨-, ha, hp, hidx⟩ := findPending_some hfind
    obtain ⟨t, -, h1, h2, h3⟩ := own i ha hp
    obtain ⟨-, -, -, hst, hri, -⟩ := consumeResponse_some hc
    rw [h1, unique _ _ h2 hst (h3.trans (hidx.trans hri.symm))]

/-- A session that has dialled its one peer. -/
def dialling : Option (WgSession × List (List Upcall)) :=
  (wgSessionCreate specimen (names hostB) (conf keyA keyB "Endpoint=b:51820\n")).bind fun s =>
    Run.exec (sessionStep specimen) s [.kick (dial 100 7)]

theorem pending_coherent_dialling : ∃ s out, dialling = some (s, out) ∧ (s.peers 0).hsPending
    ∧ ∃ r, (s.peers 0).remote = some r ∧ (s.noise.remotes r).rHandshakeState = .initiator
      ∧ (s.noise.remotes r).iLocalIndex = (s.peers 0).hsLocalIdx := by
  have hrun : dialling.any (fun x => (x.1.peers 0).active && (x.1.peers 0).hsPending) = true := by
    decide +kernel
  obtain ⟨⟨s, out⟩, hs, hp⟩ := (Option.any_eq_true _ _).mp hrun
  obtain ⟨ha, hp⟩ := (Bool.and_eq_true _ _).mp hp
  exact ⟨s, out, hs, hp, (pending_coherent specimen_lawful.toCurve
    (reachable_of_exec (fun _ _ _ => trivial) hs)).1 0 ha hp⟩

/-! ## The index table -/

def NoiseLocal.refcnt (l : NoiseLocal) : NoiseIndex → ℕ
  | .remote r => (l.remotes r).rRefcnt
  | .keypair k => (l.keypairs k).kpRefcnt

/-- The peer's remote is in no handshake, or has a keypair that keeps it. -/
def HandshakeKept (s : WgSession) (i : ℕ) : Prop := ∀ r, (s.peers i).remote = some r →
  (s.noise.remotes r).rHandshakeState = .dead ∨ s.noise.slots r ≠ []

theorem alive_iff (h : Accounted p s) :
    (∀ e ∈ s.noise.lIndexHash, 0 < s.noise.refcnt e) ↔ HandshakeInv s.ledger := by
  constructor
  · intro halive r hd
    exact h.owned_of_refcnt (halive _ ((h.counted.remoteLinked r).mpr hd)).ne'
  · intro hinv e he
    cases e with
    | remote r =>
      have hcount := h.counted.remoteCount r
      have hkept := hinv r ((h.counted.remoteLinked r).mp he)
      rw [NoiseLocal.refcnt, hcount]
      rcases hkept with hown | hslots
      · have : (s.noise.links.remotes r).enabled = true := (h.ledger.owned r).mpr hown
        simp [Links.refs, this]
      · have := List.length_pos_iff.mpr (show s.noise.slots r ≠ [] from hslots)
        omega
    | keypair k =>
      rw [NoiseLocal.refcnt, h.counted.keypairCount k (.inl (h.slots_of_table he))]
      omega

/-- A removal leaves nothing freed in the table if and only if the peer's handshake is kept. -/
theorem tombstone_alive_iff (h : Accounted p s) (halive : ∀ e ∈ s.noise.lIndexHash, 0 < s.noise.refcnt e)
    {i : ℕ} (ha : (s.peers i).active) :
    (∀ e ∈ (peerTombstone s i).noise.lIndexHash, 0 < (peerTombstone s i).noise.refcnt e)
      ↔ HandshakeKept s i := by
  obtain ⟨r, t, hr, ht, rfl, -⟩ := tenant_of_active h ha
  obtain ⟨hacc, hled⟩ := tombstone_ledger h ht
  rw [alive_iff hacc, hled]
  constructor
  · intro hinv r' hr'
    obtain rfl : t.remote = r' := Option.some.inj (hr.symm.trans hr')
    by_contra hno
    obtain ⟨hd, hs⟩ := not_or.mp hno
    have hrem := s.ledger.remote_remove i t.remote t.remote
    rw [if_pos rfl] at hrem
    rcases hinv t.remote (by rw [hrem]; exact hd) with ⟨j, u, hj, hu⟩ | hslots
    · rw [Ledger.tenants_remove] at hj
      split at hj
      · cases hj
      · next hne => exact hne (h.ledger.owner_unique hj ht hu)
    · exact hslots (by rw [hrem]; exact not_not.mp hs)
  · intro hkept
    exact ((alive_iff h).mp halive).remove ht (hkept t.remote hr)

/-- As long as no request removes a peer whose remote has a handshake and no keypair, nothing in
the index table has been freed. -/
theorem table_alive (h : ReachableIf p (Guarded p (OnRemoval HandshakeKept)) s) :
    ∀ e ∈ s.noise.lIndexHash, 0 < s.noise.refcnt e := by
  obtain ⟨hacc, hinv⟩ := reachable_removing (fun L i => ∀ t, L.tenants i = some t →
      (L.remote t.remote).state = .dead ∨ (L.remote t.remote).slots ≠ [])
    (fun s i hok t ht => hok _ (active_of_tenant ht).2)
    HandshakeInv (fun _ hf r hd => absurd (hf.state r) hd)
    (fun _ _ hi h hs => h.step hi hs fun i t hr ht => hr t ht) h
  exact (alive_iff hacc).mpr hinv

theorem table_alive_dialling : ∃ s out, dialling = some (s, out)
    ∧ .remote 0 ∈ s.noise.lIndexHash ∧ 0 < s.noise.refcnt (.remote 0) := by
  have hrun : dialling.any (fun x => decide (.remote 0 ∈ x.1.noise.lIndexHash)) = true := by
    decide +kernel
  obtain ⟨⟨s, out⟩, hs, hmem⟩ := (Option.any_eq_true _ _).mp hrun
  refine ⟨s, out, hs, of_decide_eq_true hmem, ?_⟩
  refine table_alive (p := specimen) (reachable_of_exec (fun s call hc => ?_) hs) _
    (of_decide_eq_true hmem)
  obtain rfl := List.mem_singleton.mp hc
  trivial

/-- The peer is removed while its first handshake is pending: the remote in the table is freed. -/
theorem table_not_alive : ¬ ∀ s, ReachableIf specimen (fun _ _ => True) s →
    ∀ e ∈ s.noise.lIndexHash, 0 < s.noise.refcnt e := by
  have hrun : ((wgSessionCreate specimen (names hostB) (conf keyA keyB "Endpoint=b:51820\n")).bind
      fun s => Run.exec (sessionStep specimen) s [.kick (dial 100 7),
        .setUapi (names hostB) (removal hexB)]).any (fun x =>
      decide (.remote 0 ∈ x.1.noise.lIndexHash ∧ x.1.noise.refcnt (.remote 0) = 0)) = true := by
    decide +kernel
  obtain ⟨⟨s, out⟩, hs, hfreed⟩ := (Option.any_eq_true _ _).mp hrun
  obtain ⟨hmem, hzero⟩ := of_decide_eq_true hfreed
  intro halive
  exact (halive s (reachable_of_exec (fun _ _ _ => trivial) hs) _ hmem).ne' hzero

end PolarWG
