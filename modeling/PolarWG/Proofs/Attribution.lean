import PolarWG.Proofs.Simulation
import PolarWG.Specimen

/-!
# Whose keypair it is

The slot that a packet is put down to is the one the keypair's remote points at, which is set when
the remote is made. It is the slot of that remote's peer as long as no request removes a peer that
has a keypair.
-/

namespace PolarWG

open Specimen

variable {p : Prims} {s : WgSession}

/-- A keypair in the table is found under its index. -/
theorem keypairLookup_of_mem {l : NoiseLocal} {ρ : Refs} (h : Counted l ρ) {k : ℕ}
    (hk : .keypair k ∈ l.lIndexHash) :
    noiseKeypairLookup l (l.keypairs k).iLocalIndex = (noiseKeypairRef l k, some k) := by
  have hheld := ((h.keypairLinked k).mp hk).1
  have hc := h.keypairCount k hheld
  unfold noiseKeypairLookup
  obtain ⟨e, he⟩ : ∃ e, l.lIndexHash.find? (fun i =>
      l.iLocalIndex i = (l.keypairs k).iLocalIndex ∧ i.isKeypair) = some e := by
    rw [← Option.isSome_iff_exists, List.find?_isSome]
    exact ⟨_, hk, by simp [NoiseLocal.iLocalIndex, NoiseIndex.isKeypair]⟩
  have hi := List.find?_some he
  simp only [decide_eq_true_eq] at hi
  obtain rfl := h.index_unique (List.mem_of_find?_eq_some he) hk hi.1
  rw [he]
  simp only []
  rw [if_neg (by omega)]

/-- Every keypair that is found belongs to the peer in the slot it is put down to. -/
def Attributed (s : WgSession) : Prop :=
  ∀ idx l k, noiseKeypairLookup s.noise idx = (l, some k) →
    (s.peers (slotOf s.noise k)).active
      ∧ (s.peers (slotOf s.noise k)).remote = some (s.noise.keypairs k).kpRemote
      ∧ (s.peers (slotOf s.noise k)).pubkey
        = (s.noise.remotes (s.noise.keypairs k).kpRemote).rPublic

theorem attributed_iff (h : Accounted p s) : Attributed s ↔ TenantedInv s.ledger := by
  constructor
  · intro hatt r hr
    obtain ⟨k, hk⟩ := List.exists_mem_of_ne_nil _ hr
    have hkr := h.counted.slotRemote r k hk
    have htab : .keypair k ∈ s.noise.lIndexHash :=
      (h.counted.keypairLinked k).mpr ⟨.inl (by rw [hkr]; exact hk), by simp [Links.refs]⟩
    obtain ⟨ha, hrem, -⟩ := hatt _ _ _ (keypairLookup_of_mem h.counted htab)
    obtain ⟨r', t, hr', ht, rfl, -⟩ := tenant_of_active h ha
    rw [hrem, hkr, Option.some.injEq] at hr'
    exact ⟨_, t, ht, hr'.symm⟩
  · intro hten idx l k hl
    obtain ⟨htab, -⟩ := keypairLookup_some hl
    have hk := h.slots_of_table htab
    obtain ⟨i, t, ht, hr⟩ := hten _ (List.ne_nil_of_mem hk)
    obtain ⟨-, -, harg, hpub⟩ := h.ledger.owner i t ht
    obtain ⟨ha, hrem⟩ := active_of_tenant ht
    have hi : slotOf s.noise k = i := by
      rw [← harg, hr]
      rfl
    rw [hi]
    refine ⟨ha, hr ▸ hrem, ?_⟩
    have htp : t.pubkey = (s.peers i).pubkey := by
      obtain ⟨-, t', -, ht', -, -, -, -, -, hp, -⟩ := tenant_of_active h ha
      rw [ht] at ht'
      rw [Option.some.inj ht', hp]
    rw [← htp, ← hpub, hr]
    rfl

/-- The peer's remote has no keypair. -/
def NoKeypairs (s : WgSession) (i : ℕ) : Prop :=
  ∀ r, (s.peers i).remote = some r → s.noise.slots r = []

/-- A removal leaves every keypair with its peer if and only if the peer had none. -/
theorem tombstone_attributed_iff (h : Accounted p s) (hatt : Attributed s) {i : ℕ}
    (ha : (s.peers i).active) : Attributed (peerTombstone s i) ↔ NoKeypairs s i := by
  obtain ⟨r, t, hr, ht, rfl, -⟩ := tenant_of_active h ha
  obtain ⟨hacc, hled⟩ := tombstone_ledger h ht
  rw [attributed_iff hacc, hled]
  constructor
  · intro hten r' hr'
    obtain rfl : t.remote = r' := Option.some.inj (hr.symm.trans hr')
    by_contra hne
    obtain ⟨j, u, hj, hu⟩ := hten t.remote (by rw [Ledger.remote_remove, if_pos rfl]; exact hne)
    rw [Ledger.tenants_remove] at hj
    split at hj
    · cases hj
    · next hji => exact hji (h.ledger.owner_unique hj ht hu)
  · intro hno
    exact ((attributed_iff h).mp hatt).remove ht (hno _ hr)

/-- What a data message does, if anything, it does to the peer its keypair belongs to. -/
theorem handleData_attributed (hatt : Attributed s) {bytes : Bytes} {src : Sockaddr} {srcLen : ℕ}
    {now : Moment} {rc : Int} {s' : WgSession} {out : List Upcall}
    (hs : wgsHandleData p s bytes src srcLen now = (rc, s', out))
    (hany : out ≠ [] ∨ ∃ j, s'.peers j ≠ s.peers j) :
    ∃ k m i, Accepts p s bytes now k m ∧ (s.peers i).active
      ∧ (s.peers i).remote = some (s.noise.keypairs k).kpRemote
      ∧ (s.peers i).pubkey = (s.noise.remotes (s.noise.keypairs k).kpRemote).rPublic
      ∧ ∀ j ≠ i, s'.peers j = s.peers j := by
  by_cases hacc : ∃ k m, Accepts p s bytes now k m
  · obtain ⟨k, m, hacc⟩ := hacc
    obtain ⟨h1, h2, h3⟩ := hatt _ _ k (Prod.ext rfl hacc.lookup)
    refine ⟨k, m, slotOf s.noise k, hacc, h1, h2, h3, fun j hj => ?_⟩
    rw [handleData_accepts hacc] at hs
    obtain ⟨f, rfl, -⟩ := deliver_peer hs
    rw [modPeer_peers, if_neg hj, setNoise_peers]
  · rw [handleData_rejects hacc] at hs
    simp only [Prod.mk.injEq] at hs
    obtain ⟨-, rfl, rfl⟩ := hs
    simp at hany

/-- As long as no request removes a peer that has a keypair, every keypair that is found belongs
to the peer in its slot, and no data message does anything to another. -/
theorem attribution (h : ReachableIf p (Guarded p (OnRemoval NoKeypairs)) s) : Attributed s
    ∧ ∀ bytes src srcLen now rc s' out, wgsHandleData p s bytes src srcLen now = (rc, s', out) →
      (out ≠ [] ∨ ∃ j, s'.peers j ≠ s.peers j) →
      ∃ k m i, Accepts p s bytes now k m ∧ (s.peers i).active
        ∧ (s.peers i).remote = some (s.noise.keypairs k).kpRemote
        ∧ (s.peers i).pubkey = (s.noise.remotes (s.noise.keypairs k).kpRemote).rPublic
        ∧ ∀ j ≠ i, s'.peers j = s.peers j := by
  obtain ⟨hacc, hinv⟩ := reachable_removing
    (fun L i => ∀ t, L.tenants i = some t → (L.remote t.remote).slots = [])
    (fun s i hok t ht => hok _ (active_of_tenant ht).2)
    TenantedInv (fun _ hf r hr => absurd (hf.slots r) hr)
    (fun _ _ _ h hs => h.step hs fun i t hr ht => hr t ht) h
  have hatt := (attributed_iff hacc).mpr hinv
  exact ⟨hatt, fun _ _ _ _ _ _ _ hs hany => handleData_attributed hatt hs hany⟩

theorem attribution_answered : ∃ s out,
    runB (fun ini _ => [.handleUdp ini hostA 16 (intake 100 8)]) = some (s, out)
      ∧ (∃ l k, noiseKeypairLookup s.noise 8 = (l, some k)) ∧ Attributed s := by
  have hrun : (runB (fun ini _ => [.handleUdp ini hostA 16 (intake 100 8)])).any
      (fun x => (noiseKeypairLookup x.1.noise 8).2.isSome) = true := by
    decide +kernel
  obtain ⟨⟨s, out⟩, hs, hk⟩ := (Option.any_eq_true _ _).mp hrun
  obtain ⟨k, hk⟩ := Option.isSome_iff_exists.mp hk
  refine ⟨s, out, hs, ⟨_, k, Prod.ext rfl hk⟩, (attribution (reachable_of_runB ?_ hs)).1⟩
  intro ini data s call hc
  obtain rfl := List.mem_singleton.mp hc
  trivial

/-- The peer A is replaced with C: A's keypair is put down to C's slot. -/
theorem attribution_replaced : ¬ ∀ s, ReachableIf specimen (fun _ _ => True) s → Attributed s := by
  have hrun : (runB (fun ini _ => [.handleUdp ini hostA 16 (intake 100 8),
      .setUapi (names hostA) replacement])).any (fun x =>
        decide ((noiseKeypairLookup x.1.noise 8).2 = some 0
          ∧ (x.1.peers (slotOf x.1.noise 0)).remote ≠ some (x.1.noise.keypairs 0).kpRemote)) = true := by
    decide +kernel
  obtain ⟨⟨s, out⟩, hs, hbad⟩ := (Option.any_eq_true _ _).mp hrun
  obtain ⟨hk, hne⟩ := of_decide_eq_true hbad
  intro hatt
  exact hne (hatt s (reachable_of_runB (fun _ _ _ _ _ => trivial) hs) _ _ _ (Prod.ext rfl hk)).2.1

end PolarWG
