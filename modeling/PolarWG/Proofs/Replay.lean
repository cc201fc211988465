import PolarWG.Proofs.Delivery

/-!
# The same datagram again

Nothing of a counter is remembered, so what was taken in once is taken in again as long as its
keypair is in the table and has not expired.
-/

namespace PolarWG

open Specimen

variable {p : Prims} {s s' s₂ : WgSession}

/-- Passed in at `now`, from anywhere, the datagram delivers nothing and changes no peer's endpoint
or receive counters. -/
def Ignored (p : Prims) (s : WgSession) (bytes : Bytes) (now : Moment) : Prop :=
  ∀ src srcLen env rc s' out, env.data = now →
    wgSessionHandleUdp p s bytes src srcLen env = some (rc, s', out) →
    (∀ m, .deliverIp m ∉ out) ∧ ∀ i, (s'.peers i).endpoint = (s.peers i).endpoint
      ∧ (s'.peers i).endpointLen = (s.peers i).endpointLen
      ∧ (s'.peers i).rxPkts = (s.peers i).rxPkts ∧ (s'.peers i).rxBytes = (s.peers i).rxBytes

/-- Every keypair in the table under the datagram's index has expired, or is another than `k` and
cannot open it. -/
def Outdated (p : Prims) (s : WgSession) (bytes : Bytes) (now : Moment) (k : ℕ) : Prop :=
  ∀ k', .keypair k' ∈ s.noise.lIndexHash →
    (s.noise.keypairs k').iLocalIndex = le32dec (slice 4 4 bytes) →
    noiseTimerExpired now.getsbinuptime (s.noise.keypairs k').kpBirthdate rejectAfterTime 0
      ∨ k' ≠ k ∧ p.chacha20poly1305Decrypt (s.noise.keypairs k').kpRecv (leDec (slice 8 8 bytes)) []
        (bytes.drop 16) = none

theorem handleUdp_data {bytes : Bytes} (ht : le32dec (bytes.take 4) = wgsPktData)
    (hlen : 4 ≤ bytes.length) (src : Sockaddr) (srcLen : ℕ) (env : UdpEnv) :
    wgSessionHandleUdp p s bytes src srcLen env
      = some (wgsHandleData p s bytes src srcLen env.data) := by
  unfold wgSessionHandleUdp
  rw [if_neg (by omega)]
  exact if_pos ht

/-- What is accepted sets an endpoint, to anything. -/
theorem not_ignored {bytes : Bytes} {now : Moment} {k : ℕ} {m : Bytes} (env : UdpEnv)
    (ht : le32dec (bytes.take 4) = wgsPktData) (hacc : Accepts p s bytes now k m) :
    ¬ Ignored p s bytes now := by
  intro hig
  set i := slotOf s.noise k
  obtain ⟨rc, s', out, hs⟩ : ∃ rc s' out, wgsHandleData p s bytes .unspec
      ((s.peers i).endpointLen + 1) now = (rc, s', out) := ⟨_, _, _, rfl⟩
  obtain ⟨-, hsame⟩ := hig _ _ { env with data := now } _ _ _ rfl
    ((handleUdp_data ht (by have := hacc.length; omega) _ _ _).trans (congrArg some hs))
  rw [handleData_accepts hacc] at hs
  obtain ⟨f, rfl, hf⟩ := deliver_peer hs
  have hlen := (hsame i).2.1
  rw [modPeer_peers, if_pos rfl, setNoise_peers,
    show (f (s.peers i)).endpointLen = _ from congrArg Tenant.endpointLen ((hf (s.peers i)).2.2 0)]
    at hlen
  simp at hlen

/-- A keypair in the table stays what it is over a run, whether it stays in the table or not. -/
theorem keypair_of_run (h : Accounted p s) {calls : List Call}
    (hrun : Run (sessionStep p) (fun _ _ => True) s calls s₂) {k : ℕ}
    (hk : .keypair k ∈ s.noise.lIndexHash) :
    Accounted p s₂ ∧ (s₂.noise.keypairs k).link = (s.noise.keypairs k).link := by
  have hr : Refines p .all s s₂ :=
    run_refines h (.inl trivial) (hrun.mono fun s call _ => callAllowed_all s call)
  have hlt : k < s.ledger.links.nKeypairs :=
    h.counted.heldFresh k ((h.counted.keypairLinked k).mp hk).1
  obtain ⟨hacc, hsteps⟩ := hr
  refine ⟨hacc, ?_⟩
  exact (h.ledger.steps_invariant
    (fun L => L.keypair k = s.ledger.keypair k ∧ k < L.links.nKeypairs) ⟨rfl, hlt⟩
    (fun L L' _ hL hs => ⟨(hs.keypair hL.2).1.trans hL.1, (hs.keypair hL.2).2⟩) hsteps).2.1

theorem decrypt_iff {k nonce : ℕ} {c : Bytes} {now : ℤ} {m : Bytes}
    (hr : (s.noise.keypairs k).kpNonceRecv = 0) (hlen : 16 ≤ c.length) :
    noiseKeypairDecrypt p s.noise k nonce c now = some m
      ↔ ¬ noiseTimerExpired now (s.noise.keypairs k).kpBirthdate rejectAfterTime 0
        ∧ p.chacha20poly1305Decrypt (s.noise.keypairs k).kpRecv nonce [] c = some m := by
  have h0 : ¬ rejectAfterMessages ≤ 0 := by decide
  unfold noiseKeypairDecrypt
  rw [hr, if_neg (Nat.not_lt.mpr hlen)]
  simp only [h0, false_or]
  split_ifs with he
  · simp [he]
  · simp [he]

/-- A message that was accepted under a keypair is ignored when it comes again if and only if that
keypair has left the table or expired, and none that took over its index opens it. -/
theorem replay_ignored_iff (h : ReachableIf p (fun _ _ => True) s) {bytes : Bytes} {src : Sockaddr}
    {srcLen : ℕ} {env : UdpEnv} {k : ℕ} {m : Bytes} (ht : le32dec (bytes.take 4) = wgsPktData)
    (hacc : Accepts p s bytes env.data k m) {calls : List Call}
    (hrun : Run (sessionStep p) (fun _ _ => True) s (.handleUdp bytes src srcLen env :: calls) s₂)
    (now : Moment) : Ignored p s₂ bytes now ↔ Outdated p s₂ bytes now k := by
  have hacc₁ := reachable_accounted h
  obtain ⟨hacc₂, hsame⟩ := keypair_of_run hacc₁ hrun hacc.mem
  have hlen := hacc.length
  have hc : 16 ≤ (bytes.drop 16).length := by
    rw [List.length_drop]
    omega
  have hopen := ((decrypt_iff (hacc₁.ledger.unread k) hc).mp hacc.decrypt).2
  rw [← show (s₂.noise.keypairs k).kpRecv = (s.noise.keypairs k).kpRecv from
    congrArg KeypairLink.recv hsame] at hopen
  constructor
  · intro hig k' htab hidx
    by_contra hno
    obtain ⟨hexp, hother⟩ := not_or.mp hno
    -- the keypair in the table opens it again
    obtain ⟨m', hm'⟩ : ∃ m', p.chacha20poly1305Decrypt (s₂.noise.keypairs k').kpRecv
        (leDec (slice 8 8 bytes)) [] (bytes.drop 16) = some m' := by
      by_cases e : k' = k
      · exact ⟨m, e ▸ hopen⟩
      · exact Option.ne_none_iff_exists'.mp fun hn => hother ⟨e, hn⟩
    have hacc' : Accepts p s₂ bytes now k' m' := by
      refine ⟨hlen, ?_, (decrypt_iff (hacc₂.ledger.unread k') hc).mpr ⟨hexp, hm'⟩⟩
      rw [← hidx, keypairLookup_of_mem hacc₂.counted htab]
    exact not_ignored env ht hacc' hig
  · intro hout src' srcLen' env' rc s' out henv hs
    have hno : ¬ ∃ k' m', Accepts p s₂ bytes now k' m' := by
      rintro ⟨k', m', hacc'⟩
      have hidx := (keypairLookup_some (Prod.ext rfl hacc'.lookup)).2.1
      obtain ⟨hexp, hopen'⟩ := (decrypt_iff (hacc₂.ledger.unread k') hc).mp hacc'.decrypt
      rcases hout k' hacc'.mem hidx with he | ⟨-, hn⟩
      · exact hexp he
      · rw [hn] at hopen'
        cases hopen'
    rw [handleUdp_data ht (by omega), henv, handleData_rejects hno, Option.some.injEq] at hs
    simp only [Prod.mk.injEq] at hs
    obtain ⟨-, rfl, rfl⟩ := hs
    exact ⟨by simp, fun _ => ⟨rfl, rfl, rfl, rfl⟩⟩

/-- The packet passed to B twice: the session before, between and after, and what is done the first
and the second time. -/
def packetTwice : Option (WgSession × Bytes × WgSession × List Upcall × List Upcall) := do
  let (s, data, _, s', out) ← packetToB fun ini _ => [.handleUdp ini hostA 16 (intake 100 8)]
  let (_, _, out') ← wgSessionHandleUdp specimen s' data hostA 16 (intake 103 9)
  pure (s, data, s', out, out')

theorem packetTwice_some {data : Bytes} {out out' : List Upcall}
    (h : packetTwice = some (s, data, s', out, out')) (hm : .deliverIp packet ∈ out) :
    ReachableIf specimen (fun _ _ => True) s ∧ le32dec (data.take 4) = wgsPktData
      ∧ (∃ k m, Accepts specimen s data (intake 102 9).data k m)
      ∧ Run (sessionStep specimen) (fun _ _ => True) s [.handleUdp data hostA 16 (intake 102 9)] s'
      ∧ ∃ rc s₂, wgSessionHandleUdp specimen s' data hostA 16 (intake 103 9) = some (rc, s₂, out') := by
  simp only [packetTwice, Option.bind_eq_bind, Option.bind_eq_some_iff, Option.pure_def,
    Option.some.injEq, Prod.mk.injEq] at h
  obtain ⟨⟨_, _, rc, _, _⟩, h1, ⟨rc', s₂, _⟩, h2, rfl, rfl, rfl, rfl, rfl⟩ := h
  obtain ⟨⟨o, hrun⟩, hs⟩ := packetToB_some h1
  have hreach : ReachableIf specimen (fun _ _ => True) _ :=
    reachable_of_runB (fun _ _ _ _ _ => trivial) hrun
  obtain ⟨-, ht, k, m, -, hacc, -⟩ :=
    (handleUdp_delivers_iff (reachable_routed hreach) hs packet).mp hm
  exact ⟨hreach, ht, ⟨k, m, hacc⟩, .cons trivial (congrArg (Option.map Prod.snd) hs) (.nil _), rc',
    s₂, h2⟩

theorem packetTwice_delivers : ∃ s data s' out out', packetTwice = some (s, data, s', out, out')
    ∧ .deliverIp packet ∈ out ∧ .deliverIp packet ∈ out' := by
  have hrun : packetTwice.any (fun x => decide (.deliverIp packet ∈ x.2.2.2.1
      ∧ .deliverIp packet ∈ x.2.2.2.2)) = true := by
    decide +kernel
  obtain ⟨⟨s, data, s', out, out'⟩, h, hm⟩ := (Option.any_eq_true _ _).mp hrun
  exact ⟨s, data, s', out, out', h, of_decide_eq_true hm⟩

theorem replay_ignored_iff_twice : ∃ s data s' k out out',
    packetTwice = some (s, data, s', out, out')
      ∧ (Ignored specimen s' data (instant 103) ↔ Outdated specimen s' data (instant 103) k) := by
  obtain ⟨s, data, s', out, out', h, hm, -⟩ := packetTwice_delivers
  obtain ⟨hreach, ht, ⟨k, m, hacc⟩, hrun', -⟩ := packetTwice_some h hm
  exact ⟨s, data, s', k, out, out', h, replay_ignored_iff hreach ht hacc hrun' (instant 103)⟩

/-- Whatever has been accepted is ignored from then on. -/
def ReplayProtected (p : Prims) : Prop :=
  ∀ s s₂ bytes src srcLen env k m calls now, ReachableIf p (fun _ _ => True) s →
    le32dec (bytes.take 4) = wgsPktData → Accepts p s bytes env.data k m →
    Run (sessionStep p) (fun _ _ => True) s (.handleUdp bytes src srcLen env :: calls) s₂ →
    Ignored p s₂ bytes now

/-- The packet is delivered twice. -/
theorem replayed : ¬ ReplayProtected specimen := by
  obtain ⟨s, data, s', out, out', h, h1, h2⟩ := packetTwice_delivers
  obtain ⟨hreach, ht, ⟨k, m, hacc⟩, hrun', rc, s₂, hs⟩ := packetTwice_some h h1
  intro hprot
  exact (hprot s s' data _ _ _ k m [] (instant 103) hreach ht hacc hrun' hostA 16 (intake 103 9)
    rc s₂ out' rfl hs).1 packet h2

end PolarWG
