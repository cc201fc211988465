import PolarWG.Proofs.AllowedIps
import PolarWG.Proofs.Attribution

/-!
# What is delivered

The one thing delivered for a datagram is the inner packet of a data message whose source address
leads to the slot its keypair is put down to. That slot is the peer's own as long as no request
adds a peer to a slot that some keypair in the table points at.
-/

namespace PolarWG

open Specimen

variable {p : Prims} {s s' : WgSession}

/-! ## The tries lead to peers in use -/

/-- A trie for addresses of `bits` bits whose entries are slots that `ok` holds of. -/
def RoutesTo (t : AipsTrie ℕ) (bits : ℕ) (ok : ℕ → Prop) : Prop :=
  t.maxBits = bits ∧ ∀ q i, t.root.find q = some i → ok i

theorem routesTo_init (bits : ℕ) (ok : ℕ → Prop) : RoutesTo (aipsInit bits) bits ok :=
  ⟨rfl, fun q i h => by simp [aipsInit] at h⟩

theorem RoutesTo.insert {t : AipsTrie ℕ} {bits : ℕ} {ok : ℕ → Prop} (h : RoutesTo t bits ok)
    (addr : Bytes) (len : ℕ) {i : ℕ} (hi : ok i) : RoutesTo (aipsInsert t addr len i).2 bits ok := by
  unfold aipsInsert
  split
  · exact h
  · simp only [aipsInsertLoop_eq]
    refine ⟨h.1, fun q j hj => ?_⟩
    simp only [BitTrie.find_insert, Function.update_apply] at hj
    split at hj
    · exact Option.some.inj hj ▸ hi
    · exact h.2 q j hj

def Routed (s : WgSession) : Prop :=
  RoutesTo s.aipsV4 32 (fun i => (s.peers i).active)
    ∧ RoutesTo s.aipsV6 128 fun i => (s.peers i).active

theorem Routed.steady (h : Routed s) (hs : Steady s s') : Routed s' := by
  unfold Routed
  simp only [hs.v4, hs.v6, hs.active]
  exact h

theorem Routed.insertAllowed (h : Routed s) {i : ℕ} (hi : (s.peers i).active) (c : WgsAllowedCidr) :
    Routed (insertAllowed i s c) := by
  unfold PolarWG.insertAllowed
  split
  · exact ⟨h.1.insert _ _ hi, h.2⟩
  · exact ⟨h.1, h.2.insert _ _ hi⟩

theorem Routed.insertAll (i : ℕ) : ∀ (cs : List WgsAllowedCidr) {s : WgSession}, Routed s →
    (s.peers i).active → Routed (cs.foldl (PolarWG.insertAllowed i) s)
  | [], _, h, _ => h
  | c :: cs, s, h, hi => by
    refine Routed.insertAll i cs (h.insertAllowed hi c) ?_
    rw [(insertAllowed_outside i s c).2.1]
    exact hi

theorem rebuildAips_routed (s : WgSession) : Routed (rebuildAips s) := by
  have loop : ∀ (is : List ℕ) (s : WgSession), Routed s → Routed (is.foldl (fun s i =>
      if (s.peers i).active then (s.peers i).allowed.foldl (insertAllowed i) s else s) s) := by
    intro is
    induction is with
    | nil => exact fun _ h => h
    | cons i is ih =>
      intro s h
      rw [List.foldl_cons]
      refine ih _ ?_
      split
      · next hi => exact Routed.insertAll i _ h hi
      · exact h
  exact loop _ _ ⟨routesTo_init 32 _, routesTo_init 128 _⟩

theorem createPeer_tries {resolve : Resolver} {i : ℕ} (h : createPeer p resolve s i = some s') :
    s'.aipsV4 = s.aipsV4 ∧ s'.aipsV6 = s.aipsV6 ∧ s'.nPeers = s.nPeers
      ∧ ∀ j, (s.peers j).active ∨ j = i → (s'.peers j).active := by
  have hj : ∀ (peer : WgsPeer) (l : NoiseLocal), peer.active → ∀ j, (s.peers j).active ∨ j = i →
      (((s.modPeer i fun _ => peer).setNoise l).peers j).active := fun peer l ha j hj => by
    rw [setNoise_peers, modPeer_peers]
    split
    · exact ha
    · next hne => exact hj.resolve_right hne
  unfold createPeer at h
  simp only [] at h
  split at h
  · cases h
  · simp only [Option.some.injEq] at h
    subst h
    refine ⟨rfl, rfl, rfl, hj _ _ ?_⟩
    repeat' split
    all_goals rfl

theorem createPeers_tries {resolve : Resolver} : ∀ {is : List ℕ} {s s' : WgSession},
    is.foldlM (createPeer p resolve) s = some s' → s'.aipsV4 = s.aipsV4 ∧ s'.aipsV6 = s.aipsV6
      ∧ s'.nPeers = s.nPeers ∧ ∀ j, (s.peers j).active ∨ j ∈ is → (s'.peers j).active
  | [], s, s', h => by
    simp only [List.foldlM_nil, Option.pure_def, Option.some.injEq] at h
    subst h
    exact ⟨rfl, rfl, rfl, fun j hj => hj.resolve_right (by simp)⟩
  | i :: is, s, s', h => by
    simp only [List.foldlM_cons, Option.bind_eq_bind, Option.bind_eq_some_iff] at h
    obtain ⟨s₁, h1, h2⟩ := h
    obtain ⟨a1, a2, a3, a4⟩ := createPeer_tries h1
    obtain ⟨b1, b2, b3, b4⟩ := createPeers_tries h2
    refine ⟨b1.trans a1, b2.trans a2, b3.trans a3, fun j hj => b4 j ?_⟩
    rw [List.mem_cons, ← or_assoc] at hj
    exact hj.imp_left (a4 j)

theorem created_routed (h : Created p s) : Routed s := by
  obtain ⟨resolve, text, h⟩ := h
  simp only [wgSessionCreate, Option.bind_eq_bind, Option.bind_eq_some_iff, Option.pure_def,
    Option.some.injEq] at h
  obtain ⟨s₀, hparse, s₁, hs₁, rfl⟩ := h
  have hp := parseConfigText_parsed hparse
  obtain ⟨h4, h6, hn, ha⟩ := createPeers_tries hs₁
  set s₂ := (if s₁.noise.lHasIdentity then
    { s₁ with checker := cookieCheckerUpdate p s₁.noise.lPublic } else s₁) with hs₂
  have hout : s₂.aipsV4 = s₁.aipsV4 ∧ s₂.aipsV6 = s₁.aipsV6 ∧ s₂.nPeers = s₁.nPeers
      ∧ s₂.peers = s₁.peers := by
    rw [hs₂]
    split <;> exact ⟨rfl, rfl, rfl, rfl⟩
  have hr : Routed s₂ := by
    unfold Routed
    rw [hout.1, hout.2.1, h4.trans hp.v4, h6.trans hp.v6]
    exact ⟨routesTo_init 32 _, routesTo_init 128 _⟩
  have loop : ∀ (is : List ℕ) (s : WgSession), Routed s → (∀ i ∈ is, (s.peers i).active) →
      Routed (is.foldl (fun s i => (s.peers i).allowed.foldl (insertAllowed i) s) s) := by
    intro is
    induction is with
    | nil => exact fun _ h _ => h
    | cons i is ih =>
      intro s h hact
      rw [List.foldl_cons]
      refine ih _ (Routed.insertAll i _ h (hact i (by simp))) fun j hj => ?_
      rw [(foldl_outside (insertAllowed_outside i) _ s).2.1]
      exact hact j (by simp [hj])
  refine loop _ _ hr fun i hi => ?_
  rw [hout.2.2.2]
  refine ha i (.inr ?_)
  rw [hout.2.2.1, hn] at hi
  exact hi

/-! ## Calls other than requests leave the tries alone -/

theorem handleData_steady {bytes : Bytes} {src : Sockaddr} {srcLen : ℕ} {now : Moment} {rc : Int}
    {out : List Upcall} (hs : wgsHandleData p s bytes src srcLen now = (rc, s', out)) :
    Steady s s' := by
  by_cases hacc : ∃ k m, Accepts p s bytes now k m
  · obtain ⟨k, m, hacc⟩ := hacc
    rw [handleData_accepts hacc] at hs
    obtain ⟨f, rfl, hf⟩ := deliver_peer hs
    exact (steady_setNoise s _).trans (steady_modPeer (hf _).1)
  · rw [handleData_rejects hacc] at hs
    simp only [Prod.mk.injEq] at hs
    exact hs.2.1 ▸ .refl s

theorem handleInitiation_steady {bytes : Bytes} {src : Sockaddr} {srcLen : ℕ} {env : ResponderEnv}
    {rc : Int} {out : List Upcall}
    (hs : wgsHandleInitiation p s bytes src srcLen env = some (rc, s', out)) :
    Steady s s' ∧ ∀ m, .deliverIp m ∉ out := by
  unfold wgsHandleInitiation at hs
  split at hs
  · simp only [Option.some.injEq, Prod.mk.injEq] at hs
    obtain ⟨-, rfl, rfl⟩ := hs
    exact ⟨.refl s, by simp⟩
  split at hs
  · simp only [Option.some.injEq, Prod.mk.injEq] at hs
    obtain ⟨-, rfl, rfl⟩ := hs
    exact ⟨.refl s, by simp⟩
  rw [Option.map_eq_some_iff] at hs
  obtain ⟨⟨l, res⟩, -, hs⟩ := hs
  cases res with
  | none =>
    simp only [Prod.mk.injEq] at hs
    obtain ⟨-, rfl, rfl⟩ := hs
    exact ⟨steady_setNoise s _, by simp⟩
  | some r =>
    simp only [] at hs
    split at hs
    all_goals
      simp only [Prod.mk.injEq] at hs
      obtain ⟨-, rfl, rfl⟩ := hs
    · exact ⟨steady_setNoise s _, by simp⟩
    · exact ⟨(steady_modPeer rfl).trans (steady_setNoise _ _), by simp⟩

theorem handleResponse_steady {bytes : Bytes} {env : ConsumeEnv} {rc : Int} {out : List Upcall}
    (hs : wgsHandleResponse p s bytes env = (rc, s', out)) : Steady s s' ∧ out = [] := by
  unfold wgsHandleResponse at hs
  repeat' split at hs
  all_goals
    simp only [Prod.mk.injEq] at hs
    obtain ⟨-, rfl, rfl⟩ := hs
    refine ⟨?_, rfl⟩
  · exact .refl s
  · exact .refl s
  · exact steady_setNoise s _
  · exact steady_setNoise s _
  · exact (steady_modPeer rfl).trans (steady_setNoise _ _)

theorem handleCookie_steady {bytes : Bytes} {now : Moment} {rc : Int} {out : List Upcall}
    (hs : wgsHandleCookie p s bytes now = (rc, s', out)) : Steady s s' ∧ out = [] := by
  unfold wgsHandleCookie at hs
  repeat' split at hs
  all_goals
    simp only [Prod.mk.injEq] at hs
    obtain ⟨-, rfl, rfl⟩ := hs
    refine ⟨?_, rfl⟩
  · exact .refl s
  · exact .refl s
  · exact steady_modPeer rfl

/-- What a datagram that is no data message is turned into is sent, not delivered. -/
theorem handleUdp_steady {bytes : Bytes} {src : Sockaddr} {srcLen : ℕ} {env : UdpEnv} {rc : Int}
    {out : List Upcall} (hs : wgSessionHandleUdp p s bytes src srcLen env = some (rc, s', out)) :
    Steady s s' ∧ ∀ m, .deliverIp m ∈ out → le32dec (bytes.take 4) = wgsPktData
      ∧ wgsHandleData p s bytes src srcLen env.data = (rc, s', out) := by
  unfold wgSessionHandleUdp at hs
  simp only [] at hs
  split at hs
  · simp only [Option.some.injEq, Prod.mk.injEq] at hs
    obtain ⟨-, rfl, rfl⟩ := hs
    exact ⟨.refl s, by simp⟩
  split at hs
  · next ht => exact ⟨handleData_steady (Option.some.inj hs), fun _ _ => ⟨ht, Option.some.inj hs⟩⟩
  split at hs
  · obtain ⟨h1, h2⟩ := handleInitiation_steady hs
    exact ⟨h1, fun m hm => absurd hm (h2 m)⟩
  split at hs
  · obtain ⟨h1, rfl⟩ := handleResponse_steady (Option.some.inj hs)
    exact ⟨h1, by simp⟩
  split at hs
  · obtain ⟨h1, rfl⟩ := handleCookie_steady (Option.some.inj hs)
    exact ⟨h1, by simp⟩
  · simp only [Option.some.injEq, Prod.mk.injEq] at hs
    obtain ⟨-, rfl, rfl⟩ := hs
    exact ⟨.refl s, by simp⟩

theorem tickFrom_steady {env : TickEnv} : ∀ {is : List ℕ} {s s' : WgSession} {out : List Upcall},
    tickFrom p env is s = some (s', out) → Steady s s'
  | [], s, s', _, hs => by
    simp only [tickFrom, Option.some.injEq, Prod.mk.injEq] at hs
    exact hs.1 ▸ .refl s
  | i :: is, s, s', _, hs => by
    simp only [tickFrom, Option.bind_eq_bind, Option.bind_eq_some_iff, Option.pure_def,
      Option.some.injEq, Prod.mk.injEq] at hs
    obtain ⟨⟨s₁, o₁⟩, h1, ⟨s₂, o₂⟩, h2, rfl, -⟩ := hs
    exact (tickPeer_apart h1).steady.trans (tickFrom_steady h2)

theorem sessionStep_steady {call : Call} {out : List Upcall} (hc : ¬ call.isRequest)
    (hs : sessionStep p s call = some (s', out)) : Steady s s' := by
  cases call with
  | handleUdp bytes src srcLen env =>
    obtain ⟨⟨rc, s₁, o⟩, h1, h2⟩ := Option.map_eq_some_iff.mp hs
    simp only [Prod.mk.injEq] at h2
    exact h2.1 ▸ (handleUdp_steady h1).1
  | handleTun bytes env =>
    obtain ⟨rc, hs⟩ : ∃ rc, wgSessionHandleTun p s bytes env = (rc, s', out) :=
      ⟨_, Prod.ext rfl (Option.some.inj hs)⟩
    unfold wgSessionHandleTun at hs
    split at hs
    · simp only [Prod.mk.injEq] at hs
      exact hs.2.1 ▸ .refl s
    split at hs
    · simp only [Prod.mk.injEq] at hs
      exact hs.2.1 ▸ .refl s
    · exact (encap_apart hs).1.steady
  | tick env => exact tickFrom_steady hs
  | kick env =>
    obtain ⟨⟨rc, s₁, o⟩, h1, h2⟩ := Option.map_eq_some_iff.mp hs
    simp only [Prod.mk.injEq] at h2
    unfold wgSessionKick at h1
    split at h1
    · simp only [Option.some.injEq, Prod.mk.injEq] at h1
      exact h2.1 ▸ h1.2.1 ▸ .refl s
    · exact h2.1 ▸ (sendInitiation_apart h1).steady
  | setUapi resolve text => exact absurd rfl hc

theorem sessionStep_routed (h : Routed s) {call : Call} {out : List Upcall}
    (hs : sessionStep p s call = some (s', out)) : Routed s' := by
  by_cases hc : call.isRequest
  · cases call with
    | setUapi resolve text =>
      simp only [sessionStep, Option.some.injEq, Prod.mk.injEq] at hs
      exact hs.1 ▸ rebuildAips_routed _
    | _ => cases hc
  · exact h.steady (sessionStep_steady hc hs)

theorem reachable_routed {ok : WgSession → Call → Prop} (h : ReachableIf p ok s) : Routed s := by
  obtain ⟨s₀, calls, h0, hrun⟩ := h
  exact hrun.invariant Routed (created_routed h0) fun _ _ _ _ h _ hs => sessionStep_routed h hs

/-! ## Delivery -/

/-- The longest prefix of the inner packet's source address in the trie of its version is slot
`i`'s. -/
def RoutesFrom (s : WgSession) (inner : Bytes) (i : ℕ) : Prop :=
  (inner.getD 0 0 >>> 4 = 4 ∧ 20 ≤ inner.length
    ∧ longest s.aipsV4.root.find (addrBits (slice 12 4 inner) 0 32) = some i)
  ∨ (inner.getD 0 0 >>> 4 = 6 ∧ 40 ≤ inner.length
    ∧ longest s.aipsV6.root.find (addrBits (slice 8 16 inner) 0 128) = some i)

theorem addrBits_slice (addr : Bytes) (off n : ℕ) :
    addrBits (slice off n addr) 0 (8 * n) = addrBits (addr.drop off) 0 (8 * n) := by
  refine List.map_congr_left fun i hi => ?_
  have hlt : i >>> 3 < n := by
    rw [List.mem_range'_1] at hi
    rw [Nat.shiftRight_eq_div_pow]
    omega
  simp only [bitAt, slice, List.getD_eq_getElem?_getD, List.getElem?_take, if_pos hlt]

theorem lookupInnerSrc_iff (h : Routed s) (inner : Bytes) (i : ℕ) :
    sessionLookupInnerSrc s inner = some i ↔ RoutesFrom s inner i := by
  have h4 := addrBits_slice inner 12 4
  have h6 := addrBits_slice inner 8 16
  unfold sessionLookupInnerSrc RoutesFrom
  rw [show 32 = 8 * 4 from rfl, show 128 = 8 * 16 from rfl, h4, h6]
  simp only [aipsLookup_eq, h.1.1, h.2.1]
  cases inner with
  | nil => simp
  | cons b bs =>
    simp only [List.getD_cons_zero]
    split_ifs with c4 c6
    · refine ⟨fun hl => .inl ⟨c4.1, c4.2, hl⟩, fun hl => ?_⟩
      rcases hl with ⟨-, -, hl⟩ | ⟨e, -⟩
      · exact hl
      · rw [c4.1] at e
        simp at e
    · refine ⟨fun hl => .inr ⟨c6.1, c6.2, hl⟩, fun hl => ?_⟩
      rcases hl with ⟨e, -⟩ | ⟨-, -, hl⟩
      · rw [c6.1] at e
        simp at e
      · exact hl
    · simp only [false_iff]
      rintro (⟨h1, h2, -⟩ | ⟨h1, h2, -⟩)
      · exact c4 ⟨h1, h2⟩
      · exact c6 ⟨h1, h2⟩

theorem innerIpLen_le {m : Bytes} {len : ℕ} (h : innerIpLen m = some len) : len ≤ m.length := by
  unfold innerIpLen at h
  split at h
  · cases h
  · simp only [] at h
    split_ifs at h
    all_goals
      simp only [Option.some.injEq] at h
      subst h
      omega

/-- What is delivered after the decryption. -/
theorem deliver_iff (h : Routed s) {i : ℕ} {plain : Bytes} {src : Sockaddr} {srcLen : ℕ} {rc : Int}
    {out : List Upcall} (hs : wgsDeliver s i plain src srcLen = (rc, s', out)) (m : Bytes) :
    .deliverIp m ∈ out ↔ out = [.deliverIp m] ∧ ∃ len, innerIpLen plain = some len
      ∧ m = plain.take len ∧ RoutesFrom s m i := by
  have hsrc : ∀ f inner, sessionLookupInnerSrc (s.modPeer i f) inner
      = sessionLookupInnerSrc s inner := fun _ _ => rfl
  unfold wgsDeliver at hs
  simp only [hsrc] at hs
  split at hs
  · next hlen =>
    simp only [Prod.mk.injEq] at hs
    obtain ⟨-, -, rfl⟩ := hs
    simp
  split at hs
  · next hlen =>
    simp only [Prod.mk.injEq] at hs
    obtain ⟨-, -, rfl⟩ := hs
    simp
  next len hlen =>
  split at hs
  · simp only [Prod.mk.injEq] at hs
    obtain ⟨-, -, rfl⟩ := hs
    simp
  · next hroute =>
    simp only [Prod.mk.injEq] at hs
    obtain ⟨-, -, rfl⟩ := hs
    have := (lookupInnerSrc_iff h _ i).mp (not_not.mp hroute)
    simp only [List.mem_singleton, Upcall.deliverIp.injEq, List.cons.injEq, and_true, hlen,
      Option.some.injEq]
    constructor
    · rintro rfl
      exact ⟨rfl, len, rfl, rfl, this⟩
    · exact fun h => h.1.symm

/-- A datagram is delivered from if and only if it is a data message, authentic under a keypair,
whose inner packet's source address leads to the slot the keypair is put down to. -/
theorem handleUdp_delivers_iff (h : Routed s) {bytes : Bytes} {src : Sockaddr} {srcLen : ℕ}
    {env : UdpEnv} {rc : Int} {out : List Upcall}
    (hs : wgSessionHandleUdp p s bytes src srcLen env = some (rc, s', out)) (m : Bytes) :
    .deliverIp m ∈ out ↔ out = [.deliverIp m] ∧ le32dec (bytes.take 4) = wgsPktData
      ∧ ∃ k plain len, Accepts p s bytes env.data k plain ∧ innerIpLen plain = some len
        ∧ m = plain.take len ∧ RoutesFrom s m (slotOf s.noise k) := by
  constructor
  · intro hm
    obtain ⟨ht, hs⟩ := (handleUdp_steady hs).2 m hm
    by_cases hacc : ∃ k plain, Accepts p s bytes env.data k plain
    · obtain ⟨k, plain, hacc⟩ := hacc
      rw [handleData_accepts hacc] at hs
      obtain ⟨h1, len, h2⟩ := (deliver_iff (h.steady (steady_setNoise s _)) hs m).mp hm
      exact ⟨h1, ht, k, plain, len, hacc, h2⟩
    · rw [handleData_rejects hacc] at hs
      simp only [Prod.mk.injEq] at hs
      obtain ⟨-, -, rfl⟩ := hs
      simp at hm
  · rintro ⟨rfl, -⟩
    exact List.mem_singleton.mpr rfl

/-- Whatever is delivered for a datagram is the inner packet of a data message, authentic under a
keypair of a peer that the longest prefix of the packet's source address leads to, and it is the
one thing the datagram has for an effect outside. -/
def SoundDelivery (p : Prims) (s : WgSession) : Prop :=
  ∀ bytes src srcLen env rc s' out m,
    wgSessionHandleUdp p s bytes src srcLen env = some (rc, s', out) → .deliverIp m ∈ out →
    out = [.deliverIp m] ∧ le32dec (bytes.take 4) = wgsPktData
      ∧ ∃ k plain len i, Accepts p s bytes env.data k plain
        ∧ innerIpLen plain = some len ∧ len ≤ plain.length ∧ m = plain.take len
        ∧ (s.peers i).active ∧ (s.peers i).remote = some (s.noise.keypairs k).kpRemote
        ∧ RoutesFrom s m i

/-- No keypair that is left belongs to a remote that points at the slot. -/
def SlotClear (s : WgSession) (i : ℕ) : Prop :=
  ∀ r, (s.noise.remotes r).rArg = i → s.noise.slots r = []

/-- As long as no request adds a peer to a slot that a keypair still points at, what is delivered
is sound. -/
theorem sound_delivery (h : ReachableIf p (Guarded p (OnAddition SlotClear)) s) :
    SoundDelivery p s := by
  have hrouted := reachable_routed h
  obtain ⟨hacc, hsole⟩ := reachable_adding
    (fun L i => ∀ r, (L.remote r).arg = i → (L.remote r).slots = []) (fun _ _ hok => hok)
    SoleInv (fun _ hf r hr => absurd (hf.slots r) hr)
    (fun _ _ hi h hs => h.step hi hs fun _ hr => hr) h
  intro bytes src srcLen env rc s' out m hs hm
  obtain ⟨hout, ht, k, plain, len, hk, hlen, hmt, hroute⟩ :=
    (handleUdp_delivers_iff hrouted hs m).mp hm
  -- the slot is in use, so its remote is the keypair's
  have hact : (s.peers (slotOf s.noise k)).active := by
    obtain ⟨-, -, h4⟩ | ⟨-, -, h6⟩ := hroute
    · obtain ⟨n, -, hn, -⟩ := (longest_eq_some _ _).mp h4
      exact hrouted.1.2 _ _ hn
    · obtain ⟨n, -, hn, -⟩ := (longest_eq_some _ _).mp h6
      exact hrouted.2.2 _ _ hn
  obtain ⟨r, t, hr, ht', rfl, -⟩ := tenant_of_active hacc hact
  have hslots := List.ne_nil_of_mem (hacc.slots_of_table hk.mem)
  have := hsole _ hslots t ht'
  exact ⟨hout, ht, k, plain, len, _, hk, hlen, innerIpLen_le hlen, hmt, hact, this ▸ hr, hroute⟩

/-- The packet passed to B over a run of these calls. -/
def packetToB (calls : Bytes → Bytes → List Call) :
    Option (WgSession × Bytes × Int × WgSession × List Upcall) := do
  let (_, data) ← sentToB
  let (s, _) ← runB calls
  let (rc, s', out) ← wgSessionHandleUdp specimen s data hostA 16 (intake 102 9)
  pure (s, data, rc, s', out)

theorem packetToB_some {calls : Bytes → Bytes → List Call} {data : Bytes} {rc : Int}
    {out : List Upcall} (h : packetToB calls = some (s, data, rc, s', out)) :
    (∃ o, runB calls = some (s, o))
      ∧ wgSessionHandleUdp specimen s data hostA 16 (intake 102 9) = some (rc, s', out) := by
  simp only [packetToB, Option.bind_eq_bind, Option.bind_eq_some_iff, Option.pure_def,
    Option.some.injEq, Prod.mk.injEq] at h
  obtain ⟨_, -, ⟨s₁, o⟩, h1, ⟨rc₁, s₂, out₁⟩, h2, rfl, rfl, rfl, rfl, rfl⟩ := h
  exact ⟨⟨o, h1⟩, h2⟩

theorem sound_delivery_answered : ∃ s data rc s' out,
    packetToB (fun ini _ => [.handleUdp ini hostA 16 (intake 100 8)])
        = some (s, data, rc, s', out)
      ∧ .deliverIp packet ∈ out ∧ out = [.deliverIp packet] := by
  have hrun : (packetToB fun ini _ => [.handleUdp ini hostA 16 (intake 100 8)]).any
      (fun x => decide (.deliverIp packet ∈ x.2.2.2.2)) = true := by
    decide +kernel
  obtain ⟨⟨s, data, rc, s', out⟩, h, hm⟩ := (Option.any_eq_true _ _).mp hrun
  obtain ⟨⟨o, hrun⟩, hs⟩ := packetToB_some h
  refine ⟨s, data, rc, s', out, h, of_decide_eq_true hm, ?_⟩
  refine (sound_delivery (reachable_of_runB ?_ hrun) _ _ _ _ _ _ _ _ hs (of_decide_eq_true hm)).1
  intro ini data s call hc
  obtain rfl := List.mem_singleton.mp hc
  trivial

/-- The peer A is replaced with C, and A's packet is delivered as C's. -/
theorem delivery_replaced :
    ¬ ∀ s, ReachableIf specimen (fun _ _ => True) s → SoundDelivery specimen s := by
  have hrun : (packetToB fun ini _ => [.handleUdp ini hostA 16 (intake 100 8),
      .setUapi (names hostA) replacement]).any (fun x => decide (.deliverIp packet ∈ x.2.2.2.2
        ∧ (noiseKeypairLookup x.1.noise (le32dec (slice 4 4 x.2.1))).2 = some 0 ∧ x.1.nPeers = 1
        ∧ (x.1.peers 0).remote ≠ some (x.1.noise.keypairs 0).kpRemote)) = true := by
    decide +kernel
  obtain ⟨⟨s, data, rc, s', out⟩, h, hm⟩ := (Option.any_eq_true _ _).mp hrun
  obtain ⟨⟨o, hrun⟩, hs⟩ := packetToB_some h
  obtain ⟨hout, hk, hn, hne⟩ := of_decide_eq_true hm
  intro hsound
  have hreach : ReachableIf specimen (fun _ _ => True) s :=
    reachable_of_runB (fun _ _ _ _ _ => trivial) hrun
  obtain ⟨-, -, k, _, _, i, hacc, -, -, -, hact, hrem, -⟩ :=
    hsound s hreach _ _ _ _ _ _ _ _ hs hout
  -- the only peer is in slot 0, and the keypair found is the first
  have hi := (reachable_accounted hreach).range i hact
  rw [show s.nPeers = 1 from hn] at hi
  obtain rfl : i = 0 := by omega
  obtain rfl : k = 0 := Option.some.inj (hacc.lookup.symm.trans hk)
  exact hne hrem

end PolarWG
