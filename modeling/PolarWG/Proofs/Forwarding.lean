import PolarWG.Proofs.Tunnel
import PolarWG.Proofs.Routes
import PolarWG.Proofs.RoundTrip
import PolarWG.Proofs.Nonces

/-!
# What the client forwards

The client's tries are built once, from the lists in its configuration, and in every state of a run
they find the longest configured prefix. So a packet leaves for the peer that is configured for its
destination, and what a datagram delivers is a packet that its own peer is configured to send.
-/

namespace PolarWG

namespace Tunnel

open Specimen

variable {p : Prims} {t t' t₀ : Tunnel} {cfg : ClientConfig}

/-! ## The configured table -/

/-- The lists of the configuration, in peer order. -/
def configuredEntries (cfg : ClientConfig) : List (WgsAllowedCidr × ℕ) :=
  (List.range cfg.nPeers).flatMap fun i => (cfg.peers i).allowed.map (·, i)

/-- The peer with the longest configured prefix of the address at `off4` of a packet of version 4,
at `off6` of one of version 6. -/
def ownerAt (cfg : ClientConfig) (off4 off6 : ℕ) (inner : Bytes) : Option ℕ :=
  if inner.getD 0 0 >>> 4 = 4 ∧ 20 ≤ inner.length then
    longestMatch 32 (lastEntry afInet 32 (configuredEntries cfg)) (slice off4 4 inner)
  else if inner.getD 0 0 >>> 4 = 6 ∧ 40 ≤ inner.length then
    longestMatch 128 (lastEntry afInet6 128 (configuredEntries cfg)) (slice off6 16 inner)
  else none

def sourceOwner (cfg : ClientConfig) : Bytes → Option ℕ := ownerAt cfg 12 8

def destinationOwner (cfg : ClientConfig) : Bytes → Option ℕ := ownerAt cfg 16 24

/-- The tries store the tables of a list of entries. -/
structure Stores (t : Tunnel) (l : List (WgsAllowedCidr × ℕ)) : Prop where
  v4 : Represents t.aipsV4 (lastEntry afInet 32 l) 32
  v6 : Represents t.aipsV6 (lastEntry afInet6 128 l) 128

theorem Stores.insertAllowed {l : List (WgsAllowedCidr × ℕ)} (h : Stores t l) {c : WgsAllowedCidr}
    (hc : c.Formed) (i : ℕ) : Stores (insertAllowed i t c) (l ++ [(c, i)]) := by
  obtain ⟨h4, h6⟩ := h
  unfold Tunnel.insertAllowed
  by_cases hf : c.family = afInet
  · rw [if_pos hf]
    refine ⟨?_, ?_⟩
    · rw [lastEntry_concat, if_pos hf]
      exact Represents.entry (k := 4) h4 (by rw [hc.addr]; omega) (hc.v4 hf) i
    · rw [lastEntry_concat, if_neg (by rw [hf]; decide)]
      exact h6
  · obtain ⟨hf', hn⟩ := hc.v6 hf
    rw [if_neg hf]
    refine ⟨?_, ?_⟩
    · rw [lastEntry_concat, if_neg hf]
      exact h4
    · rw [lastEntry_concat, if_pos hf']
      exact Represents.entry (k := 16) h6 hc.addr.ge hn i

theorem Stores.insertList (i : ℕ) : ∀ (cs : List WgsAllowedCidr) {t : Tunnel}
    {l : List (WgsAllowedCidr × ℕ)}, Stores t l → (∀ c ∈ cs, c.Formed) →
    Stores (cs.foldl (Tunnel.insertAllowed i) t) (l ++ cs.map (·, i))
  | [], _, l, h, _ => by
    rw [List.map_nil, List.append_nil]
    exact h
  | c :: cs, t, l, h, hcs => by
    have hc := h.insertAllowed (hcs c List.mem_cons_self) i
    have := Stores.insertList i cs hc fun d hd => hcs d (List.mem_cons_of_mem c hd)
    rw [List.append_assoc] at this
    exact this

theorem Stores.insertAll : ∀ (is : List ℕ) {t : Tunnel} {l : List (WgsAllowedCidr × ℕ)},
    Stores t l → (∀ i ∈ is, ∀ c ∈ (t.peers i).allowed, c.Formed) →
    Stores (is.foldl (fun t i => (t.peers i).allowed.foldl (Tunnel.insertAllowed i) t) t)
      (l ++ is.flatMap fun i => (t.peers i).allowed.map (·, i))
  | [], _, l, h, _ => by
    rw [List.flatMap_nil, List.append_nil]
    exact h
  | i :: is, t, l, h, hall => by
    have hi := h.insertList i _ (hall i List.mem_cons_self)
    have hp := (foldl_insertAllowed_outside i (t.peers i).allowed t).2.1
    have := Stores.insertAll is hi fun j hj => by
      rw [hp]
      exact hall j (List.mem_cons_of_mem i hj)
    rw [List.append_assoc] at this
    simp only [hp] at this
    exact this

/-! ## Prefixes of a configuration -/

theorem parseListCore_formed : ∀ {ts : List Text} {max : ℕ} {acc cs : List WgsAllowedCidr},
    parseListCore (parseCidr p) max ts acc = some cs → (∀ c ∈ acc, c.Formed) → ∀ c ∈ cs, c.Formed
  | [], _, acc, cs, h, ha => by
    obtain rfl := Option.some.inj h
    exact ha
  | t :: ts, max, acc, cs, h, ha => by
    unfold parseListCore at h
    simp only [] at h
    split at h
    · exact parseListCore_formed h ha
    split at h
    · cases h
    obtain ⟨c, hc, h⟩ := Option.bind_eq_some_iff.mp h
    refine parseListCore_formed h fun d hd => ?_
    rcases List.mem_append.mp hd with hd | hd
    · exact ha d hd
    · obtain rfl := List.mem_singleton.mp hd
      exact parseCidr_formed hc

/-- The lists read so far are of prefixes. -/
def AllFormed (cfg : ClientConfig) : Prop := ∀ i, ∀ c ∈ (cfg.peers i).allowed, c.Formed

theorem loadPeerKey_formed {key val : Text} {peer peer' : ConfigPeer}
    (hp : ∀ c ∈ peer.allowed, c.Formed) (h : loadPeerKey p key val peer = some peer') :
    ∀ c ∈ peer'.allowed, c.Formed := by
  unfold loadPeerKey at h
  split at h
  · obtain ⟨b, -, rfl⟩ := Option.map_eq_some_iff.mp h
    exact hp
  split at h
  · obtain ⟨b, -, rfl⟩ := Option.map_eq_some_iff.mp h
    exact hp
  split at h
  · obtain rfl := Option.some.inj h
    exact hp
  split at h
  · unfold parseAllowedIps at h
    split at h
    · cases h
    · obtain ⟨cs, hcs, rfl⟩ := Option.map_eq_some_iff.mp h
      exact parseListCore_formed hcs hp
  · obtain rfl := Option.some.inj h
    exact hp

theorem loadKey_formed {c d : LoadState} {key val : Text} (hc : AllFormed c.cfg)
    (h : loadKey p c key val = some d) : AllFormed d.cfg := by
  unfold loadKey at h
  simp only [] at h
  split at h
  · obtain ⟨b, -, rfl⟩ := Option.map_eq_some_iff.mp h
    exact hc
  split at h
  · split at h
    · cases h
    · obtain rfl := Option.some.inj h
      exact hc
  split at h
  · split at h
    · cases h
    · obtain rfl := Option.some.inj h
      exact hc
  split at h
  · obtain ⟨b, -, rfl⟩ := Option.map_eq_some_iff.mp h
    exact hc
  split at h
  · next i _ _ =>
    obtain ⟨peer, hpeer, rfl⟩ := Option.map_eq_some_iff.mp h
    intro j
    simp only [Function.update_apply]
    split
    · exact loadPeerKey_formed (hc i) hpeer
    · exact hc j
  · obtain rfl := Option.some.inj h
    exact hc

theorem loadLine_formed {c d : LoadState} {line : Text} (hc : AllFormed c.cfg)
    (h : loadLine p c line = some d) : AllFormed d.cfg := by
  unfold loadLine at h
  split at h
  · obtain rfl := Option.some.inj h
    exact hc
  split at h
  · obtain rfl := Option.some.inj h
    exact hc
  split at h
  · simp only [] at h
    split at h
    · split at h
      · cases h
      · obtain rfl := Option.some.inj h
        exact hc
    · obtain rfl := Option.some.inj h
      exact hc
  split at h
  · obtain rfl := Option.some.inj h
    exact hc
  · exact loadKey_formed hc h

theorem loadConfig_formed {text : Text} (h : loadConfig p text = some cfg) : AllFormed cfg := by
  obtain ⟨c, hc, h⟩ := Option.bind_eq_some_iff.mp h
  have hall := foldlM_inv (fun c : LoadState => AllFormed c.cfg)
    (fun _ _ _ hb hs => loadLine_formed hb hs) (fun _ _ hd => by cases hd) hc
  split_ifs at h
  exact Option.some.inj h ▸ hall

/-! ## Lookups over runs -/

theorem started_stores (hcfg : AllFormed cfg) (h : Started p cfg t) :
    Stores t (configuredEntries cfg) := by
  obtain ⟨hroot, hn, hset⟩ := started_rooted h
  obtain ⟨resolve, h⟩ := h
  simp only [start, Option.bind_eq_bind, Option.bind_eq_some_iff, Option.pure_def,
    Option.some.injEq] at h
  obtain ⟨t₁, h1, rfl⟩ := h
  obtain ⟨-, -, e4, e6, -⟩ := mainPeers_some (rootedTo_init cfg) h1
  set t₂ := (if t₁.noise.lHasIdentity then
    { t₁ with cookieChecker := cookieCheckerUpdate p t₁.noise.lPublic } else t₁) with ht₂
  obtain ⟨o4, o6⟩ : t₂.aipsV4 = t₁.aipsV4 ∧ t₂.aipsV6 = t₁.aipsV6 := by
    rw [ht₂]
    split <;> exact ⟨rfl, rfl⟩
  have hinit : Stores t₂ [] := by
    refine ⟨?_, ?_⟩
    · rw [o4.trans e4, lastEntry_nil]
      exact .init
    · rw [o6.trans e6, lastEntry_nil]
      exact .init
  have hpeers := (insertAll_outside (List.range cfg.nPeers) t₂).2.1
  have hallowed : ∀ i ∈ List.range cfg.nPeers, (t₂.peers i).allowed = (cfg.peers i).allowed :=
    fun i hi => by
      rw [← hpeers]
      exact congrArg Setting.allowed (hset i (List.mem_range.mp hi))
  have hstores := hinit.insertAll (List.range cfg.nPeers) fun i hi => by
    rw [hallowed i hi]
    exact hcfg i
  rw [List.nil_append, List.flatMap_congr fun i hi => by rw [hallowed i hi]] at hstores
  exact hstores

/-- What is found is one of the peers. -/
theorem ownerAt_lt {off4 off6 : ℕ} {inner : Bytes} {i : ℕ}
    (h : ownerAt cfg off4 off6 inner = some i) : i < cfg.nPeers := by
  have hmatch : ∀ {family w : ℕ} {addr : Bytes},
      longestMatch w (lastEntry family w (configuredEntries cfg)) addr = some i → i < cfg.nPeers :=
    fun hl => by
      obtain ⟨n, -, hn⟩ := List.exists_of_findSome?_eq_some hl
      obtain ⟨c, hc⟩ := lastEntry_mem hn
      obtain ⟨j, hj, hmem⟩ := List.mem_flatMap.mp hc
      obtain ⟨_, -, he⟩ := List.mem_map.mp hmem
      exact (Prod.mk.inj he).2 ▸ List.mem_range.mp hj
  unfold ownerAt at h
  split at h
  · exact hmatch h
  split at h
  · exact hmatch h
  · cases h

/-- A started client, with the configuration it was started with. -/
structure Configured (cfg : ClientConfig) (t : Tunnel) : Prop where
  rooted : Rooted t
  nPeers : t.nPeers = cfg.nPeers
  setting : ∀ i < cfg.nPeers, (t.peers i).setting = settingOf (cfg.peers i) i
  stores : Stores t (configuredEntries cfg)

theorem Configured.goes (h : Configured cfg t) (hg : Goes p t t') : Configured cfg t' :=
  ⟨h.rooted.goes hg, hg.nPeers.trans h.nPeers, fun i hi => (hg.setting i).trans (h.setting i hi),
    hg.v4 ▸ h.stores.v4, hg.v6 ▸ h.stores.v6⟩

theorem started_configured {text : Text} (hcfg : loadConfig p text = some cfg)
    (h : Started p cfg t) : Configured cfg t := by
  obtain ⟨hroot, hn, hset⟩ := started_rooted h
  exact ⟨hroot, hn, hset, started_stores (loadConfig_formed hcfg) h⟩

theorem run_configured {text : Text} {evs : List Event} (hcfg : loadConfig p text = some cfg)
    (h : Started p cfg t₀) (hrun : Run (step p) (fun _ _ => True) t₀ evs t) : Configured cfg t := by
  have h₀ := started_configured hcfg h
  exact h₀.goes (run_goes h₀.rooted hrun).2

theorem Configured.pubkey (h : Configured cfg t) {i : ℕ} (hi : i < cfg.nPeers) :
    (t.noise.remotes i).rPublic = (cfg.peers i).pubkey :=
  (h.rooted.pub i (h.nPeers ▸ hi)).trans (congrArg Setting.pubkey (h.setting i hi))

theorem lookup_slice {a : AipsTrie ℕ} {m : ℕ × ℕ → Option ℕ} {n : ℕ}
    (h : Represents a m (8 * n)) {inner : Bytes} {off : ℕ} (hlen : off + n ≤ inner.length) :
    aipsLookup a (inner.drop off) = longestMatch (8 * n) m (slice off n inner) := by
  have hs : (slice off n inner).length = n := by
    rw [slice, List.length_take, List.length_drop]
    omega
  rw [← h.lookup (by rw [hs]), aipsLookup_eq, aipsLookup_eq, h.maxBits, addrBits_slice]

theorem lookupInnerDst_eq (h : Stores t (configuredEntries cfg)) (inner : Bytes) :
    lookupInnerDst t inner = destinationOwner cfg inner := by
  unfold lookupInnerDst destinationOwner ownerAt
  cases inner with
  | nil => rfl
  | cons b bs =>
    simp only [List.getD_cons_zero]
    split
    · next h4 => exact lookup_slice (n := 4) h.v4 (by omega)
    split
    · next h6 => exact lookup_slice (n := 16) h.v6 (by omega)
    · rfl

theorem lookupInnerSrc_eq (h : Stores t (configuredEntries cfg)) (inner : Bytes) :
    aipsLookupInnerSrc t.ctx inner = sourceOwner cfg inner := by
  unfold aipsLookupInnerSrc sourceOwner ownerAt
  cases inner with
  | nil => rfl
  | cons b bs =>
    simp only [List.getD_cons_zero]
    by_cases h4 : b >>> 4 = 4
    · by_cases hl : (b :: bs).length < 20
      · rw [if_pos h4, if_pos hl, if_neg (by omega), if_neg (by rw [h4]; simp)]
      · rw [if_pos h4, if_neg hl, if_pos ⟨h4, by omega⟩]
        exact lookup_slice (n := 4) h.v4 (by omega)
    · have hno4 : ¬ (b >>> 4 = 4 ∧ 20 ≤ (b :: bs).length) := fun hc => h4 hc.1
      rw [if_neg h4, if_neg hno4]
      by_cases h6 : b >>> 4 = 6
      · by_cases hl : (b :: bs).length < 40
        · rw [if_pos h6, if_pos hl, if_neg (by omega)]
        · rw [if_pos h6, if_neg hl, if_pos ⟨h6, by omega⟩]
          exact lookup_slice (n := 16) h.v6 (by omega)
      · have hno6 : ¬ (b >>> 4 = 6 ∧ 40 ≤ (b :: bs).length) := fun hc => h6 hc.1
        rw [if_neg h6, if_neg hno6]

/-! ## What a step sends -/

/-- Nothing is delivered, no peer's endpoint moves, and what is sent goes to the peers. -/
structure Outbound (p : Prims) (t t' : Tunnel) (out : List Upcall) : Prop where
  nPeers : t'.nPeers = t.nPeers
  endpoint : ∀ j, (t'.peers j).endpoint = (t.peers j).endpoint
  endpointLen : ∀ j, (t'.peers j).endpointLen = (t.peers j).endpointLen
  sent : ∀ u ∈ out, ∃ i < t.nPeers, ∃ data,
    u = .sendUdp data (t.peers i).endpoint (t.peers i).endpointLen
  seals : Seals p t.noise t'.noise out

theorem Outbound.refl (p : Prims) (t : Tunnel) : Outbound p t t [] :=
  ⟨rfl, fun _ => rfl, fun _ => rfl, by simp, .refl p _⟩

theorem Outbound.trans {t'' : Tunnel} {out out' : List Upcall} (h : Outbound p t t' out)
    (h' : Outbound p t' t'' out') : Outbound p t t'' (out ++ out') where
  nPeers := h'.nPeers.trans h.nPeers
  endpoint := fun j => (h'.endpoint j).trans (h.endpoint j)
  endpointLen := fun j => (h'.endpointLen j).trans (h.endpointLen j)
  sent := fun u hu => by
    rcases List.mem_append.mp hu with hu | hu
    · exact h.sent u hu
    · obtain ⟨i, hi, data, rfl⟩ := h'.sent u hu
      rw [h'.nPeers.symm.trans (h'.nPeers.trans h.nPeers)] at hi
      exact ⟨i, hi, data, by rw [h.endpoint, h.endpointLen]⟩
  seals := h.seals.trans h'.seals

/-- A peer's other fields change. -/
theorem outbound_modPeer {i : ℕ} {f : TunnelPeer → TunnelPeer}
    (hf : (f (t.peers i)).toPeerState = (t.peers i).toPeerState) :
    Outbound p t (t.modPeer i f) [] where
  nPeers := rfl
  endpoint := modPeer_of_fixed (·.endpoint) (congrArg PeerState.endpoint hf)
  endpointLen := modPeer_of_fixed (·.endpointLen) (congrArg PeerState.endpointLen hf)
  sent := by simp
  seals := .refl p _

theorem Outbound.modPeer {out : List Upcall} (h : Outbound p t t' out) {i : ℕ}
    {f : TunnelPeer → TunnelPeer}
    (hf : (f (t'.peers i)).toPeerState = (t'.peers i).toPeerState) :
    Outbound p t (t'.modPeer i f) out := by
  have := h.trans (outbound_modPeer (p := p) hf)
  rwa [List.append_nil] at this

theorem outbound_setNoise {l : NoiseLocal} {out : List Upcall}
    (hs : ∀ u ∈ out, ∃ i < t.nPeers, ∃ data,
      u = .sendUdp data (t.peers i).endpoint (t.peers i).endpointLen)
    (h : Seals p t.noise l out) : Outbound p t (t.setNoise l) out :=
  ⟨rfl, fun _ => rfl, fun _ => rfl, hs, h⟩

/-! ## Data -/

theorem Goes.emits (h : Rooted t) (hg : Goes p t t') : Emits t.noise t'.noise [] :=
  noiseSteps_emits h.exact hg.noise

theorem encap_outbound (h : Rooted t) {i : ℕ} (hi : i < t.nPeers) {plain : Bytes} {env : EncapEnv}
    {sent : Bool} {rc : Int} {out : List Upcall}
    (hs : encap p t i plain env sent = (rc, t', out)) : Outbound p t t' out := by
  have hgoes := (encap_goes hs).emits h
  unfold encap at hs
  rcases he : wgEncap p t.noise (t.peers i).remote (t.peers i).endpointLen plain env sent
    with ⟨rc', l, o⟩
  simp only [he, Prod.mk.injEq] at hs
  obtain ⟨rfl, rfl, rfl⟩ := hs
  refine outbound_setNoise (fun u hu => ?_) ?_
  · split at hu
    · obtain ⟨data, -, rfl⟩ := List.mem_map.mp hu
      exact ⟨i, hi, data, rfl⟩
    · cases hu
  split
  swap
  · exact hgoes.seals rfl
  rcases o with _ | data
  · exact hgoes.seals rfl
  · obtain ⟨k, nonce, -, hemits, rfl⟩ := wgEncap_seals h.exact he
    refine ⟨[(k, nonce)], hemits, ?_⟩
    simp only [Option.toList_some, List.map_cons, List.map_nil, sealedData, dataSent_data]
    exact .cons ⟨_, rfl⟩ .nil

/-- What is sent is one datagram, sealed under the peer's current keypair. -/
theorem encap_sent (h : Rooted t) {i : ℕ} {plain : Bytes} {env : EncapEnv} {sent : Bool} {rc : Int}
    {out : List Upcall} (hs : encap p t i plain env sent = (rc, t', out)) (hne : out ≠ []) :
    ∃ k nonce, (t.noise.remotes (t.peers i).remote).rCurrent = some k
      ∧ out = [.sendUdp (sealedData p t'.noise k nonce (paddedText plain)) (t.peers i).endpoint
        (t.peers i).endpointLen] := by
  unfold encap at hs
  rcases he : wgEncap p t.noise (t.peers i).remote (t.peers i).endpointLen plain env sent
    with ⟨rc', l, o⟩
  simp only [he, Prod.mk.injEq] at hs
  obtain ⟨rfl, rfl, rfl⟩ := hs
  split at hne
  swap
  · exact absurd rfl hne
  next hrc =>
  rcases o with _ | data
  · exact absurd rfl hne
  · obtain ⟨k, nonce, hcur, -, rfl⟩ := wgEncap_seals h.exact he
    exact ⟨k, nonce, hcur, by rw [if_pos hrc]; rfl⟩

/-! ## Ticks -/

theorem sendInitiation_outbound (h : Rooted t) {i : ℕ} (hi : i < t.nPeers) {env : DialEnv}
    {idx : Option UInt32} {out : List Upcall}
    (hs : sendInitiation p t i env = some (t', idx, out)) : Outbound p t t' out := by
  have hemits := (sendInitiation_goes h hi hs).emits h
  unfold sendInitiation at hs
  split at hs
  · simp only [Option.some.injEq, Prod.mk.injEq] at hs
    obtain ⟨rfl, -, rfl⟩ := hs
    exact .refl p t
  obtain ⟨⟨l, res⟩, -, hs⟩ := Option.map_eq_some_iff.mp hs
  rcases res with _ | ⟨sIdx, msg⟩
  · simp only [Prod.mk.injEq] at hs
    obtain ⟨rfl, -, rfl⟩ := hs
    exact outbound_setNoise (by simp) (hemits.seals rfl)
  simp only [] at hs
  generalize cookieMakerMac p (t.peers i).cookie (initiationBytes sIdx msg) env.initiation.mac
    = macs at hs
  have hcookie : Outbound p t (t.modPeer i fun peer => { peer with cookie := macs.1 }) [] :=
    outbound_modPeer rfl
  split at hs
  · simp only [Prod.mk.injEq] at hs
    obtain ⟨rfl, -, rfl⟩ := hs
    refine hcookie.trans (outbound_setNoise (fun u hu => ?_) (hemits.seals ?_))
    · obtain rfl := List.mem_singleton.mp hu
      exact ⟨i, hi, _, rfl⟩
    · simp only [initiationBytes, List.append_assoc]
      exact dataSent_other (by decide)
  · simp only [Prod.mk.injEq] at hs
    obtain ⟨rfl, -, rfl⟩ := hs
    exact hcookie.trans (outbound_setNoise (by simp) (hemits.seals rfl))

theorem tunnelSendInitiation_outbound (h : Rooted t) {i : ℕ} (hi : i < t.nPeers) {now : ℤ}
    {env : DialEnv} {rc : Int} {out : List Upcall}
    (hs : tunnelSendInitiation p t i now env = some (rc, t', out)) : Outbound p t t' out := by
  obtain ⟨⟨t₁, idx, o⟩, h1, h2⟩ := Option.map_eq_some_iff.mp hs
  have hout := sendInitiation_outbound h hi h1
  rcases idx with _ | sIdx
  · simp only [Prod.mk.injEq] at h2
    obtain ⟨-, rfl, rfl⟩ := h2
    exact hout
  · simp only [Prod.mk.injEq] at h2
    obtain ⟨-, rfl, rfl⟩ := h2
    exact hout.modPeer rfl

theorem tickRetransmit_outbound (h : Rooted t) {i : ℕ} (hi : i < t.nPeers) {now : ℤ}
    {env : DialEnv} {out : List Upcall} (hs : tickRetransmit p t i now env = some (t', out)) :
    Outbound p t t' out := by
  unfold tickRetransmit at hs
  split at hs
  · have hstamp : Outbound p t (t.modPeer i fun peer => { peer with hsSentAt := now }) [] :=
      outbound_modPeer rfl
    simp only [] at hs
    split at hs
    · simp only [Option.some.injEq, Prod.mk.injEq] at hs
      obtain ⟨rfl, rfl⟩ := hs
      exact hstamp.modPeer rfl
    · obtain ⟨⟨rc, t₁, o⟩, h1, h2⟩ := Option.map_eq_some_iff.mp hs
      simp only [Prod.mk.injEq] at h2
      obtain ⟨rfl, rfl⟩ := h2
      have hroot : Rooted (t.modPeer i fun peer => { peer with hsSentAt := now }) :=
        h.goes (p := p) (goes_modPeer rfl)
      exact hstamp.trans (tunnelSendInitiation_outbound hroot hi h1)
  · simp only [Option.some.injEq, Prod.mk.injEq] at hs
    obtain ⟨rfl, rfl⟩ := hs
    exact .refl p t

theorem tickInitiate_outbound (h : Rooted t) {i : ℕ} (hi : i < t.nPeers) {now : ℤ} {env : DialEnv}
    {out : List Upcall} (hs : tickInitiate p t i now env = some (t', out)) :
    Outbound p t t' out := by
  unfold tickInitiate at hs
  split at hs
  · split at hs
    · have hzero : Outbound p t (t.modPeer i fun peer => { peer with hsAttempts := 0 }) [] :=
        outbound_modPeer rfl
      obtain ⟨⟨rc, t₁, o⟩, h1, h2⟩ := Option.map_eq_some_iff.mp hs
      simp only [Prod.mk.injEq] at h2
      obtain ⟨rfl, rfl⟩ := h2
      have hroot : Rooted (t.modPeer i fun peer => { peer with hsAttempts := 0 }) :=
        h.goes (p := p) (goes_modPeer rfl)
      exact hzero.trans (tunnelSendInitiation_outbound hroot hi h1)
    · simp only [Option.some.injEq, Prod.mk.injEq] at hs
      obtain ⟨rfl, rfl⟩ := hs
      exact .refl p t
  · simp only [Option.some.injEq, Prod.mk.injEq] at hs
    obtain ⟨rfl, rfl⟩ := hs
    exact .refl p t

theorem tickKeepalive_outbound (h : Rooted t) {i : ℕ} (hi : i < t.nPeers) {now : ℤ}
    {env : EncapEnv} {sent : Bool} {out : List Upcall}
    (hs : tickKeepalive p t i now env sent = (t', out)) : Outbound p t t' out := by
  unfold tickKeepalive at hs
  split at hs
  · rcases he : encap p t i [] env sent with ⟨rc, t₁, o⟩
    have hout := encap_outbound h hi he
    simp only [he] at hs
    split at hs <;> simp only [Prod.mk.injEq] at hs <;> obtain ⟨rfl, rfl⟩ := hs
    · exact hout.modPeer rfl
    · exact hout
  · simp only [Prod.mk.injEq] at hs
    obtain ⟨rfl, rfl⟩ := hs
    exact .refl p t

theorem tunnelTickPeer_outbound (h : Rooted t) {i : ℕ} (hi : i < t.nPeers) {now : ℤ}
    {env : TickPeerEnv} {out : List Upcall}
    (hs : tunnelTickPeer p t i now env = some (t', out)) : Outbound p t t' out := by
  obtain ⟨t₁, t₂, o₁, o₂, o₃, h1, h2, h3, rfl⟩ := tunnelTickPeer_some hs
  have hg₁ := tickRetransmit_goes h hi h1
  have hr₁ := h.goes hg₁
  have hi₁ : i < t₁.nPeers := hg₁.nPeers.symm ▸ hi
  have hg₂ := tickInitiate_goes hr₁ hi₁ h2
  have hi₂ : i < t₂.nPeers := hg₂.nPeers.symm ▸ hi₁
  exact ((tickRetransmit_outbound h hi h1).trans (tickInitiate_outbound hr₁ hi₁ h2)).trans
    (tickKeepalive_outbound (hr₁.goes hg₂) hi₂ h3)

theorem tickFrom_outbound {now : ℤ} {env : ℕ → TickPeerEnv} : ∀ {is : List ℕ} {t t' : Tunnel}
    {out : List Upcall}, Rooted t → (∀ i ∈ is, i < t.nPeers) →
    tickFrom p now env is t = some (t', out) → Outbound p t t' out
  | [], t, t', _, _, _, hs => by
    simp only [tickFrom, Option.some.injEq, Prod.mk.injEq] at hs
    obtain ⟨rfl, rfl⟩ := hs
    exact .refl p t
  | i :: is, t, t', _, h, hi, hs => by
    simp only [tickFrom, Option.bind_eq_bind, Option.bind_eq_some_iff, Option.pure_def,
      Option.some.injEq, Prod.mk.injEq] at hs
    obtain ⟨⟨t₁, o₁⟩, h1, ⟨t₂, o₂⟩, h2, rfl, rfl⟩ := hs
    have hi' := hi i List.mem_cons_self
    have hg := tunnelTickPeer_goes h hi' h1
    refine (tunnelTickPeer_outbound h hi' h1).trans
      (tickFrom_outbound (h.goes hg) (fun j hj => ?_) h2)
    rw [hg.nPeers]
    exact hi j (List.mem_cons_of_mem i hj)

/-! ## Packets from the device -/

/-- Something is sent for a packet only to the peer that is configured for its destination. -/
theorem tx_sent (h : Configured cfg t) {inner : Bytes} {now : ℤ} {env : EncapEnv} {sent : Bool}
    {out : List Upcall} (hs : txHandlePacket p t inner now env sent = (t', out)) :
    Outbound p t t' out ∧ (out ≠ [] → ∃ i < cfg.nPeers, ∃ k nonce,
      destinationOwner cfg inner = some i ∧ (t.noise.remotes i).rCurrent = some k
        ∧ out = [.sendUdp (sealedData p t'.noise k nonce (paddedText inner)) (t.peers i).endpoint
          (t.peers i).endpointLen]) := by
  unfold txHandlePacket at hs
  split at hs
  · simp only [Prod.mk.injEq] at hs
    obtain ⟨rfl, rfl⟩ := hs
    exact ⟨.refl p t, fun hne => absurd rfl hne⟩
  next i hlook =>
  rw [lookupInnerDst_eq h.stores] at hlook
  have hi := ownerAt_lt hlook
  rcases he : encap p t i inner env sent with ⟨rc, t₁, o⟩
  have hout := encap_outbound h.rooted (h.nPeers.symm ▸ hi) he
  simp only [he, Prod.mk.injEq] at hs
  obtain ⟨rfl, rfl⟩ := hs
  refine ⟨?_, fun hne => ?_⟩
  · split
    · exact hout.modPeer rfl
    · exact hout
  · obtain ⟨k, nonce, hcur, rfl⟩ := encap_sent h.rooted he hne
    rw [h.rooted.remote i (h.nPeers.symm ▸ hi)] at hcur
    refine ⟨i, hi, k, nonce, hlook, hcur, ?_⟩
    split <;> rfl

/-! ## Datagrams -/

theorem consumeResponse_outbound (h : Rooted t) {bytes : Bytes} {env : ConsumeEnv} {jitter : ℤ}
    {rc : Int} {out : List Upcall}
    (hs : tunnelConsumeResponse p t bytes env jitter = (rc, t', out)) : Outbound p t t' out := by
  have hemits := (consumeResponse_goes hs).emits h
  unfold tunnelConsumeResponse at hs
  split at hs
  · simp only [Prod.mk.injEq] at hs
    obtain ⟨-, rfl, rfl⟩ := hs
    exact .refl p t
  split at hs
  · simp only [Prod.mk.injEq] at hs
    obtain ⟨-, rfl, rfl⟩ := hs
    exact .refl p t
  split at hs
  · simp only [Prod.mk.injEq] at hs
    obtain ⟨-, rfl, rfl⟩ := hs
    exact outbound_setNoise (by simp) (hemits.seals rfl)
  split at hs
  · simp only [Prod.mk.injEq] at hs
    obtain ⟨-, rfl, rfl⟩ := hs
    exact outbound_setNoise (by simp) (hemits.seals rfl)
  · simp only [Prod.mk.injEq] at hs
    obtain ⟨-, rfl, rfl⟩ := hs
    exact (outbound_modPeer (p := p) rfl).trans (outbound_setNoise (by simp) (hemits.seals rfl))

theorem rxCookie_outbound (t : Tunnel) (bytes : Bytes) (now : Moment) :
    Outbound p t (rxCookie p t bytes now) [] := by
  unfold rxCookie
  split
  · exact .refl p t
  split
  · exact .refl p t
  · exact outbound_modPeer rfl

/-- The peer that an authentic datagram is put down to is the one whose remote has the keypair. -/
theorem Configured.data (h : Configured cfg t) {bytes : Bytes} {now : Moment} {k : ℕ} {m : Bytes}
    (hacc : Accepts p t.noise bytes now k m) (src : Sockaddr) (srcLen : ℕ) (written : Bool) :
    (t.noise.keypairs k).kpRemote < cfg.nPeers ∧ k ∈ t.noise.slots (t.noise.keypairs k).kpRemote
      ∧ PolarWG.rxHandleDatagram p t.ctx bytes src srcLen now written
        = rxDecapped { t.ctx with noise := afterReceipt t.noise k } src srcLen written
          (decapped (t.noise.keypairs k).kpRemote m) := by
  have hslot := ((h.rooted.exact.counted.keypairLinked k).mp hacc.mem).1.resolve_right
    (by simp [Links.refs])
  have hlt := h.rooted.exact.slots_lt hslot
  rw [h.rooted.nRemotes] at hlt
  have harg : slotOf t.noise k = (t.noise.keypairs k).kpRemote := h.rooted.arg _ hlt
  refine ⟨h.nPeers ▸ hlt, hslot, ?_⟩
  unfold PolarWG.rxHandleDatagram
  rw [show t.ctx.noise = t.noise from rfl, decap_accepts hacc, harg]

theorem rxDecapped_delivers (c : TunnelCtx) (src : Sockaddr) (srcLen : ℕ) (written : Bool) (i : ℕ)
    (m inner : Bytes) : (rxDecapped c src srcLen written (decapped i m)).2 = some inner
      ↔ written ∧ ∃ len ≤ wgBufMax, innerIpLen m = some len ∧ inner = m.take len
        ∧ aipsLookupInnerSrc c inner = some i := by
  unfold decapped
  by_cases hm : m.length = 0
  · obtain rfl := List.eq_nil_of_length_eq_zero hm
    simp [rxDecapped, innerIpLen]
  rw [if_neg hm]
  rcases hlen : innerIpLen m with _ | len
  · simp [rxDecapped]
  simp only [Option.some.injEq]
  by_cases hbig : wgBufMax < len
  · rw [if_pos hbig]
    simp only [rxDecapped, reduceCtorEq, false_iff]
    rintro ⟨-, n, hn, rfl, -⟩
    omega
  rw [if_neg hbig]
  have hnil : aipsLookupInnerSrc c [] = none := rfl
  have hright : (written = true ∧ ∃ n ≤ wgBufMax, len = n ∧ inner = m.take n
      ∧ aipsLookupInnerSrc c inner = some i)
      ↔ written = true ∧ inner = m.take len ∧ aipsLookupInnerSrc c inner = some i := by
    constructor
    · rintro ⟨hw, n, -, rfl, h⟩
      exact ⟨hw, h⟩
    · rintro ⟨hw, h⟩
      exact ⟨hw, len, by omega, rfl, h⟩
  rw [hright]
  unfold rxDecapped
  simp only []
  split
  · split
    · next hsrc =>
      simp only [reduceCtorEq, false_iff]
      rintro ⟨-, rfl, h⟩
      exact hsrc h
    · next hsrc =>
      rw [not_not] at hsrc
      split
      · next hw =>
        simp only [Option.some.injEq]
        constructor
        · rintro rfl
          exact ⟨hw, rfl, hsrc⟩
        · exact fun h => h.2.1.symm
      · next hw => simp [hw]
  · next hpos =>
    simp only [reduceCtorEq, false_iff]
    rintro ⟨-, rfl, h⟩
    have hzero : m.take len = [] := List.eq_nil_of_length_eq_zero (by omega)
    rw [hzero, hnil] at h
    cases h

theorem innerIpLen_pos {m : Bytes} {len : ℕ} (h : innerIpLen m = some len) : 20 ≤ len := by
  unfold innerIpLen at h
  split at h
  · cases h
  simp only [] at h
  split_ifs at h
  all_goals
    simp only [Option.some.injEq] at h
    omega

/-- A packet of no length is what is left of an empty text only. -/
theorem decapped_some {i i' : ℕ} {m inner : Bytes} (h : decapped i m = some (i', inner)) :
    i' = i ∧ (inner = [] → m = []) := by
  unfold decapped at h
  split at h
  · next hm =>
    simp only [Option.some.injEq, Prod.mk.injEq] at h
    exact ⟨h.1.symm, fun _ => List.eq_nil_of_length_eq_zero hm⟩
  split at h
  · cases h
  next len hlen =>
  split at h
  · cases h
  simp only [Option.some.injEq, Prod.mk.injEq] at h
  refine ⟨h.1.symm, fun hi => ?_⟩
  have h20 := innerIpLen_pos hlen
  rw [← h.2] at hi
  rcases List.take_eq_nil_iff.mp hi with h0 | h0
  · omega
  · exact h0

theorem peerSetEndpoint_cases (peer : PeerState) (src : Sockaddr) (srcLen : ℕ) :
    ((peerSetEndpoint peer src srcLen).endpoint = peer.endpoint
        ∧ (peerSetEndpoint peer src srcLen).endpointLen = peer.endpointLen)
      ∨ (0 < srcLen ∧ srcLen ≤ sockaddrStorageLen ∧ (peerSetEndpoint peer src srcLen).endpoint = src
        ∧ (peerSetEndpoint peer src srcLen).endpointLen = srcLen) := by
  unfold peerSetEndpoint
  split
  · exact .inl ⟨rfl, rfl⟩
  split
  · exact .inl ⟨rfl, rfl⟩
  · exact .inr ⟨by omega, by omega, rfl, rfl⟩

/-- A peer's endpoint moves with its own data only, and only when it is taken in. -/
theorem rxDecapped_endpoint (c : TunnelCtx) (src : Sockaddr) (srcLen : ℕ) (written : Bool) (i : ℕ)
    (m : Bytes) {c' : TunnelCtx} {o : Option Bytes}
    (hs : rxDecapped c src srcLen written (decapped i m) = (c', o)) (j : ℕ) :
    ((c'.peers j).endpoint = (c.peers j).endpoint ∧ (c'.peers j).endpointLen = (c.peers j).endpointLen)
      ∨ (j = i ∧ 0 < srcLen ∧ srcLen ≤ sockaddrStorageLen ∧ (c'.peers j).endpoint = src
        ∧ (c'.peers j).endpointLen = srcLen ∧ (m = [] ∨ o.isSome)) := by
  -- a change of the peer's own fields
  have hupd : ∀ f : PeerState → PeerState, (∀ q, (f q).endpoint = q.endpoint
      ∧ (f q).endpointLen = q.endpointLen) → c' = (c.modPeer i f) →
      (c'.peers j).endpoint = (c.peers j).endpoint ∧ (c'.peers j).endpointLen = (c.peers j).endpointLen := by
    rintro f hf rfl
    simp only [TunnelCtx.modPeer, Function.update_apply]
    split
    · next e => rw [e]; exact hf _
    · exact ⟨rfl, rfl⟩
  have hset : ∀ f : PeerState → PeerState, (∀ q, (f q).endpoint = q.endpoint
      ∧ (f q).endpointLen = q.endpointLen) → (m = [] ∨ o.isSome) →
      c' = (c.modPeer i fun peer => peerSetEndpoint (f peer) src srcLen) →
      ((c'.peers j).endpoint = (c.peers j).endpoint
          ∧ (c'.peers j).endpointLen = (c.peers j).endpointLen)
        ∨ (j = i ∧ 0 < srcLen ∧ srcLen ≤ sockaddrStorageLen ∧ (c'.peers j).endpoint = src
          ∧ (c'.peers j).endpointLen = srcLen ∧ (m = [] ∨ o.isSome)) := by
    rintro f hf hm rfl
    simp only [TunnelCtx.modPeer, Function.update_apply]
    split
    · next e =>
      rcases peerSetEndpoint_cases (f (c.peers i)) src srcLen with ⟨h1, h2⟩ | ⟨h1, h2, h3, h4⟩
      · rw [e]
        exact .inl ⟨h1.trans (hf _).1, h2.trans (hf _).2⟩
      · exact .inr ⟨e, h1, h2, h3, h4, hm⟩
    · exact .inl ⟨rfl, rfl⟩
  rcases hdec : decapped i m with _ | ⟨i', inner⟩
  · simp only [hdec, rxDecapped, Prod.mk.injEq] at hs
    obtain ⟨rfl, -⟩ := hs
    exact .inl ⟨rfl, rfl⟩
  obtain ⟨rfl, hempty⟩ := decapped_some hdec
  simp only [hdec, rxDecapped] at hs
  split at hs
  · split at hs
    · simp only [Prod.mk.injEq] at hs
      exact .inl (hupd (fun peer => { peer with rxDroppedAips := peer.rxDroppedAips + 1 })
        (fun _ => ⟨rfl, rfl⟩) hs.1.symm)
    split at hs
    · simp only [Prod.mk.injEq] at hs
      refine hset (fun peer => { peer with
        rxPkts := peer.rxPkts + 1, rxBytes := peer.rxBytes + inner.length }) (fun _ => ⟨rfl, rfl⟩)
        (.inr ?_) hs.1.symm
      rw [← hs.2]
      rfl
    · simp only [Prod.mk.injEq] at hs
      obtain ⟨rfl, -⟩ := hs
      exact .inl ⟨rfl, rfl⟩
  · next hpos =>
    simp only [Prod.mk.injEq] at hs
    exact hset (fun peer => { peer with rxPkts := peer.rxPkts + 1 }) (fun _ => ⟨rfl, rfl⟩)
      (.inl (hempty (List.eq_nil_of_length_eq_zero (by omega)))) hs.1.symm

/-- An initiation that is taken in comes from a peer's remote. -/
theorem Configured.initiator (h : Configured cfg t) {sIdx : UInt32} {msg : Initiation}
    {env : ResponderEnv} {l : NoiseLocal} {r : ℕ}
    (hs : noiseConsumeInitiation p t.noise sIdx msg env = some (l, some r)) :
    r < cfg.nPeers ∧ (l.remotes r).rArg = r := by
  obtain ⟨-, hmem, -, idx, hl⟩ := h.rooted.exact.counted.consumeInitiation_some hs
  have hlt := (h.rooted.exact.listed r hmem).1
  rw [h.rooted.nRemotes] at hlt
  refine ⟨h.nPeers ▸ hlt, ?_⟩
  have harg : (l.remotes r).rArg = (t.noise.remotes r).rArg := by
    refine (congrArg (fun L : Links => (L.remotes r).arg) hl).trans ?_
    rw [Links.modRemote_remotes, if_pos rfl]
    rfl
  rw [harg, h.rooted.arg r hlt]

/-- The endpoint of the peer `j` stays, or it is the source of this datagram now. -/
def Follows (t t' : Tunnel) (src : Sockaddr) (srcLen j : ℕ) (why : Prop) : Prop :=
  ((t'.peers j).endpoint = (t.peers j).endpoint ∧ (t'.peers j).endpointLen = (t.peers j).endpointLen)
    ∨ (0 < srcLen ∧ srcLen ≤ sockaddrStorageLen ∧ (t'.peers j).endpoint = src
      ∧ (t'.peers j).endpointLen = srcLen ∧ why)

/-- The datagram is an initiation of the peer `j`'s that is answered, to where it came from. -/
def Answers (p : Prims) (t : Tunnel) (bytes : Bytes) (src : Sockaddr) (srcLen : ℕ)
    (env : AnswerEnv) (out : List Upcall) (j : ℕ) : Prop :=
  ∃ data, out = [.sendUdp data src srcLen] ∧ (noiseConsumeInitiation p t.noise
    (le32dec (slice 4 4 bytes)) (initiationOf bytes) env.responder).map Prod.snd = some (some j)

theorem consumeInitiation_answers (h : Configured cfg t) {bytes : Bytes} {src : Sockaddr}
    {srcLen : ℕ} {env : AnswerEnv} {rc : Int} {out : List Upcall}
    (hs : tunnelConsumeInitiation p t bytes src srcLen env = some (rc, t', out)) :
    Seals p t.noise t'.noise out
      ∧ (out = [] ∨ ∃ j < cfg.nPeers, Answers p t bytes src srcLen env out j)
      ∧ ∀ j, Follows t t' src srcLen j (Answers p t bytes src srcLen env out j) := by
  have hemits := (consumeInitiation_goes hs).emits h.rooted
  unfold tunnelConsumeInitiation at hs
  split at hs
  · simp only [Option.some.injEq, Prod.mk.injEq] at hs
    obtain ⟨-, rfl, rfl⟩ := hs
    exact ⟨.refl p _, .inl rfl, fun j => .inl ⟨rfl, rfl⟩⟩
  split at hs
  · simp only [Option.some.injEq, Prod.mk.injEq] at hs
    obtain ⟨-, rfl, rfl⟩ := hs
    exact ⟨.refl p _, .inl rfl, fun j => .inl ⟨rfl, rfl⟩⟩
  obtain ⟨⟨l, res⟩, hc, hs⟩ := Option.map_eq_some_iff.mp hs
  rcases res with _ | r
  · simp only [Prod.mk.injEq] at hs
    obtain ⟨-, rfl, rfl⟩ := hs
    exact ⟨hemits.seals rfl, .inl rfl, fun j => .inl ⟨rfl, rfl⟩⟩
  rcases hn : noiseCreateResponse p l r env.responder with ⟨l₁, _ | ⟨sIdx, rIdx, msg⟩⟩
  · simp only [hn, Prod.mk.injEq] at hs
    obtain ⟨-, rfl, rfl⟩ := hs
    exact ⟨hemits.seals rfl, .inl rfl, fun j => .inl ⟨rfl, rfl⟩⟩
  obtain ⟨hlt, harg⟩ := h.initiator hc
  simp only [hn, harg] at hs
  generalize cookieMakerMac p (t.peers r).cookie (responseBytes sIdx rIdx msg) env.responder.mac
    = macs at hs
  have hkeep : Outbound p t (t.modPeer r fun peer => { peer with cookie := macs.1 }) [] :=
    outbound_modPeer rfl
  split at hs
  · simp only [Prod.mk.injEq] at hs
    obtain ⟨-, rfl, rfl⟩ := hs
    exact ⟨hemits.seals rfl, .inl rfl, fun j => .inl ⟨hkeep.endpoint j, hkeep.endpointLen j⟩⟩
  simp only [Prod.mk.injEq] at hs
  obtain ⟨-, rfl, rfl⟩ := hs
  have hanswers : Answers p t bytes src srcLen env
      [.sendUdp (responseBytes sIdx rIdx msg ++ macs.2.bytes) src srcLen] r :=
    ⟨_, rfl, by rw [hc]; rfl⟩
  refine ⟨hemits.seals ?_, .inr ⟨r, hlt, hanswers⟩, fun j => ?_⟩
  · simp only [responseBytes, List.append_assoc]
    exact dataSent_other (by decide)
  by_cases hj : j = r
  · subst hj
    have hset := peerSetEndpoint_cases (t.peers j).toPeerState src srcLen
    simp only [Follows, modPeer_peers, setNoise_peers, if_true]
    rcases hset with hsame | ⟨h1, h2, h3, h4⟩
    · exact .inl hsame
    · exact .inr ⟨h1, h2, h3, h4, hanswers⟩
  · refine .inl ⟨?_, ?_⟩ <;> simp only [modPeer_peers, setNoise_peers, if_neg hj]

/-- The datagram is data that is authentic under a keypair of the peer `j`'s, and it is taken in. -/
def Speaks (p : Prims) (t : Tunnel) (bytes : Bytes) (now : Moment) (out : List Upcall) (j : ℕ) :
    Prop :=
  ∃ k plain, Accepts p t.noise bytes now k plain ∧ k ∈ t.noise.slots j
    ∧ (plain = [] ∨ ∃ m, out = [.deliverIp m])

/-- The datagram is data that is authentic under a keypair of the peer `i`'s, and the packet `m` in
it is one that `i` is configured to send. -/
def Brings (p : Prims) (cfg : ClientConfig) (t : Tunnel) (bytes : Bytes) (now : Moment) (i : ℕ)
    (m : Bytes) : Prop :=
  ∃ k plain, ∃ len ≤ wgBufMax, Accepts p t.noise bytes now k plain ∧ k ∈ t.noise.slots i
    ∧ innerIpLen plain = some len ∧ m = plain.take len ∧ sourceOwner cfg m = some i

theorem data_step (h : Configured cfg t) (bytes : Bytes) (src : Sockaddr) (srcLen : ℕ) (env : RxEnv)
    {out : List Upcall} {c : TunnelCtx} {o : Option Bytes}
    (hs : PolarWG.rxHandleDatagram p t.ctx bytes src srcLen env.data env.written = (c, o))
    (ho : out = o.toList.map .deliverIp) :
    Seals p t.noise (t.setCtx c).noise out
      ∧ (∀ m, .deliverIp m ∈ out ↔ env.written ∧ ∃ i < cfg.nPeers, Brings p cfg t bytes env.data i m)
      ∧ ∀ j, Follows t (t.setCtx c) src srcLen j (Speaks p t bytes env.data out j) := by
  have hseals : Seals p t.noise (t.setCtx c).noise out := by
    have hg := (data_goes (p := p) t bytes src srcLen env.data env.written).emits h.rooted
    rw [hs] at hg
    refine hg.seals ?_
    rw [ho]
    cases o <;> rfl
  have hmem : ∀ m, .deliverIp m ∈ out ↔ o = some m := fun m => by
    rw [ho, List.mem_map]
    simp
  by_cases hacc : ∃ k plain, Accepts p t.noise bytes env.data k plain
  · obtain ⟨k, plain, hacc⟩ := hacc
    obtain ⟨hlt, hslot, hdata⟩ := h.data hacc src srcLen env.written
    rw [hdata] at hs
    set i := (t.noise.keypairs k).kpRemote with hi
    refine ⟨hseals, fun m => ?_, fun j => ?_⟩
    · have hdel := rxDecapped_delivers { t.ctx with noise := afterReceipt t.noise k } src srcLen
        env.written i plain m
      rw [hs] at hdel
      have hsrc : aipsLookupInnerSrc { t.ctx with noise := afterReceipt t.noise k } m
          = sourceOwner cfg m := lookupInnerSrc_eq h.stores m
      rw [hmem, hdel, hsrc]
      constructor
      · rintro ⟨hw, len, hle, hlen, hm, hown⟩
        exact ⟨hw, i, hlt, k, plain, len, hle, hacc, hslot, hlen, hm, hown⟩
      · rintro ⟨hw, i', -, k', plain', len, hle, hacc', hslot', hlen, hm, hown⟩
        -- a datagram opens under one keypair, to one text
        obtain ⟨rfl, rfl⟩ := hacc.unique hacc'
        rw [← h.rooted.exact.counted.slotRemote i' k hslot'] at hown
        exact ⟨hw, len, hle, hlen, hm, hown⟩
    · rcases rxDecapped_endpoint _ src srcLen env.written i plain hs j
        with hsame | ⟨rfl, h1, h2, h3, h4, h5⟩
      · exact .inl hsame
      · refine .inr ⟨h1, h2, h3, h4, k, plain, hacc, hslot, h5.imp_right fun hsome => ?_⟩
        obtain ⟨m, rfl⟩ := Option.isSome_iff_exists.mp hsome
        exact ⟨m, ho⟩
  · unfold PolarWG.rxHandleDatagram at hs
    rw [show t.ctx.noise = t.noise from rfl, decap_rejects hacc] at hs
    simp only [rxDecapped, Prod.mk.injEq] at hs
    obtain ⟨rfl, rfl⟩ := hs
    refine ⟨hseals, fun m => ?_, fun j => .inl ⟨rfl, rfl⟩⟩
    rw [hmem]
    simp only [reduceCtorEq, false_iff]
    rintro ⟨-, i, -, k, plain, -, -, hacc', -⟩
    exact hacc ⟨k, plain, hacc'⟩

/-! ## Events -/

theorem slice_zero (bytes : Bytes) (n : ℕ) : slice 0 n bytes = bytes.take n := by
  rw [slice, List.drop_zero]

/-- What an event does outside the client. -/
structure Outside (p : Prims) (cfg : ClientConfig) (t t' : Tunnel) (ev : Event)
    (out : List Upcall) : Prop where
  seals : Seals p t.noise t'.noise out
  delivers : ∀ m, .deliverIp m ∈ out ↔ ∃ bytes src srcLen env, ev = .rx bytes src srcLen env
    ∧ env.written ∧ ∃ i < cfg.nPeers, Brings p cfg t bytes env.data i m
  alone : ∀ m, .deliverIp m ∈ out → out = [.deliverIp m]
  roams : ∀ j, ((t'.peers j).endpoint = (t.peers j).endpoint
      ∧ (t'.peers j).endpointLen = (t.peers j).endpointLen)
    ∨ ∃ bytes src srcLen env, ev = .rx bytes src srcLen env ∧ 0 < srcLen
      ∧ srcLen ≤ sockaddrStorageLen ∧ (t'.peers j).endpoint = src
      ∧ (t'.peers j).endpointLen = srcLen
      ∧ (Speaks p t bytes env.data out j ∨ Answers p t bytes src srcLen env.answer out j)
  sends : ∀ data dst dstLen, .sendUdp data dst dstLen ∈ out →
    (∃ i < cfg.nPeers, dst = (t.peers i).endpoint ∧ dstLen = (t.peers i).endpointLen)
    ∨ ∃ bytes env, ev = .rx bytes dst dstLen env
      ∧ ∃ j < cfg.nPeers, Answers p t bytes dst dstLen env.answer out j

theorem Outbound.outside {ev : Event} {out : List Upcall} (h : Outbound p t t' out)
    (hn : t.nPeers = cfg.nPeers) (hev : ∀ bytes src srcLen env, ev = .rx bytes src srcLen env →
      le32dec (bytes.take 4) ≠ wgsPktData) : Outside p cfg t t' ev out where
  seals := h.seals
  delivers := fun m => by
    constructor
    · intro hm
      obtain ⟨i, -, data, hu⟩ := h.sent _ hm
      cases hu
    · rintro ⟨bytes, src, srcLen, env, rfl, -, i, -, k, plain, len, -, hacc, -⟩
      exact absurd (slice_zero bytes 4 ▸ hacc.type) (hev bytes src srcLen env rfl)
  alone := fun m hm => by
    obtain ⟨i, -, data, hu⟩ := h.sent _ hm
    cases hu
  roams := fun j => .inl ⟨h.endpoint j, h.endpointLen j⟩
  sends := fun data dst dstLen hm => by
    obtain ⟨i, hi, data', hu⟩ := h.sent _ hm
    simp only [Upcall.sendUdp.injEq] at hu
    exact .inl ⟨i, hn ▸ hi, hu.2.1, hu.2.2⟩

/-- Events of the loop, one by one. -/
theorem step_outside (h : Configured cfg t) {ev : Event} {out : List Upcall}
    (hs : step p t ev = some (t', out)) : Outside p cfg t t' ev out := by
  have hn := h.nPeers
  cases ev with
  | tick now env =>
    exact (tickFrom_outbound h.rooted (fun i hi => List.mem_range.mp hi) hs).outside hn
      (fun _ _ _ _ he => by cases he)
  | tx inner now env sent =>
    exact (tx_sent h (Option.some.inj hs)).1.outside hn (fun _ _ _ _ he => by cases he)
  | rx bytes src srcLen env =>
    have quiet : le32dec (bytes.take 4) ≠ wgsPktData → Outbound p t t' out →
        Outside p cfg t t' (.rx bytes src srcLen env) out := fun htype ho =>
      ho.outside hn fun _ _ _ _ he => by
        obtain ⟨rfl, -, -, -⟩ := Event.rx.inj he
        exact htype
    replace hs : rxHandleDatagram p t bytes src srcLen env = some (t', out) := hs
    unfold rxHandleDatagram at hs
    simp only [] at hs
    split at hs
    · next hlen =>
      simp only [Option.some.injEq, Prod.mk.injEq] at hs
      obtain ⟨rfl, rfl⟩ := hs
      refine ⟨.refl p _, fun m => ?_, by simp, fun j => .inl ⟨rfl, rfl⟩, by simp⟩
      simp only [List.not_mem_nil, false_iff]
      rintro ⟨bytes', src', srcLen', env', he, -, i, -, k, plain, len, -, hacc, -⟩
      obtain ⟨rfl, -, -, -⟩ := Event.rx.inj he
      have := hacc.length
      omega
    split at hs
    · simp only [Option.some.injEq, Prod.mk.injEq] at hs
      obtain ⟨rfl, rfl⟩ := hs
      obtain ⟨hseals, hdel, hroam⟩ := data_step h bytes src srcLen env Prod.mk.eta.symm rfl
      refine ⟨hseals, fun m => ?_, fun m hm => ?_, fun j => ?_, fun data dst dstLen hm => ?_⟩
      · rw [hdel]
        constructor
        · intro hm
          exact ⟨bytes, src, srcLen, env, rfl, hm⟩
        · rintro ⟨bytes', src', srcLen', env', he, hm⟩
          obtain ⟨rfl, rfl, rfl, rfl⟩ := Event.rx.inj he
          exact hm
      · rcases ho : (PolarWG.rxHandleDatagram p t.ctx bytes src srcLen env.data env.written).2
          with _ | m'
        · simp [ho] at hm
        · simpa [ho, eq_comm] using hm
      · rcases hroam j with hsame | ⟨h1, h2, h3, h4, h5⟩
        · exact .inl hsame
        · exact .inr ⟨bytes, src, srcLen, env, rfl, h1, h2, h3, h4, .inl h5⟩
      · obtain ⟨m, -, hu⟩ := List.mem_map.mp hm
        cases hu
    next htype =>
    split at hs
    · obtain ⟨⟨rc, t₁, o⟩, h1, h2⟩ := Option.map_eq_some_iff.mp hs
      simp only [Prod.mk.injEq] at h2
      obtain ⟨rfl, rfl⟩ := h2
      obtain ⟨hseals, hout, hroam⟩ := consumeInitiation_answers h h1
      have hnone : ∀ m, .deliverIp m ∉ o := fun m hm => by
        rcases hout with rfl | ⟨j, -, data, rfl, -⟩
        · cases hm
        · cases List.mem_singleton.mp hm
      refine ⟨hseals, fun m => ?_, fun m hm => absurd hm (hnone m), fun j => ?_,
        fun data dst dstLen hm => ?_⟩
      · constructor
        · exact fun hm => absurd hm (hnone m)
        · rintro ⟨bytes', src', srcLen', env', he, -, i, -, k, plain, len, -, hacc, -⟩
          obtain ⟨rfl, -, -, -⟩ := Event.rx.inj he
          exact absurd (slice_zero bytes 4 ▸ hacc.type) htype
      · rcases hroam j with hsame | ⟨h1, h2, h3, h4, h5⟩
        · exact .inl hsame
        · exact .inr ⟨bytes, src, srcLen, env, rfl, h1, h2, h3, h4, .inr h5⟩
      · rcases hout with rfl | ⟨j, hj, hans⟩
        · cases hm
        · obtain ⟨data', rfl, -⟩ := id hans
          obtain ⟨-, rfl, rfl⟩ := Upcall.sendUdp.inj (List.mem_singleton.mp hm)
          exact .inr ⟨bytes, env, rfl, j, hj, hans⟩
    split at hs
    · obtain ⟨rc, hs⟩ : ∃ rc, tunnelConsumeResponse p t bytes env.response env.jitter
          = (rc, t', out) :=
        ⟨_, Prod.ext rfl (Option.some.inj hs)⟩
      exact quiet htype (consumeResponse_outbound h.rooted hs)
    split at hs
    · simp only [Option.some.injEq, Prod.mk.injEq] at hs
      obtain ⟨rfl, rfl⟩ := hs
      exact quiet htype (rxCookie_outbound t bytes env.cookie)
    · simp only [Option.some.injEq, Prod.mk.injEq] at hs
      obtain ⟨rfl, rfl⟩ := hs
      exact quiet htype (.refl p t)

section Runs

variable {text : Text} {evs : List Event} {ev : Event} {out : List Upcall}

/-- The client hands on just the packets that its peers are configured to send, one for each datagram
that has one, authentic under a keypair of the peer's. -/
theorem client_delivery (hcfg : loadConfig p text = some cfg) (h : Started p cfg t₀)
    (hrun : Run (step p) (fun _ _ => True) t₀ evs t) (hs : step p t ev = some (t', out)) :
    (∀ i < cfg.nPeers, (t.noise.remotes i).rPublic = (cfg.peers i).pubkey)
      ∧ ∀ m, (.deliverIp m ∈ out → out = [.deliverIp m])
        ∧ (.deliverIp m ∈ out ↔ ∃ bytes src srcLen env, ev = .rx bytes src srcLen env
          ∧ env.written ∧ ∃ i < cfg.nPeers, Brings p cfg t bytes env.data i m) := by
  have hc := run_configured hcfg h hrun
  have ho := step_outside hc hs
  exact ⟨fun i => hc.pubkey, fun m => ⟨ho.alone m, ho.delivers m⟩⟩

/-- A peer's endpoint moves to the source of what the peer has authenticated, and nothing is sent
but to the endpoints and, in answer to a peer's initiation, to its source. -/
theorem client_roaming (hcfg : loadConfig p text = some cfg) (h : Started p cfg t₀)
    (hrun : Run (step p) (fun _ _ => True) t₀ evs t) (hs : step p t ev = some (t', out)) :
    (∀ j, ((t'.peers j).endpoint = (t.peers j).endpoint
        ∧ (t'.peers j).endpointLen = (t.peers j).endpointLen)
      ∨ ∃ bytes src srcLen env, ev = .rx bytes src srcLen env ∧ 0 < srcLen
        ∧ srcLen ≤ sockaddrStorageLen ∧ (t'.peers j).endpoint = src
        ∧ (t'.peers j).endpointLen = srcLen
        ∧ (Speaks p t bytes env.data out j ∨ Answers p t bytes src srcLen env.answer out j))
    ∧ ∀ data dst dstLen, .sendUdp data dst dstLen ∈ out →
      (∃ i < cfg.nPeers, dst = (t.peers i).endpoint ∧ dstLen = (t.peers i).endpointLen)
      ∨ ∃ bytes env, ev = .rx bytes dst dstLen env
        ∧ ∃ j < cfg.nPeers, Answers p t bytes dst dstLen env.answer out j := by
  have ho := step_outside (run_configured hcfg h hrun) hs
  exact ⟨ho.roams, ho.sends⟩

theorem exec_seals : ∀ {evs : List Event} {t t' : Tunnel} {outs : List (List Upcall)},
    Configured cfg t → Run.exec (step p) t evs = some (t', outs) →
    Configured cfg t' ∧ Seals p t.noise t'.noise outs.flatten
  | [], t, t', outs, hc, hs => by
    simp only [Run.exec, Option.some.injEq, Prod.mk.injEq] at hs
    obtain ⟨rfl, rfl⟩ := hs
    exact ⟨hc, .refl p _⟩
  | ev :: evs, t, t', outs, hc, hs => by
    simp only [Run.exec, Option.bind_eq_bind, Option.bind_eq_some_iff, Option.pure_def,
      Option.some.injEq, Prod.mk.injEq] at hs
    obtain ⟨⟨t₁, o₁⟩, h1, ⟨t₂, os⟩, h2, rfl, rfl⟩ := hs
    obtain ⟨hc', hseals⟩ := exec_seals (hc.goes (step_goes hc.rooted h1)) h2
    exact ⟨hc', (step_outside hc h1).seals.trans hseals⟩

/-- No counter of a keypair seals two of the datagrams that the client sends, and what it sends for a
packet goes to the peer that is configured for its destination. -/
theorem client_sends (hcfg : loadConfig p text = some cfg) (h : Started p cfg t₀)
    {outs : List (List Upcall)} (hrun : Run.exec (step p) t₀ evs = some (t, outs)) :
    (∃ log, List.Forall₂ (SealedWith p t.noise) log (dataSent outs.flatten) ∧ log.Nodup
      ∧ ∀ e ∈ log, e.2 < rejectAfterMessages)
    ∧ ∀ inner now env sent t' out, step p t (.tx inner now env sent) = some (t', out) → out ≠ [] →
      ∃ i < cfg.nPeers, ∃ k nonce, destinationOwner cfg inner = some i
        ∧ (t.noise.remotes i).rCurrent = some k
        ∧ out = [.sendUdp (sealedData p t'.noise k nonce (paddedText inner)) (t.peers i).endpoint
          (t.peers i).endpointLen] := by
  obtain ⟨hc, log, hemits, hdata⟩ := exec_seals (started_configured hcfg h) hrun
  refine ⟨⟨log, hdata, ?_, hemits.allowed⟩, fun inner now env sent t' out hs hne =>
    (tx_sent hc (Option.some.inj hs)).2 hne⟩
  refine hemits.increasing.imp fun hlt hab => ?_
  subst hab
  exact absurd (hlt rfl) (lt_irrefl _)

end Runs

/-- The packet that B has of A is the last thing B does. -/
theorem clientRun_last : ∃ text cfg t₀ evs t ev t', loadConfig specimen text = some cfg
    ∧ Started specimen cfg t₀ ∧ Run (step specimen) (fun _ _ => True) t₀ evs t
    ∧ step specimen t ev = some (t', [.deliverIp packet]) := by
  obtain ⟨cfg, t₀, evs, t, out, h, hout⟩ := clientRun_delivers
  have hstart := (clientRun_some h).1
  simp only [clientRun, Run.exec, Option.bind_eq_bind, Option.bind_eq_some_iff, Option.pure_def,
    Option.some.injEq, Prod.mk.injEq] at h
  obtain ⟨cfgA, -, a, -, cfg', hcfg, t₁, -, ⟨a₁, ini⟩, -, ⟨b₁, rsp⟩, -, ⟨a₂, o₁⟩, -, ⟨a₃, data⟩, -,
    ⟨t₂, o₂⟩, ⟨⟨t₃, o₃⟩, h1, ⟨t₄, o₄⟩, ⟨⟨t₅, o₅⟩, h2, ⟨t₆, o₆⟩, h3, h4⟩, h5⟩, rfl, rfl, rfl, rfl, rfl⟩ := h
  obtain ⟨rfl, rfl⟩ := h3
  obtain ⟨rfl, rfl⟩ := h4
  obtain ⟨rfl, rfl⟩ := h5
  simp only [List.getLast?_cons_cons, List.getLast?_singleton, Option.some.injEq] at hout
  exact ⟨_, _, _, _, _, _, _, hcfg, hstart, .cons trivial h1 (.nil _), hout ▸ h2⟩

theorem client_delivery_packet : ∃ cfg t bytes now i, Brings specimen cfg t bytes now i packet := by
  obtain ⟨text, cfg, t₀, evs, t, ev, t', hcfg, h, hrun, hs⟩ := clientRun_last
  obtain ⟨-, hall⟩ := client_delivery hcfg h hrun hs
  obtain ⟨bytes, src, srcLen, env, -, -, i, -, hb⟩ := (hall packet).2.mp List.mem_cons_self
  exact ⟨cfg, t, bytes, env.data, i, hb⟩

theorem client_roaming_packet : ∃ t ev t', step specimen t ev = some (t', [.deliverIp packet])
    ∧ ∀ j, ((t'.peers j).endpoint = (t.peers j).endpoint
        ∧ (t'.peers j).endpointLen = (t.peers j).endpointLen)
      ∨ ∃ bytes src srcLen env, ev = .rx bytes src srcLen env ∧ 0 < srcLen
        ∧ srcLen ≤ sockaddrStorageLen ∧ (t'.peers j).endpoint = src
        ∧ (t'.peers j).endpointLen = srcLen
        ∧ (Speaks specimen t bytes env.data [.deliverIp packet] j
          ∨ Answers specimen t bytes src srcLen env.answer [.deliverIp packet] j) := by
  obtain ⟨text, cfg, t₀, evs, t, ev, t', hcfg, h, hrun, hs⟩ := clientRun_last
  exact ⟨t, ev, t', hs, (client_roaming hcfg h hrun hs).1⟩

/-- The client A as it dials B, has the answer and sends a packet. -/
def callerRun : Option (ClientConfig × Tunnel × Tunnel × List (List Upcall)) := do
  let cfg ← loadConfig specimen (conf keyA keyB "Endpoint=b:51820\nAllowedIPs=10.0.0.2/32\n")
  let t₀ ← start specimen (names hostB) cfg
  let cfgB ← loadConfig specimen (conf keyB keyA "Endpoint=a:51820\nAllowedIPs=10.0.0.1/32\n")
  let b ← start specimen (names hostA) cfgB
  let (_, ini) ← step specimen t₀ (.tick 100 fun _ => turn 100 7)
  let (_, rsp) ← step specimen b (.rx (sent ini) hostA 16 (incoming 100 8))
  let (t, out) ← Run.exec (step specimen) t₀ [.tick 100 fun _ => turn 100 7,
    .rx (sent rsp) hostB 16 (incoming 100 9), .tx packet 101 ⟨instant 101, instant 101, true⟩ true]
  pure (cfg, t₀, t, out)

theorem callerRun_sends : ∃ text cfg t₀ evs t outs, loadConfig specimen text = some cfg
    ∧ Started specimen cfg t₀ ∧ Run.exec (step specimen) t₀ evs = some (t, outs)
    ∧ (dataSent outs.flatten).length = 1 := by
  have hrun : callerRun.any (fun x => (dataSent x.2.2.2.flatten).length = 1) = true := by
    decide +kernel
  obtain ⟨⟨cfg, t₀, t, outs⟩, h, hx⟩ := (Option.any_eq_true _ _).mp hrun
  simp only [callerRun, Option.bind_eq_bind, Option.bind_eq_some_iff, Option.pure_def,
    Option.some.injEq, Prod.mk.injEq] at h
  obtain ⟨cfg', hcfg, t₁, ht, cfgB, -, b, -, ⟨a₁, ini⟩, -, ⟨b₁, rsp⟩, -, ⟨t₂, o₂⟩, hexec, rfl, rfl,
    rfl, rfl⟩ := h
  exact ⟨_, _, _, _, _, _, hcfg, ⟨_, ht⟩, hexec, of_decide_eq_true hx⟩

theorem client_sends_packet : ∃ (t : Tunnel) (outs : List (List Upcall)) (log : List (ℕ × ℕ)),
    (dataSent outs.flatten).length = 1
      ∧ List.Forall₂ (SealedWith specimen t.noise) log (dataSent outs.flatten) ∧ log.Nodup := by
  obtain ⟨text, cfg, t₀, evs, t, outs, hcfg, h, hrun, hlen⟩ := callerRun_sends
  obtain ⟨⟨log, hall, hn, -⟩, -⟩ := client_sends hcfg h hrun
  exact ⟨t, outs, log, hlen, hall, hn⟩

end Tunnel

end PolarWG
