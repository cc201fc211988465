import PolarWG.Proofs.Delivery

/-!
# What only requests change

The keys, lists and intervals of the peers, and which slots there are, come from the configuration
text and from requests; no other call touches them. Whatever they hold was parsed from some text.
-/

namespace PolarWG

variable {p : Prims} {s s' s'' : WgSession}

/-- The part of a peer that is configured. -/
structure PeerConfig where
  active : Bool
  pubkey : Bytes
  psk : Bytes
  hasPsk : Bool
  allowed : List WgsAllowedCidr
  pkSec : ℤ

def WgsPeer.config (peer : WgsPeer) : PeerConfig where
  active := peer.active
  pubkey := peer.pubkey
  psk := peer.psk
  hasPsk := peer.hasPsk
  allowed := peer.allowed
  pkSec := peer.pkSec

/-- The same slots, configured the same. -/
structure SameConfig (s s' : WgSession) : Prop where
  nPeers : s'.nPeers = s.nPeers
  peers : ∀ i, (s'.peers i).config = (s.peers i).config

theorem SameConfig.refl (s : WgSession) : SameConfig s s := ⟨rfl, fun _ => rfl⟩

theorem SameConfig.trans (h : SameConfig s s') (h' : SameConfig s' s'') : SameConfig s s'' :=
  ⟨h'.nPeers.trans h.nPeers, fun i => (h'.peers i).trans (h.peers i)⟩

theorem sameConfig_modPeer {i : ℕ} {f : WgsPeer → WgsPeer}
    (hf : (f (s.peers i)).config = (s.peers i).config) : SameConfig s (s.modPeer i f) :=
  ⟨rfl, modPeer_of_fixed _ hf⟩

theorem sameConfig_setNoise (s : WgSession) (l : NoiseLocal) : SameConfig s (s.setNoise l) :=
  ⟨rfl, fun _ => rfl⟩

/-! ## The other calls -/

theorem encap_sameConfig {i : ℕ} {plain : Bytes} {env : EncapEnv} {rc : Int} {out : List Upcall}
    (hs : wgsEncap p s i plain env = (rc, s', out)) : SameConfig s s' := by
  unfold wgsEncap at hs
  simp only [] at hs
  generalize (if (plain.length + 15) / 16 * 16 = 0 then 16 else (plain.length + 15) / 16 * 16)
    = padded at hs
  repeat' split at hs
  all_goals
    simp only [Prod.mk.injEq] at hs
    rw [← hs.2.1]
  · exact .refl s
  · exact .refl s
  · exact .refl s
  · exact sameConfig_setNoise s _
  · exact sameConfig_setNoise s _
  · exact sameConfig_setNoise s _
  · exact sameConfig_setNoise s _
  · exact (sameConfig_modPeer rfl).trans (sameConfig_setNoise _ _)

theorem sendInitiation_sameConfig {i : ℕ} {env : InitiationEnv} {rc : Int} {out : List Upcall}
    (hs : wgsSendInitiation p s i env = some (rc, s', out)) : SameConfig s s' := by
  unfold wgsSendInitiation at hs
  simp only [] at hs
  split at hs
  · simp only [Option.some.injEq, Prod.mk.injEq] at hs
    exact hs.2.1 ▸ .refl s
  split at hs
  · simp only [Option.some.injEq, Prod.mk.injEq] at hs
    exact hs.2.1 ▸ .refl s
  obtain ⟨⟨l, res⟩, -, hs⟩ := Option.map_eq_some_iff.mp hs
  rcases res with _ | ⟨idx, msg⟩
  · simp only [Prod.mk.injEq] at hs
    exact hs.2.1 ▸ sameConfig_setNoise s l
  · simp only [Prod.mk.injEq] at hs
    rw [← hs.2.1]
    exact (sameConfig_modPeer rfl).trans (sameConfig_setNoise _ _)

theorem handleData_sameConfig {bytes : Bytes} {src : Sockaddr} {srcLen : ℕ} {now : Moment} {rc : Int}
    {out : List Upcall} (hs : wgsHandleData p s bytes src srcLen now = (rc, s', out)) :
    SameConfig s s' := by
  unfold wgsHandleData wgsDeliver at hs
  simp only [] at hs
  have once : ∀ (s : WgSession) (i : ℕ), SameConfig s (s.modPeer i fun peer =>
      { peer with endpoint := src, endpointLen := srcLen }) := fun s i => sameConfig_modPeer rfl
  repeat' split at hs
  all_goals
    simp only [Prod.mk.injEq] at hs
    rw [← hs.2.1]
  · exact .refl s
  · exact sameConfig_setNoise s _
  · exact sameConfig_setNoise s _
  · exact (sameConfig_setNoise s _).trans ((once _ _).trans (sameConfig_modPeer rfl))
  · exact (sameConfig_setNoise s _).trans (once _ _)
  · exact (sameConfig_setNoise s _).trans ((once _ _).trans (sameConfig_modPeer rfl))
  · exact (sameConfig_setNoise s _).trans ((once _ _).trans (sameConfig_modPeer rfl))

theorem handleInitiation_sameConfig {bytes : Bytes} {src : Sockaddr} {srcLen : ℕ}
    {env : ResponderEnv} {rc : Int} {out : List Upcall}
    (hs : wgsHandleInitiation p s bytes src srcLen env = some (rc, s', out)) : SameConfig s s' := by
  unfold wgsHandleInitiation at hs
  split at hs
  · simp only [Option.some.injEq, Prod.mk.injEq] at hs
    exact hs.2.1 ▸ .refl s
  split at hs
  · simp only [Option.some.injEq, Prod.mk.injEq] at hs
    exact hs.2.1 ▸ .refl s
  obtain ⟨⟨l, res⟩, -, hs⟩ := Option.map_eq_some_iff.mp hs
  rcases res with _ | r
  · simp only [Prod.mk.injEq] at hs
    exact hs.2.1 ▸ sameConfig_setNoise s l
  · simp only [] at hs
    split at hs
    all_goals
      simp only [Prod.mk.injEq] at hs
      rw [← hs.2.1]
    · exact sameConfig_setNoise s _
    · exact (sameConfig_modPeer rfl).trans (sameConfig_setNoise _ _)

theorem handleResponse_sameConfig {bytes : Bytes} {env : ConsumeEnv} {rc : Int} {out : List Upcall}
    (hs : wgsHandleResponse p s bytes env = (rc, s', out)) : SameConfig s s' := by
  unfold wgsHandleResponse at hs
  repeat' split at hs
  all_goals
    simp only [Prod.mk.injEq] at hs
    rw [← hs.2.1]
  · exact .refl s
  · exact .refl s
  · exact sameConfig_setNoise s _
  · exact sameConfig_setNoise s _
  · exact (sameConfig_modPeer rfl).trans (sameConfig_setNoise _ _)

theorem handleCookie_sameConfig {bytes : Bytes} {now : Moment} {rc : Int} {out : List Upcall}
    (hs : wgsHandleCookie p s bytes now = (rc, s', out)) : SameConfig s s' := by
  unfold wgsHandleCookie at hs
  repeat' split at hs
  all_goals
    simp only [Prod.mk.injEq] at hs
    rw [← hs.2.1]
  · exact .refl s
  · exact .refl s
  · exact sameConfig_modPeer rfl

theorem handleUdp_sameConfig {bytes : Bytes} {src : Sockaddr} {srcLen : ℕ} {env : UdpEnv} {rc : Int}
    {out : List Upcall} (hs : wgSessionHandleUdp p s bytes src srcLen env = some (rc, s', out)) :
    SameConfig s s' := by
  unfold wgSessionHandleUdp at hs
  simp only [] at hs
  split at hs
  · simp only [Option.some.injEq, Prod.mk.injEq] at hs
    exact hs.2.1 ▸ .refl s
  split at hs
  · exact handleData_sameConfig (Option.some.inj hs)
  split at hs
  · exact handleInitiation_sameConfig hs
  split at hs
  · exact handleResponse_sameConfig (Option.some.inj hs)
  split at hs
  · exact handleCookie_sameConfig (Option.some.inj hs)
  · simp only [Option.some.injEq, Prod.mk.injEq] at hs
    exact hs.2.1 ▸ .refl s

theorem tickPeer_sameConfig {env : TickEnv} {i : ℕ} {out : List Upcall}
    (hs : tickPeer p env s i = some (s', out)) : SameConfig s s' := by
  obtain ⟨-, rfl, -⟩ | ⟨-, s₁, s₂, o₁, o₂, o₃, h1, h2, h3, -⟩ := tickPeer_some hs
  · exact .refl s'
  have hsend : ∀ {s s' : WgSession} {out : List Upcall},
      (wgsSendInitiation p s i (env.initiation i)).map Prod.snd = some (s', out) →
      SameConfig s s' := fun h => by
    obtain ⟨⟨rc, s₁, o⟩, h, he⟩ := Option.map_eq_some_iff.mp h
    simp only [Prod.mk.injEq] at he
    exact he.1 ▸ sendInitiation_sameConfig h
  have hr₁ : SameConfig s s₁ := by
    unfold tickRetransmit at h1
    simp only [] at h1
    split at h1
    · split at h1
      · simp only [Option.some.injEq, Prod.mk.injEq] at h1
        rw [← h1.1]
        exact (sameConfig_modPeer rfl).trans (sameConfig_modPeer rfl)
      · exact (sameConfig_modPeer rfl).trans (hsend h1)
    · simp only [Option.some.injEq, Prod.mk.injEq] at h1
      exact h1.1 ▸ .refl s
  have hr₂ : SameConfig s₁ s₂ := by
    unfold tickRekey at h2
    simp only [] at h2
    split at h2
    · exact (sameConfig_modPeer rfl).trans (hsend h2)
    · simp only [Option.some.injEq, Prod.mk.injEq] at h2
      exact h2.1 ▸ .refl s₁
  have hr₃ : SameConfig s₂ s' := by
    unfold tickKeepalive at h3
    split at h3
    · obtain ⟨rc, h3⟩ : ∃ rc, wgsEncap p s₂ i [] (env.keepalive i) = (rc, s', o₃) :=
        ⟨_, Prod.ext rfl h3⟩
      exact encap_sameConfig h3
    · simp only [Prod.mk.injEq] at h3
      exact h3.1 ▸ .refl s₂
  exact (hr₁.trans hr₂).trans hr₃

theorem tickFrom_sameConfig {env : TickEnv} : ∀ {is : List ℕ} {s s' : WgSession}
    {out : List Upcall}, tickFrom p env is s = some (s', out) → SameConfig s s'
  | [], s, s', _, hs => by
    simp only [tickFrom, Option.some.injEq, Prod.mk.injEq] at hs
    exact hs.1 ▸ .refl s
  | i :: is, s, s', _, hs => by
    simp only [tickFrom, Option.bind_eq_bind, Option.bind_eq_some_iff, Option.pure_def,
      Option.some.injEq, Prod.mk.injEq] at hs
    obtain ⟨⟨s₁, o₁⟩, h1, ⟨s₂, o₂⟩, h2, rfl, -⟩ := hs
    exact (tickPeer_sameConfig h1).trans (tickFrom_sameConfig h2)

theorem sessionStep_sameConfig {call : Call} {out : List Upcall} (hc : ¬ call.isRequest)
    (hs : sessionStep p s call = some (s', out)) : SameConfig s s' := by
  cases call with
  | handleUdp bytes src srcLen env =>
    obtain ⟨⟨rc, s₁, o⟩, h1, h2⟩ := Option.map_eq_some_iff.mp hs
    simp only [Prod.mk.injEq] at h2
    exact h2.1 ▸ handleUdp_sameConfig h1
  | handleTun bytes env =>
    obtain ⟨rc, hs⟩ : ∃ rc, wgSessionHandleTun p s bytes env = (rc, s', out) :=
      ⟨_, Prod.ext rfl (Option.some.inj hs)⟩
    unfold wgSessionHandleTun at hs
    split at hs
    · simp only [Prod.mk.injEq] at hs
      exact hs.2.1 ▸ .refl s
    split at hs
    · simp only [Prod.mk.injEq] at hs
      exact hs.2.1 ▸ .refl s
    · exact encap_sameConfig hs
  | tick env => exact tickFrom_sameConfig hs
  | kick env =>
    obtain ⟨⟨rc, s₁, o⟩, h1, h2⟩ := Option.map_eq_some_iff.mp hs
    simp only [Prod.mk.injEq] at h2
    unfold wgSessionKick at h1
    split at h1
    · simp only [Option.some.injEq, Prod.mk.injEq] at h1
      exact h2.1 ▸ h1.2.1 ▸ .refl s
    · exact h2.1 ▸ sendInitiation_sameConfig h1
  | setUapi resolve text => exact absurd rfl hc

/-! ## What a peer's configuration can be -/

/-- Keys of the right length, no key for a peer without one, an interval that is an `int`, and a list
that fits, each entry parsed from some text. -/
structure PeerConfig.Sound (p : Prims) (c : PeerConfig) : Prop where
  pubkey : c.pubkey.length = 32
  psk : c.psk.length = 32
  keyless : ¬ c.hasPsk → c.psk = zeros 32
  interval : c.pkSec < 2 ^ 31
  room : c.allowed.length ≤ wgsMaxAllowedCidrs
  allowed : ∀ a ∈ c.allowed, ∃ t, parseCidr p t = some a

def Sound (p : Prims) (s : WgSession) : Prop := ∀ i, (s.peers i).config.Sound p

theorem sound_blank (p : Prims) : WgsPeer.blank.config.Sound p :=
  ⟨rfl, rfl, fun _ => rfl, by decide, Nat.zero_le _, fun _ h => absurd h List.not_mem_nil⟩

theorem Sound.modPeer (h : Sound p s) {i : ℕ} {f : WgsPeer → WgsPeer}
    (hf : (f (s.peers i)).config.Sound p) : Sound p (s.modPeer i f) := fun j => by
  rw [modPeer_peers]
  split
  · exact hf
  · exact h j

theorem Sound.same (h : Sound p s) (hs : SameConfig s s') : Sound p s' := fun i => by
  rw [hs.peers]
  exact h i

theorem atoi_lt (t : Text) : atoi t < 2 ^ 31 := Int.bmod_lt (by decide)

theorem decodeBase64_length {t : Text} {b : Bytes} (h : decodeBase64 t = some b) : b.length = 32 := by
  unfold decodeBase64 at h
  split at h
  · cases h
  obtain ⟨out, -, h⟩ := Option.bind_eq_some_iff.mp h
  split at h
  · cases h
  · next hl => exact Option.some.inj h ▸ not_not.mp hl

theorem hexPairs_length : ∀ {n : ℕ} {t : Text} {b : Bytes}, t.length = 2 * n →
    hexPairs t = some b → b.length = n
  | 0, t, b, hl, h => by
    rw [List.length_eq_zero_iff.mp hl] at h
    rcases h
    rfl
  | n + 1, [], b, hl, h => by simp at hl
  | n + 1, [c], b, hl, h => by
    simp at hl
    omega
  | n + 1, c :: d :: t, b, hl, h => by
    simp only [hexPairs, Option.bind_eq_bind, Option.bind_eq_some_iff, Option.pure_def,
      Option.some.injEq] at h
    obtain ⟨_, -, _, -, bs, hb, rfl⟩ := h
    have hl' : t.length = 2 * n := by
      simp only [List.length_cons] at hl
      omega
    rw [List.length_cons, hexPairs_length hl' hb]

theorem hexDecode_length {t : Text} {n : ℕ} {b : Bytes} (h : hexDecode t n = some b) :
    b.length = n := by
  unfold hexDecode at h
  split at h
  · cases h
  · next hl => exact hexPairs_length (not_not.mp hl) h

theorem parseList_sound {α : Type*} {parse : Text → Option α} {max : ℕ} : ∀ {ts : List Text}
    {acc as : List α}, parseList parse max ts acc = some as → acc.length ≤ max →
    (∀ a ∈ acc, ∃ t, parse t = some a) → as.length ≤ max ∧ ∀ a ∈ as, ∃ t, parse t = some a
  | [], acc, as, h, hl, ha => by
    obtain rfl := Option.some.inj h
    exact ⟨hl, ha⟩
  | t :: ts, acc, as, h, hl, ha => by
    unfold parseList at h
    simp only [] at h
    split at h
    · exact parseList_sound h hl ha
    split at h
    · cases h
    next hroom =>
    obtain ⟨a, hp, h⟩ := Option.bind_eq_some_iff.mp h
    refine parseList_sound h ?_ fun b hb => ?_
    · rw [List.length_append, List.length_singleton]
      omega
    · rcases List.mem_append.mp hb with hb | hb
      · exact ha b hb
      · exact ⟨_, (List.mem_singleton.mp hb) ▸ hp⟩

theorem configPeerKey_sound {key val : Text} {peer peer' : WgsPeer} (hp : peer.config.Sound p)
    (h : configPeerKey p key val peer = some peer') : peer'.config.Sound p := by
  obtain ⟨hpub, hpsk, hkey, hint, hroom, hall⟩ := hp
  unfold configPeerKey at h
  split at h
  · obtain ⟨b, hb, rfl⟩ := Option.map_eq_some_iff.mp h
    exact ⟨decodeBase64_length hb, hpsk, hkey, hint, hroom, hall⟩
  split at h
  · obtain ⟨⟨host, port⟩, -, rfl⟩ := Option.map_eq_some_iff.mp h
    exact ⟨hpub, hpsk, hkey, hint, hroom, hall⟩
  split at h
  · exact Option.some.inj h ▸ ⟨hpub, hpsk, hkey, atoi_lt val, hroom, hall⟩
  split at h
  · obtain ⟨b, hb, rfl⟩ := Option.map_eq_some_iff.mp h
    exact ⟨hpub, decodeBase64_length hb, fun hn => absurd rfl hn, hint, hroom, hall⟩
  split at h
  · unfold parseListCidrs at h
    split at h
    · cases h
    obtain ⟨as, has, rfl⟩ := Option.map_eq_some_iff.mp h
    obtain ⟨h1, h2⟩ := parseList_sound has hroom hall
    exact ⟨hpub, hpsk, hkey, hint, h1, h2⟩
  · exact Option.some.inj h ▸ ⟨hpub, hpsk, hkey, hint, hroom, hall⟩

theorem configKey_sound {c c' : ConfigState} {key val : Text} (hc : Sound p c.session)
    (h : configKey p c key val = some c') : Sound p c'.session := by
  unfold configKey at h
  simp only [] at h
  split at h
  · obtain ⟨_, -, rfl⟩ := Option.map_eq_some_iff.mp h
    exact hc
  split at h
  · split at h
    · cases h
    · exact Option.some.inj h ▸ hc
  split at h
  · obtain ⟨_, -, rfl⟩ := Option.map_eq_some_iff.mp h
    exact hc
  split at h
  · next i _ _ =>
    obtain ⟨peer, hp, rfl⟩ := Option.map_eq_some_iff.mp h
    have hpeer := configPeerKey_sound (hc i) hp
    exact Sound.modPeer (f := fun _ => peer) hc hpeer
  · exact Option.some.inj h ▸ hc

theorem configLine_sound {c c' : ConfigState} {line : Text} (hc : Sound p c.session)
    (h : configLine p c line = some c') : Sound p c'.session := by
  unfold configLine at h
  split at h
  · exact Option.some.inj h ▸ hc
  simp only [] at h
  split at h
  · exact Option.some.inj h ▸ hc
  split at h
  · split at h
    · split at h
      · cases h
      · exact Option.some.inj h ▸ hc
    · exact Option.some.inj h ▸ hc
  split at h
  · exact Option.some.inj h ▸ hc
  · exact configKey_sound hc h

theorem createPeer_config {resolve : Resolver} {i : ℕ} (h : createPeer p resolve s i = some s') :
    ∀ j, (s'.peers j).config = { (s.peers j).config with
      active := if j = i then true else (s.peers j).active } := by
  unfold createPeer at h
  simp only [] at h
  split at h
  · cases h
  simp only [Option.some.injEq] at h
  subst h
  intro j
  rw [setNoise_peers, modPeer_peers]
  split
  · next e =>
    subst e
    repeat' split
    all_goals rfl
  · rfl

theorem createPeer_sound {resolve : Resolver} {i : ℕ} (hs : Sound p s)
    (h : createPeer p resolve s i = some s') : Sound p s' := fun j => by
  rw [createPeer_config h]
  exact ⟨(hs j).pubkey, (hs j).psk, (hs j).keyless, (hs j).interval, (hs j).room, (hs j).allowed⟩

theorem created_sound (h : Created p s) : Sound p s := by
  obtain ⟨resolve, text, h⟩ := h
  obtain ⟨s₀, s₁, hparse, hs₁, -, hpeers, -⟩ := created_slots h
  have h₀ : Sound p s₀ := by
    unfold parseConfigText at hparse
    obtain ⟨c, hc, hparse⟩ := Option.bind_eq_some_iff.mp hparse
    have := foldlM_inv (fun c : ConfigState => Sound p c.session)
      (fun _ _ _ => configLine_sound) (fun _ => sound_blank p) hc
    repeat' split at hparse
    all_goals simp only [Option.some.injEq, reduceCtorEq] at hparse
    exact hparse ▸ this
  have h₁ : Sound p s₁ := by
    refine foldlM_inv (Sound p) (fun _ _ _ => createPeer_sound) ?_ hs₁
    exact h₀
  intro i
  rw [hpeers]
  exact h₁ i

theorem peerInitRuntime_peers (s : WgSession) (i j : ℕ) (pk : Bytes) :
    ((peerInitRuntime p s i pk).1.peers j).config
      = if j = i then { WgsPeer.blank.config with pubkey := pk, active := true }
        else (s.peers j).config := by
  unfold peerInitRuntime
  simp only []
  split <;>
  · rw [setNoise_peers, modPeer_peers]
    split <;> rfl

theorem allocPeerSlot_outside {o : Option ℕ} (hs : allocPeerSlot s = (s', o)) :
    s'.peers = s.peers ∧ s'.noise = s.noise := by
  unfold allocPeerSlot at hs
  repeat' split at hs
  all_goals
    simp only [Prod.mk.injEq] at hs
    rw [← hs.1]
    exact ⟨rfl, rfl⟩

theorem setPublicKey_sound {val : Text} (hs : Sound p s) :
    Sound p (setPublicKey p s val).session := by
  unfold setPublicKey
  split
  · exact hs
  next pk hpk =>
  split
  · exact hs
  split
  · next h1 =>
    intro j
    show (_ : WgsPeer).config.Sound p
    rw [SetResult.session, (allocPeerSlot_outside h1).1]
    exact hs j
  next s₁ i h1 =>
  have h2 : Sound p (peerInitRuntime p s₁ i pk).1 := fun j => by
    rw [peerInitRuntime_peers]
    split
    · exact ⟨hexDecode_length hpk, rfl, fun _ => rfl, (sound_blank p).interval, Nat.zero_le _,
        fun _ h => absurd h List.not_mem_nil⟩
    · rw [(allocPeerSlot_outside h1).1]
      exact hs j
  split
  · next h3 =>
    rw [h3] at h2
    exact h2
  · next h3 =>
    rw [h3] at h2
    exact h2

theorem setPeerKey_sound {resolve : Resolver} {i : ℕ} {key val : Text} (hs : Sound p s) :
    Sound p (setPeerKey p resolve s i key val).session := by
  obtain ⟨hpub, hpsk, hkey, hint, hroom, hall⟩ := hs i
  unfold setPeerKey
  split
  · split
    · simp only [SetResult.session, peerTombstone]
      split <;> exact Sound.modPeer (f := fun _ => .blank) hs (sound_blank p)
    · exact hs
  split
  · split
    · exact hs
    next psk h =>
    have hoff : ¬ (decide (¬ psk.all (· = 0))) = true → psk = zeros 32 := fun hn => by
      have hz : ∀ b ∈ psk, b = 0 := by simpa using hn
      rw [zeros, ← hexDecode_length h]
      exact List.eq_replicate_of_mem hz
    have h1 : Sound p (s.modPeer i fun peer =>
        { peer with psk, hasPsk := ¬ psk.all (· = 0) }) :=
      Sound.modPeer hs ⟨hpub, hexDecode_length h, hoff, hint, hroom, hall⟩
    simp only []
    split <;> exact h1
  split
  · split
    · exact hs
    · next peer h =>
      simp only [SetResult.session]
      refine Sound.modPeer hs ?_
      unfold peerSetEndpointStr at h
      simp only [Option.bind_eq_bind, Option.bind_eq_some_iff, Option.pure_def,
        Option.some.injEq] at h
      obtain ⟨⟨host, port⟩, -, ⟨addr, len⟩, -, rfl⟩ := h
      exact ⟨hpub, hpsk, hkey, hint, hroom, hall⟩
  split
  · simp only []
    split
    · exact hs
    · simp only [SetResult.session]
      exact Sound.modPeer hs ⟨hpub, hpsk, hkey, atoi_lt val, hroom, hall⟩
  split
  · split
    · simp only [SetResult.session]
      exact Sound.modPeer hs ⟨hpub, hpsk, hkey, hint, Nat.zero_le _,
        fun _ h => absurd h List.not_mem_nil⟩
    · exact hs
  split
  · split
    · exact hs
    next hlt =>
    split
    · exact hs
    next c hc =>
    simp only [SetResult.session]
    refine Sound.modPeer hs ⟨hpub, hpsk, hkey, hint, ?_, fun a ha => ?_⟩
    · show (_ ++ [c]).length ≤ _
      rw [List.length_append, List.length_singleton]
      omega
    · rcases List.mem_append.mp ha with ha | ha
      · exact hall a ha
      · exact ⟨val, (List.mem_singleton.mp ha) ▸ hc⟩
  · exact hs

theorem setLine_sound (resolve : Resolver) (cur : Option ℕ) (line : Text) (hs : Sound p s) :
    Sound p (setLine p resolve s cur line).session := by
  unfold setLine
  split
  · exact hs
  unfold setKey
  split
  · exact hs
  split
  · exact hs
  split
  · simp only []
    split <;> exact hs
  split
  · exact setPublicKey_sound hs
  split
  · exact hs
  · exact setPeerKey_sound hs

theorem setLines_sound (resolve : Resolver) : ∀ (lines : List Text) {s : WgSession}
    (cur : Option ℕ), Sound p s → Sound p (setLines p resolve lines s cur).2
  | [], _, _, hs => hs
  | line :: rest, s, cur, hs => by
    have h := setLine_sound resolve cur line hs
    unfold setLines
    split
    · next h1 =>
      rw [h1] at h
      exact h
    · next h1 =>
      rw [h1] at h
      exact setLines_sound resolve rest _ h

theorem setUapi_sound {resolve : Resolver} {text : Text} (hs : Sound p s) :
    Sound p (wgSessionSetUapi p resolve s text).2 := fun i => by
  have h := setLines_sound resolve (strtok '\n' (cstr text)) none hs i
  show ((rebuildAips _).peers i).config.Sound p
  rwa [(rebuildAips_outside _).2.1]

theorem sessionStep_sound (hs : Sound p s) {call : Call} {out : List Upcall}
    (hst : sessionStep p s call = some (s', out)) : Sound p s' := by
  by_cases hc : call.isRequest
  · cases call with
    | setUapi resolve text =>
      simp only [sessionStep, Option.some.injEq, Prod.mk.injEq] at hst
      exact hst.1 ▸ setUapi_sound hs
    | _ => cases hc
  · exact hs.same (sessionStep_sameConfig hc hst)

/-- Whatever the calls, what the peers are configured with was parsed from some text. -/
theorem reachable_sound {ok : WgSession → Call → Prop} (h : ReachableIf p ok s) : Sound p s := by
  obtain ⟨s₀, calls, h0, hrun⟩ := h
  exact hrun.invariant (Sound p) (created_sound h0) fun _ _ _ _ hs _ hst => sessionStep_sound hs hst

/-! ## Entries -/

/-- What `parseCidr` makes sure of. -/
structure WgsAllowedCidr.Formed (c : WgsAllowedCidr) : Prop where
  addr : c.addr.length = 16
  v4 : c.family = afInet → c.prefixLen ≤ 32
  v6 : c.family ≠ afInet → c.family = afInet6 ∧ c.prefixLen ≤ 128

theorem parseCidr_formed {t : Text} {c : WgsAllowedCidr} (h : parseCidr p t = some c) :
    c.Formed := by
  unfold parseCidr at h
  split at h
  · cases h
  simp only [] at h
  have hlen : ∀ a : Bytes, ((a ++ zeros 16).take 16).length = 16 := fun a => by simp [zeros]
  split at h
  · split_ifs at h with h1 h2 h2
    all_goals
      obtain rfl := Option.some.inj h
      refine ⟨hlen _, fun _ => ?_, fun hf => absurd rfl hf⟩
      simp only []
      omega
  · split at h
    · split_ifs at h with h1 h2 h2
      all_goals
        obtain rfl := Option.some.inj h
        refine ⟨hlen _, fun hf => ?_, fun _ => ⟨rfl, ?_⟩⟩
        · simp [afInet, afInet6] at hf
        · simp only []
          omega
    · cases h

theorem Sound.formed (h : Sound p s) (i : ℕ) : ∀ c ∈ (s.peers i).allowed, c.Formed := fun c hc => by
  obtain ⟨t, ht⟩ := (h i).allowed c hc
  exact parseCidr_formed ht

end PolarWG
