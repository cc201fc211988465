import PolarWG.Tunnel
import PolarWG.Proofs.NoiseSteps

/-!
# Runs of the client

Every event of the loop is steps of the Noise layer, and none changes what was configured. So in
every state of a run the references are exactly the ones there are, and the index table leads to
nothing that has been freed.
-/

namespace PolarWG

namespace Tunnel

open Specimen

variable {p : Prims} {t t' t'' : Tunnel}

/-! ## Updates -/

theorem modPeer_peers (t : Tunnel) (i j : ℕ) (f : TunnelPeer → TunnelPeer) :
    (t.modPeer i f).peers j = if j = i then f (t.peers i) else t.peers j := by
  simp only [modPeer, Function.update_apply]

theorem modPeer_of_fixed {i : ℕ} {f : TunnelPeer → TunnelPeer} {α : Type*} (g : TunnelPeer → α)
    (h : g (f (t.peers i)) = g (t.peers i)) (j : ℕ) : g ((t.modPeer i f).peers j) = g (t.peers j) := by
  rw [modPeer_peers]
  split
  · next e => rw [h, e]
  · rfl

theorem modPeer_id (t : Tunnel) (i : ℕ) : (t.modPeer i fun peer => peer) = t := by
  rw [modPeer, Function.update_eq_self]

@[simp] theorem modPeer_noise (t : Tunnel) (i : ℕ) (f : TunnelPeer → TunnelPeer) :
    (t.modPeer i f).noise = t.noise := rfl

@[simp] theorem setNoise_noise (t : Tunnel) (l : NoiseLocal) : (t.setNoise l).noise = l := rfl

@[simp] theorem setNoise_peers (t : Tunnel) (l : NoiseLocal) : (t.setNoise l).peers = t.peers := rfl

/-! ## What the loop leaves alone -/

/-- What a peer is configured with. -/
structure Setting where
  pubkey : Bytes
  hasEndpoint : Bool
  allowed : List WgsAllowedCidr
  pkSec : ℤ
  remote : ℕ

end Tunnel

def TunnelPeer.setting (peer : TunnelPeer) : Tunnel.Setting :=
  ⟨peer.pubkey, peer.hasEndpoint, peer.allowed, peer.pkSec, peer.remote⟩

namespace Tunnel

open Specimen

variable {p : Prims} {t t' t'' : Tunnel}

/-- By steps of the Noise layer, with nothing configured anew. -/
structure Goes (p : Prims) (t t' : Tunnel) : Prop where
  noise : Relation.ReflTransGen (NoiseStep p) t.noise t'.noise
  checker : t'.cookieChecker = t.cookieChecker
  v4 : t'.aipsV4 = t.aipsV4
  v6 : t'.aipsV6 = t.aipsV6
  nPeers : t'.nPeers = t.nPeers
  setting : ∀ i, (t'.peers i).setting = (t.peers i).setting

theorem Goes.refl (p : Prims) (t : Tunnel) : Goes p t t := ⟨.refl, rfl, rfl, rfl, rfl, fun _ => rfl⟩

theorem Goes.trans (h : Goes p t t') (h' : Goes p t' t'') : Goes p t t'' where
  noise := h.noise.trans h'.noise
  checker := h'.checker.trans h.checker
  v4 := h'.v4.trans h.v4
  v6 := h'.v6.trans h.v6
  nPeers := h'.nPeers.trans h.nPeers
  setting := fun i => (h'.setting i).trans (h.setting i)

theorem goes_modPeer {i : ℕ} {f : TunnelPeer → TunnelPeer}
    (hf : (f (t.peers i)).setting = (t.peers i).setting) : Goes p t (t.modPeer i f) :=
  ⟨.refl, rfl, rfl, rfl, rfl, modPeer_of_fixed _ hf⟩

theorem goes_setNoise {l : NoiseLocal} (h : Relation.ReflTransGen (NoiseStep p) t.noise l) :
    Goes p t (t.setNoise l) := ⟨h, rfl, rfl, rfl, rfl, fun _ => rfl⟩

theorem goes_noise {l : NoiseLocal} (h : NoiseStep p t.noise l) : Goes p t (t.setNoise l) :=
  goes_setNoise (.single h)

/-- The remotes there are belong to the first `n` peers, each pointing back at its peer. -/
structure RootedTo (n : ℕ) (t : Tunnel) : Prop where
  exact : Exact t.noise
  nRemotes : t.noise.nRemotes = n
  remote : ∀ i < n, (t.peers i).remote = i
  inserted : ∀ r < n, (t.noise.remotes r).rEntryInserted
  arg : ∀ r < n, (t.noise.remotes r).rArg = r
  pub : ∀ r < n, (t.noise.remotes r).rPublic = (t.peers r).pubkey

abbrev Rooted (t : Tunnel) : Prop := RootedTo t.nPeers t

theorem RootedTo.goes (h : Rooted t) (hg : Goes p t t') : Rooted t' := by
  obtain ⟨hexact, hroster⟩ := noiseSteps_exact h.exact hg.noise
  have hn : t'.noise.nRemotes = t.noise.nRemotes := hroster.nRemotes
  have harg : ∀ r, (t'.noise.remotes r).rArg = (t.noise.remotes r).rArg := hroster.arg
  have hpub : ∀ r, (t'.noise.remotes r).rPublic = (t.noise.remotes r).rPublic := hroster.pub
  have hins : ∀ r, (t'.noise.remotes r).rEntryInserted = (t.noise.remotes r).rEntryInserted :=
    hroster.inserted
  have hrem : ∀ i, (t'.peers i).remote = (t.peers i).remote := fun i =>
    congrArg Setting.remote (hg.setting i)
  have hkey : ∀ i, (t'.peers i).pubkey = (t.peers i).pubkey := fun i =>
    congrArg Setting.pubkey (hg.setting i)
  refine ⟨hexact, by rw [hn, h.nRemotes, hg.nPeers], ?_, ?_, ?_, ?_⟩ <;> intro r hr <;>
    rw [hg.nPeers] at hr
  · rw [hrem, h.remote r hr]
  · rw [hins, h.inserted r hr]
  · rw [harg, h.arg r hr]
  · rw [hpub, hkey, h.pub r hr]

/-! ## Data -/

/-- The Noise layer's part of an encapsulation. -/
theorem wgEncap_step {l l' : NoiseLocal} {r endpointLen : ℕ} {plain : Bytes} {env : EncapEnv}
    {sent : Bool} {rc : Int} {out : Option Bytes}
    (hs : wgEncap p l r endpointLen plain env sent = (rc, l', out)) :
    Relation.ReflTransGen (NoiseStep p) l l' := by
  unfold wgEncap at hs
  simp only [] at hs
  generalize (if (plain.length + 15) / 16 * 16 = 0 then 16 else (plain.length + 15) / 16 * 16)
    = padded at hs
  split at hs
  · simp only [Prod.mk.injEq] at hs
    exact hs.2.1 ▸ .refl
  split at hs
  · simp only [Prod.mk.injEq] at hs
    exact hs.2.1 ▸ .refl
  split at hs
  · next l₁ hl =>
    simp only [Prod.mk.injEq] at hs
    exact hs.2.1 ▸ .single (.idle hl)
  next l₁ k hl =>
  split at hs
  · next l₂ hn =>
    simp only [Prod.mk.injEq] at hs
    exact hs.2.1 ▸ .single (.send hl hn)
  next l₂ nonce hn =>
  have hput : noiseKeypairPut l₂ k = l' := by
    repeat' split at hs
    all_goals
      simp only [Prod.mk.injEq] at hs
      exact hs.2.1
  exact hput ▸ .single (.send hl hn)

theorem encap_goes {i : ℕ} {plain : Bytes} {env : EncapEnv} {sent : Bool} {rc : Int}
    {out : List Upcall} (hs : encap p t i plain env sent = (rc, t', out)) : Goes p t t' := by
  simp only [encap, Prod.mk.injEq] at hs
  obtain ⟨-, rfl, -⟩ := hs
  exact goes_setNoise (wgEncap_step rfl)

/-- The datagram is a data message that is authentic under keypair `k`, with `m` in it. -/
structure Accepts (p : Prims) (l : NoiseLocal) (bytes : Bytes) (now : Moment) (k : ℕ) (m : Bytes) :
    Prop where
  length : 32 ≤ bytes.length
  type : le32dec (slice 0 4 bytes) = wgsPktData
  lookup : (noiseKeypairLookup l (le32dec (slice 4 4 bytes))).2 = some k
  decrypt : noiseKeypairDecrypt p l k (leDec (slice 8 8 bytes)) (bytes.drop 16)
    now.getsbinuptime = some m

theorem Accepts.mem {l : NoiseLocal} {bytes : Bytes} {now : Moment} {k : ℕ} {m : Bytes}
    (h : Accepts p l bytes now k m) : .keypair k ∈ l.lIndexHash :=
  (keypairLookup_some (Prod.ext rfl h.lookup)).1

theorem Accepts.unique {l : NoiseLocal} {bytes : Bytes} {now : Moment} {k k' : ℕ} {m m' : Bytes}
    (h : Accepts p l bytes now k m) (h' : Accepts p l bytes now k' m') : k = k' ∧ m = m' := by
  obtain rfl : k = k' := Option.some.inj (h.lookup.symm.trans h'.lookup)
  exact ⟨rfl, Option.some.inj (h.decrypt.symm.trans h'.decrypt)⟩

theorem decap_accepts {l : NoiseLocal} {bytes : Bytes} {now : Moment} {k : ℕ} {m : Bytes}
    (h : Accepts p l bytes now k m) :
    wgDecap p l bytes wgBufMax now = (afterReceipt l k, decapped (slotOf l k) m) := by
  obtain ⟨hlen, htype, hlook, hdec⟩ := h
  obtain ⟨l₁, hpair⟩ : ∃ l₁, noiseKeypairLookup l (le32dec (slice 4 4 bytes)) = (l₁, some k) :=
    ⟨_, Prod.ext rfl hlook⟩
  obtain ⟨-, -, -, rfl⟩ := keypairLookup_some hpair
  unfold wgDecap decapped
  rw [if_neg (by omega), if_neg (by simp [htype]), hpair]
  simp only [decrypt_ref, hdec, noiseKeypairRemote, put_ref]
  rw [← slotOf_receivedWith]
  simp only [slotOf, noiseRemoteRef, modRemote_remotes, if_true]
  split
  · rfl
  · rcases innerIpLen m with _ | ilen
    · rfl
    · simp only []
      split <;> rfl

theorem decap_rejects {l : NoiseLocal} {bytes : Bytes} {now : Moment}
    (h : ¬ ∃ k m, Accepts p l bytes now k m) (outCap : ℕ) :
    wgDecap p l bytes outCap now = (l, none) := by
  unfold wgDecap
  split
  · rfl
  next hlen =>
  split
  · rfl
  next htype =>
  split
  · next l₁ hl => rw [keypairLookup_none hl]
  next l₁ k hl =>
  obtain ⟨-, -, hc, rfl⟩ := keypairLookup_some hl
  simp only [decrypt_ref]
  split
  · rw [keypairPut_ref hc]
  · next m hm => exact absurd ⟨k, m, by omega, not_not.mp htype, by rw [hl], hm⟩ h

/-- What is done with a packet once it is open changes one peer's data fields at most. -/
theorem rxDecapped_noise (c : TunnelCtx) (src : Sockaddr) (srcLen : ℕ) (written : Bool)
    (packet : Option (ℕ × Bytes)) : (rxDecapped c src srcLen written packet).1.noise = c.noise := by
  unfold rxDecapped
  repeat' split
  all_goals rfl

theorem data_goes (t : Tunnel) (bytes : Bytes) (src : Sockaddr) (srcLen : ℕ) (now : Moment)
    (written : Bool) :
    Goes p t (t.setCtx (PolarWG.rxHandleDatagram p t.ctx bytes src srcLen now written).1) := by
  refine ⟨?_, rfl, rfl, rfl, rfl, fun _ => rfl⟩
  unfold PolarWG.rxHandleDatagram
  simp only [setCtx, rxDecapped_noise]
  by_cases hacc : ∃ k m, Accepts p t.noise bytes now k m
  · obtain ⟨k, m, hacc⟩ := hacc
    rw [show t.ctx.noise = t.noise from rfl, decap_accepts hacc]
    exact .single (.receive hacc.mem)
  · rw [show t.ctx.noise = t.noise from rfl, decap_rejects hacc]

/-! ## Handshakes -/

theorem sendInitiation_goes (h : Rooted t) {i : ℕ} (hi : i < t.nPeers) {env : DialEnv}
    {idx : Option UInt32} {out : List Upcall}
    (hs : sendInitiation p t i env = some (t', idx, out)) : Goes p t t' := by
  unfold sendInitiation at hs
  split at hs
  · simp only [Option.some.injEq, Prod.mk.injEq] at hs
    exact hs.1 ▸ .refl p t
  obtain ⟨⟨l, res⟩, hc, hs⟩ := Option.map_eq_some_iff.mp hs
  have hins : (t.noise.remotes (t.peers i).remote).rEntryInserted := by
    rw [h.remote i hi]
    exact h.inserted i hi
  have hstep : NoiseStep p t.noise l := .dial hins hc
  rcases res with _ | ⟨sIdx, msg⟩
  · simp only [Prod.mk.injEq] at hs
    exact hs.1 ▸ goes_noise hstep
  · have hgoes : ∀ cookie, Goes p t ((t.modPeer i fun peer => { peer with cookie }).setNoise l) :=
      fun cookie => (goes_modPeer (t := t) (p := p) (i := i)
        (f := fun peer => { peer with cookie }) rfl).trans (goes_noise hstep)
    simp only [] at hs
    split at hs <;> simp only [Prod.mk.injEq] at hs <;> exact hs.1 ▸ hgoes _

theorem tunnelSendInitiation_goes (h : Rooted t) {i : ℕ} (hi : i < t.nPeers) {now : ℤ}
    {env : DialEnv} {rc : Int} {out : List Upcall}
    (hs : tunnelSendInitiation p t i now env = some (rc, t', out)) : Goes p t t' := by
  obtain ⟨⟨t₁, idx, o⟩, h1, h2⟩ := Option.map_eq_some_iff.mp hs
  have hgoes := sendInitiation_goes h hi h1
  rcases idx with _ | sIdx
  · simp only [Prod.mk.injEq] at h2
    exact h2.2.1 ▸ hgoes
  · simp only [Prod.mk.injEq] at h2
    exact h2.2.1 ▸ hgoes.trans (goes_modPeer rfl)

theorem consumeInitiation_goes {bytes : Bytes} {src : Sockaddr} {srcLen : ℕ} {env : AnswerEnv}
    {rc : Int} {out : List Upcall}
    (hs : tunnelConsumeInitiation p t bytes src srcLen env = some (rc, t', out)) : Goes p t t' := by
  unfold tunnelConsumeInitiation at hs
  split at hs
  · simp only [Option.some.injEq, Prod.mk.injEq] at hs
    exact hs.2.1 ▸ .refl p t
  split at hs
  · simp only [Option.some.injEq, Prod.mk.injEq] at hs
    exact hs.2.1 ▸ .refl p t
  obtain ⟨⟨l, res⟩, hc, hs⟩ := Option.map_eq_some_iff.mp hs
  rcases res with _ | r
  · simp only [Prod.mk.injEq] at hs
    exact hs.2.1 ▸ goes_noise (.refuse hc)
  rcases hn : noiseCreateResponse p l r env.responder with ⟨l₁, _ | ⟨sIdx, rIdx, msg⟩⟩
  · simp only [hn, Prod.mk.injEq] at hs
    exact hs.2.1 ▸ goes_noise (.answer hc hn)
  simp only [hn] at hs
  have hgoes : ∀ i cookie, Goes p t ((t.modPeer i fun peer => { peer with cookie }).setNoise
      (noiseRemotePut l₁ r)) := fun i cookie =>
    (goes_modPeer (t := t) (p := p) (i := i) (f := fun peer => { peer with cookie }) rfl).trans
      (goes_noise (.answer hc hn))
  split at hs
  · simp only [Prod.mk.injEq] at hs
    exact hs.2.1 ▸ hgoes _ _
  · simp only [Prod.mk.injEq] at hs
    exact hs.2.1 ▸ (hgoes _ _).trans (goes_modPeer rfl)

theorem consumeResponse_goes {bytes : Bytes} {env : ConsumeEnv} {jitter : ℤ} {rc : Int}
    {out : List Upcall} (hs : tunnelConsumeResponse p t bytes env jitter = (rc, t', out)) :
    Goes p t t' := by
  unfold tunnelConsumeResponse at hs
  split at hs
  · simp only [Prod.mk.injEq] at hs
    exact hs.2.1 ▸ .refl p t
  split at hs
  · simp only [Prod.mk.injEq] at hs
    exact hs.2.1 ▸ .refl p t
  next i hfind =>
  split at hs
  · next l hc =>
    simp only [Prod.mk.injEq] at hs
    rw [← hs.2.1, consumeResponse_none hc]
    exact .refl p t
  next l r hc =>
  split at hs
  · simp only [Prod.mk.injEq] at hs
    exact hs.2.1 ▸ goes_noise (.complete hc)
  · simp only [Prod.mk.injEq] at hs
    rw [← hs.2.1]
    exact (goes_modPeer (t := t) (p := p) (i := i) (f := fun peer =>
      peerStampKeypair { peer with hsPending := false, hsAttempts := 0 } env.finish.time
        jitter) rfl).trans (goes_noise (.complete hc))

/-! ## Ticks -/

theorem tickRetransmit_goes (h : Rooted t) {i : ℕ} (hi : i < t.nPeers) {now : ℤ} {env : DialEnv}
    {out : List Upcall} (hs : tickRetransmit p t i now env = some (t', out)) : Goes p t t' := by
  unfold tickRetransmit at hs
  split at hs
  · have hstamp : Goes p t (t.modPeer i fun peer => { peer with hsSentAt := now }) :=
      goes_modPeer rfl
    simp only [] at hs
    split at hs
    · simp only [Option.some.injEq, Prod.mk.injEq] at hs
      exact hs.1 ▸ hstamp.trans (goes_modPeer rfl)
    · obtain ⟨⟨rc, t₁, o⟩, h1, h2⟩ := Option.map_eq_some_iff.mp hs
      simp only [Prod.mk.injEq] at h2
      exact h2.1 ▸ hstamp.trans (tunnelSendInitiation_goes (h.goes hstamp) hi h1)
  · simp only [Option.some.injEq, Prod.mk.injEq] at hs
    exact hs.1 ▸ .refl p t

theorem tickInitiate_goes (h : Rooted t) {i : ℕ} (hi : i < t.nPeers) {now : ℤ} {env : DialEnv}
    {out : List Upcall} (hs : tickInitiate p t i now env = some (t', out)) : Goes p t t' := by
  unfold tickInitiate at hs
  split at hs
  · split at hs
    · have hzero : Goes p t (t.modPeer i fun peer => { peer with hsAttempts := 0 }) :=
        goes_modPeer rfl
      obtain ⟨⟨rc, t₁, o⟩, h1, h2⟩ := Option.map_eq_some_iff.mp hs
      simp only [Prod.mk.injEq] at h2
      exact h2.1 ▸ hzero.trans (tunnelSendInitiation_goes (h.goes hzero) hi h1)
    · simp only [Option.some.injEq, Prod.mk.injEq] at hs
      exact hs.1 ▸ .refl p t
  · simp only [Option.some.injEq, Prod.mk.injEq] at hs
    exact hs.1 ▸ .refl p t

theorem tickKeepalive_goes {i : ℕ} {now : ℤ} {env : EncapEnv} {sent : Bool} {out : List Upcall}
    (hs : tickKeepalive p t i now env sent = (t', out)) : Goes p t t' := by
  unfold tickKeepalive at hs
  split at hs
  · rcases he : encap p t i [] env sent with ⟨rc, t₁, o⟩
    have hgoes := encap_goes he
    simp only [he] at hs
    split at hs <;> simp only [Prod.mk.injEq] at hs
    · exact hs.1 ▸ hgoes.trans (goes_modPeer rfl)
    · exact hs.1 ▸ hgoes
  · simp only [Prod.mk.injEq] at hs
    exact hs.1 ▸ .refl p t

/-- The three parts of a peer's turn. -/
theorem tunnelTickPeer_some {i : ℕ} {now : ℤ} {env : TickPeerEnv} {out : List Upcall}
    (hs : tunnelTickPeer p t i now env = some (t', out)) : ∃ t₁ t₂ o₁ o₂ o₃,
      tickRetransmit p t i now env.dial = some (t₁, o₁)
        ∧ tickInitiate p t₁ i now env.dial = some (t₂, o₂)
        ∧ tickKeepalive p t₂ i now env.keepalive env.keepaliveSent = (t', o₃)
        ∧ out = o₁ ++ o₂ ++ o₃ := by
  simp only [tunnelTickPeer, Option.bind_eq_bind, Option.bind_eq_some_iff, Option.pure_def,
    Option.some.injEq, Prod.mk.injEq] at hs
  obtain ⟨⟨t₁, o₁⟩, h1, ⟨t₂, o₂⟩, h2, h3, h4⟩ := hs
  exact ⟨t₁, t₂, o₁, o₂, _, h1, h2, Prod.ext h3 rfl, h4.symm⟩

theorem tunnelTickPeer_goes (h : Rooted t) {i : ℕ} (hi : i < t.nPeers) {now : ℤ}
    {env : TickPeerEnv} {out : List Upcall}
    (hs : tunnelTickPeer p t i now env = some (t', out)) : Goes p t t' := by
  obtain ⟨t₁, t₂, o₁, o₂, o₃, h1, h2, h3, -⟩ := tunnelTickPeer_some hs
  have hg₁ := tickRetransmit_goes h hi h1
  have hg₂ := tickInitiate_goes (h.goes hg₁) (hg₁.nPeers.symm ▸ hi) h2
  exact (hg₁.trans hg₂).trans (tickKeepalive_goes h3)

theorem tickFrom_goes {now : ℤ} {env : ℕ → TickPeerEnv} : ∀ {is : List ℕ} {t t' : Tunnel}
    {out : List Upcall}, Rooted t → (∀ i ∈ is, i < t.nPeers) →
    tickFrom p now env is t = some (t', out) → Goes p t t'
  | [], t, t', _, _, _, hs => by
    simp only [tickFrom, Option.some.injEq, Prod.mk.injEq] at hs
    exact hs.1 ▸ .refl p t
  | i :: is, t, t', _, h, hi, hs => by
    simp only [tickFrom, Option.bind_eq_bind, Option.bind_eq_some_iff, Option.pure_def,
      Option.some.injEq, Prod.mk.injEq] at hs
    obtain ⟨⟨t₁, o₁⟩, h1, ⟨t₂, o₂⟩, h2, rfl, -⟩ := hs
    have hg := tunnelTickPeer_goes h (hi i List.mem_cons_self) h1
    refine hg.trans (tickFrom_goes (h.goes hg) (fun j hj => ?_) h2)
    rw [hg.nPeers]
    exact hi j (List.mem_cons_of_mem i hj)

/-! ## Events -/

theorem txHandlePacket_goes {inner : Bytes} {now : ℤ} {env : EncapEnv} {sent : Bool}
    {out : List Upcall} (hs : txHandlePacket p t inner now env sent = (t', out)) : Goes p t t' := by
  unfold txHandlePacket at hs
  split at hs
  · simp only [Prod.mk.injEq] at hs
    exact hs.1 ▸ .refl p t
  · next i hi =>
    rcases he : encap p t i inner env sent with ⟨rc, t₁, o⟩
    have hgoes := encap_goes he
    simp only [he] at hs
    split at hs <;> simp only [Prod.mk.injEq] at hs
    · exact hs.1 ▸ hgoes.trans (goes_modPeer rfl)
    · exact hs.1 ▸ hgoes

theorem rxCookie_goes (t : Tunnel) (bytes : Bytes) (now : Moment) :
    Goes p t (rxCookie p t bytes now) := by
  unfold rxCookie
  split
  · exact .refl p t
  split
  · exact .refl p t
  · exact goes_modPeer rfl

theorem rxHandleDatagram_goes {bytes : Bytes} {src : Sockaddr} {srcLen : ℕ} {env : RxEnv}
    {out : List Upcall} (hs : rxHandleDatagram p t bytes src srcLen env = some (t', out)) :
    Goes p t t' := by
  unfold rxHandleDatagram at hs
  simp only [] at hs
  split at hs
  · simp only [Option.some.injEq, Prod.mk.injEq] at hs
    exact hs.1 ▸ .refl p t
  split at hs
  · simp only [Option.some.injEq, Prod.mk.injEq] at hs
    exact hs.1 ▸ data_goes t bytes src srcLen env.data env.written
  split at hs
  · obtain ⟨⟨rc, t₁, o⟩, h1, h2⟩ := Option.map_eq_some_iff.mp hs
    simp only [Prod.mk.injEq] at h2
    exact h2.1 ▸ consumeInitiation_goes h1
  split at hs
  · obtain ⟨rc, hs⟩ : ∃ rc, tunnelConsumeResponse p t bytes env.response env.jitter
        = (rc, t', out) :=
      ⟨_, Prod.ext rfl (Option.some.inj hs)⟩
    exact consumeResponse_goes hs
  split at hs
  · simp only [Option.some.injEq, Prod.mk.injEq] at hs
    exact hs.1 ▸ rxCookie_goes t bytes env.cookie
  · simp only [Option.some.injEq, Prod.mk.injEq] at hs
    exact hs.1 ▸ .refl p t

theorem step_goes (h : Rooted t) {ev : Event} {out : List Upcall}
    (hs : step p t ev = some (t', out)) : Goes p t t' := by
  cases ev with
  | tick now env => exact tickFrom_goes h (fun i hi => List.mem_range.mp hi) hs
  | tx inner now env sent => exact txHandlePacket_goes (Option.some.inj hs)
  | rx bytes src srcLen env => exact rxHandleDatagram_goes hs

theorem run_goes {evs : List Event} {ok : Tunnel → Event → Prop} (h : Rooted t)
    (hrun : Run (step p) ok t evs t') : Rooted t' ∧ Goes p t t' := by
  refine hrun.invariant (fun t₁ => Rooted t₁ ∧ Goes p t t₁) ⟨h, .refl p t⟩ ?_
  rintro t₁ ev t₂ out ⟨hr, hg⟩ - hst
  have hg' := step_goes hr hst
  exact ⟨hr.goes hg', hg.trans hg'⟩

/-! ## The start -/

def settingOf (peer : ConfigPeer) (i : ℕ) : Setting :=
  ⟨peer.pubkey, peer.hasEndpoint, peer.allowed, peer.pkSec, i⟩

theorem alloc_enable_some {l l' : NoiseLocal} {arg : ℕ} {pub : Bytes}
    (hs : noiseRemoteEnable (noiseRemoteAlloc p l arg pub).1 l.nRemotes = (l', true)) :
    l' = l.pushRemote (newRemote p l arg pub) := by
  by_cases hroom : l.lRemoteHash.length < maxRemotePerLocal
  · rw [alloc_enable hroom] at hs
    exact (Prod.mk.inj hs).1.symm
  · simp [noiseRemoteEnable, noiseRemoteAlloc, NoiseRemote.blank, hroom] at hs

theorem RootedTo.enlist {n : ℕ} (h : RootedTo n t) (peer : ConfigPeer) {f : TunnelPeer → TunnelPeer}
    (hf : ∀ v, (f v).setting = v.setting) :
    RootedTo (n + 1) (((t.modPeer n fun _ => openPeer p peer n).setNoise
      (t.noise.pushRemote (newRemote p t.noise n peer.pubkey))).modPeer n f) := by
  set l := t.noise.pushRemote (newRemote p t.noise n peer.pubkey) with hl
  have hremotes : ∀ r, l.remotes r = if r = n then newRemote p t.noise n peer.pubkey
      else t.noise.remotes r := fun r => by
    rw [hl, NoiseLocal.pushRemote, h.nRemotes]
    exact Function.update_apply ..
  have hset : ∀ j, ((((t.modPeer n fun _ => openPeer p peer n).setNoise l).modPeer n f).peers
      j).setting = if j = n then settingOf peer n else (t.peers j).setting := fun j => by
    rw [modPeer_of_fixed TunnelPeer.setting (hf _), setNoise_peers, modPeer_peers]
    split <;> rfl
  have hrem : ∀ j, ((((t.modPeer n fun _ => openPeer p peer n).setNoise l).modPeer n f).peers
      j).remote = if j = n then n else (t.peers j).remote := fun j => by
    refine (congrArg Setting.remote (hset j)).trans ?_
    split <;> rfl
  have hpub : ∀ j, ((((t.modPeer n fun _ => openPeer p peer n).setNoise l).modPeer n f).peers
      j).pubkey = if j = n then peer.pubkey else (t.peers j).pubkey := fun j => by
    refine (congrArg Setting.pubkey (hset j)).trans ?_
    split <;> rfl
  refine ⟨RosterStep.exact h.exact (.enlist n peer.pubkey), ?_, ?_, ?_, ?_, ?_⟩
  · show t.noise.nRemotes + 1 = n + 1
    rw [h.nRemotes]
  · intro i hi
    rw [hrem]
    split
    · next e => exact e.symm
    · exact h.remote i (by omega)
  · intro r hr
    show (l.remotes r).rEntryInserted = true
    rw [hremotes]
    split
    · rfl
    · exact h.inserted r (by omega)
  · intro r hr
    show (l.remotes r).rArg = r
    rw [hremotes]
    split
    · next e => exact e.symm
    · exact h.arg r (by omega)
  · intro r hr
    rw [hpub]
    show (l.remotes r).rPublic = _
    rw [hremotes]
    split
    · rfl
    · exact h.pub r (by omega)

/-- One pass of the loop over the configured peers. -/
theorem mainPeer_some {resolve : Resolver} {cfg : ClientConfig} {n : ℕ} (h : RootedTo n t)
    (hs : mainPeer p resolve cfg t n = some t') :
    RootedTo (n + 1) t' ∧ t'.nPeers = t.nPeers ∧ t'.aipsV4 = t.aipsV4 ∧ t'.aipsV6 = t.aipsV6
      ∧ ∀ j, (t'.peers j).setting
        = if j = n then settingOf (cfg.peers n) n else (t.peers j).setting := by
  unfold mainPeer at hs
  simp only [] at hs
  split at hs
  · cases hs
  next l hen =>
  rw [show (noiseRemoteAlloc p t.noise n (cfg.peers n).pubkey).2 = t.noise.nRemotes from rfl] at hen hs
  obtain rfl := alloc_enable_some hen
  rw [h.nRemotes] at hs
  obtain ⟨f, hf, rfl⟩ : ∃ f : TunnelPeer → TunnelPeer, (∀ v, (f v).setting = v.setting)
      ∧ t' = ((t.modPeer n fun _ => openPeer p (cfg.peers n) n).setNoise
        (t.noise.pushRemote (newRemote p t.noise n (cfg.peers n).pubkey))).modPeer n f := by
    split at hs
    · obtain ⟨⟨endpoint, endpointLen⟩, -, rfl⟩ := Option.map_eq_some_iff.mp hs
      exact ⟨fun peer => { peer with endpoint, endpointLen }, fun _ => rfl, rfl⟩
    · obtain rfl := Option.some.inj hs
      exact ⟨fun peer => peer, fun _ => rfl, (modPeer_id _ n).symm⟩
  refine ⟨h.enlist (cfg.peers n) hf, rfl, rfl, rfl, fun j => ?_⟩
  rw [modPeer_of_fixed TunnelPeer.setting (hf _), setNoise_peers, modPeer_peers]
  split <;> rfl

theorem mainPeers_some {resolve : Resolver} {cfg : ClientConfig} (h : RootedTo 0 t) :
    ∀ {n : ℕ} {t' : Tunnel}, (List.range n).foldlM (mainPeer p resolve cfg) t = some t' →
      RootedTo n t' ∧ t'.nPeers = t.nPeers ∧ t'.aipsV4 = t.aipsV4 ∧ t'.aipsV6 = t.aipsV6
        ∧ ∀ j < n, (t'.peers j).setting = settingOf (cfg.peers j) j
  | 0, t', hs => by
    obtain rfl := Option.some.inj hs
    exact ⟨h, rfl, rfl, rfl, fun j hj => absurd hj (Nat.not_lt_zero j)⟩
  | n + 1, t', hs => by
    rw [List.range_succ, List.foldlM_append, Option.bind_eq_bind, Option.bind_eq_some_iff] at hs
    obtain ⟨t₁, h1, hs⟩ := hs
    simp only [List.foldlM_cons, List.foldlM_nil, Option.bind_eq_bind, Option.pure_def,
      Option.bind_fun_some] at hs
    obtain ⟨hr, hn, h4, h6, hset⟩ := mainPeers_some h h1
    obtain ⟨hr', hn', h4', h6', hset'⟩ := mainPeer_some hr hs
    refine ⟨hr', hn'.trans hn, h4'.trans h4, h6'.trans h6, fun j hj => ?_⟩
    rw [hset']
    split
    · next e => rw [e]
    · exact hset j (by omega)

theorem insertAllowed_outside (i : ℕ) (t : Tunnel) (c : WgsAllowedCidr) :
    (insertAllowed i t c).noise = t.noise ∧ (insertAllowed i t c).peers = t.peers
      ∧ (insertAllowed i t c).nPeers = t.nPeers := by
  unfold insertAllowed
  split <;> exact ⟨rfl, rfl, rfl⟩

theorem foldl_insertAllowed_outside (i : ℕ) : ∀ (cs : List WgsAllowedCidr) (t : Tunnel),
    (cs.foldl (insertAllowed i) t).noise = t.noise ∧ (cs.foldl (insertAllowed i) t).peers = t.peers
      ∧ (cs.foldl (insertAllowed i) t).nPeers = t.nPeers
  | [], _ => ⟨rfl, rfl, rfl⟩
  | c :: cs, t => by
    obtain ⟨h1, h2, h3⟩ := insertAllowed_outside i t c
    obtain ⟨h4, h5, h6⟩ := foldl_insertAllowed_outside i cs (insertAllowed i t c)
    exact ⟨h4.trans h1, h5.trans h2, h6.trans h3⟩

theorem insertAll_outside : ∀ (is : List ℕ) (t : Tunnel),
    (is.foldl (fun t i => (t.peers i).allowed.foldl (insertAllowed i) t) t).noise = t.noise
      ∧ (is.foldl (fun t i => (t.peers i).allowed.foldl (insertAllowed i) t) t).peers = t.peers
      ∧ (is.foldl (fun t i => (t.peers i).allowed.foldl (insertAllowed i) t) t).nPeers = t.nPeers
  | [], _ => ⟨rfl, rfl, rfl⟩
  | i :: is, t => by
    obtain ⟨h1, h2, h3⟩ := foldl_insertAllowed_outside i (t.peers i).allowed t
    obtain ⟨h4, h5, h6⟩ := insertAll_outside is ((t.peers i).allowed.foldl (insertAllowed i) t)
    exact ⟨h4.trans h1, h5.trans h2, h6.trans h3⟩

theorem RootedTo.congr {n : ℕ} (h : RootedTo n t) (hn : t'.noise = t.noise)
    (hp : t'.peers = t.peers) : RootedTo n t' := by
  refine ⟨hn ▸ h.exact, hn ▸ h.nRemotes, hp ▸ h.remote, hn ▸ h.inserted, hn ▸ h.arg, ?_⟩
  rw [hn, hp]
  exact h.pub

theorem rootedTo_init (cfg : ClientConfig) :
    RootedTo 0 (Tunnel.mk (noiseLocalPrivate p noiseLocalAlloc cfg.privateKey) ⟨zeros 32⟩
      (aipsInit 32) (aipsInit 128) (fun _ => openPeer p .blank 0) cfg.nPeers) := by
  refine ⟨exact_init p cfg.privateKey, ?_, ?_, ?_, ?_, ?_⟩
  · show (noiseLocalPrivate p noiseLocalAlloc cfg.privateKey).nRemotes = 0
    unfold noiseLocalPrivate
    simp only []
    split <;> rfl
  all_goals exact fun _ hi => absurd hi (Nat.not_lt_zero _)

/-- The client starts with the configured peers, rooted. -/
theorem started_rooted {cfg : ClientConfig} (h : Started p cfg t) :
    Rooted t ∧ t.nPeers = cfg.nPeers
      ∧ ∀ i < cfg.nPeers, (t.peers i).setting = settingOf (cfg.peers i) i := by
  obtain ⟨resolve, h⟩ := h
  simp only [start, Option.bind_eq_bind, Option.bind_eq_some_iff, Option.pure_def,
    Option.some.injEq] at h
  obtain ⟨t₁, h1, rfl⟩ := h
  obtain ⟨hr, hn, -, -, hset⟩ := mainPeers_some (rootedTo_init cfg) h1
  set t₂ := (if t₁.noise.lHasIdentity then
    { t₁ with cookieChecker := cookieCheckerUpdate p t₁.noise.lPublic } else t₁) with ht₂
  obtain ⟨e1, e2, e3⟩ : t₂.noise = t₁.noise ∧ t₂.peers = t₁.peers ∧ t₂.nPeers = t₁.nPeers := by
    rw [ht₂]
    split <;> exact ⟨rfl, rfl, rfl⟩
  obtain ⟨o1, o2, o3⟩ := insertAll_outside (List.range cfg.nPeers) t₂
  have hn' := (o3.trans e3).trans hn
  refine ⟨?_, hn', fun i hi => ?_⟩
  · rw [Rooted, hn']
    exact hr.congr (o1.trans e1) (o2.trans e2)
  · rw [o2, e2]
    exact hset i hi

/-! ## References over runs -/

/-- The client leaks nothing and holds nothing that has been freed, whatever is sent to it: of its
remotes each is a peer's and stays listed. -/
theorem client_tight {cfg : ClientConfig} {t₀ : Tunnel} {evs : List Event} (h : Started p cfg t₀)
    (hrun : Run (step p) (fun _ _ => True) t₀ evs t) :
    Tight t.noise ∧ t.noise.nRemotes = t.nPeers
      ∧ ∀ r < t.nPeers, (t.noise.remotes r).rEntryInserted := by
  have hr := (run_goes (started_rooted h).1 hrun).1
  exact ⟨hr.exact.tight, hr.nRemotes, hr.inserted⟩

/-! ## Specimen clients -/

def turn (t : ℕ) (idx : UInt32) : TickPeerEnv where
  dial := ⟨dial t idx, true⟩
  keepalive := ⟨instant t, instant t, true⟩
  keepaliveSent := true

def incoming (t : ℕ) (idx : UInt32) : RxEnv where
  data := instant t
  written := true
  answer := ⟨(intake t idx).initiation, true, 0⟩
  response := (intake t idx).response
  jitter := 0
  cookie := instant t

/-- The client B over two datagrams of the client A's: the initiation that A dials it with, and a
packet. With its configuration, and what is done at each. -/
def clientRun : Option (ClientConfig × Tunnel × List Event × Tunnel × List (List Upcall)) := do
  let cfgA ← loadConfig specimen (conf keyA keyB "Endpoint=b:51820\nAllowedIPs=10.0.0.2/32\n")
  let a ← start specimen (names hostB) cfgA
  let cfg ← loadConfig specimen (conf keyB keyA "Endpoint=a:51820\nAllowedIPs=10.0.0.1/32\n")
  let t₀ ← start specimen (names hostA) cfg
  let (a, ini) ← step specimen a (.tick 100 fun _ => turn 100 7)
  let (_, rsp) ← step specimen t₀ (.rx (sent ini) hostA 16 (incoming 100 8))
  let (a, _) ← step specimen a (.rx (sent rsp) hostB 16 (incoming 100 9))
  let (_, data) ← step specimen a (.tx packet 101 ⟨instant 101, instant 101, true⟩ true)
  let evs := [.rx (sent ini) hostA 16 (incoming 100 8), .rx (sent data) hostA 16 (incoming 101 9)]
  let (t, out) ← Run.exec (step specimen) t₀ evs
  pure (cfg, t₀, evs, t, out)

theorem clientRun_some {cfg : ClientConfig} {t₀ : Tunnel} {evs : List Event}
    {out : List (List Upcall)} (h : clientRun = some (cfg, t₀, evs, t, out)) :
    Started specimen cfg t₀ ∧ Run (step specimen) (fun _ _ => True) t₀ evs t := by
  simp only [clientRun, Option.bind_eq_bind, Option.bind_eq_some_iff, Option.pure_def,
    Option.some.injEq, Prod.mk.injEq] at h
  obtain ⟨cfgA, -, a, -, cfg', -, t₁, ht, ⟨a₁, ini⟩, -, ⟨b₁, rsp⟩, -, ⟨a₂, o₁⟩, -, ⟨a₃, data⟩, -,
    ⟨t₂, o₂⟩, hrun, rfl, rfl, rfl, rfl, rfl⟩ := h
  exact ⟨⟨_, ht⟩, Run.of_exec (fun _ _ _ => trivial) hrun⟩

theorem clientRun_delivers : ∃ cfg t₀ evs t out, clientRun = some (cfg, t₀, evs, t, out)
    ∧ out.getLast? = some [.deliverIp packet] := by
  have hrun : clientRun.any (fun x => x.2.2.2.2.getLast? = some [.deliverIp packet]) = true := by
    decide +kernel
  obtain ⟨⟨cfg, t₀, evs, t, out⟩, h, hx⟩ := (Option.any_eq_true _ _).mp hrun
  exact ⟨cfg, t₀, evs, t, out, h, of_decide_eq_true hx⟩

theorem client_tight_run : ∃ cfg t₀ evs t out, clientRun = some (cfg, t₀, evs, t, out)
    ∧ Tight t.noise ∧ t.noise.nRemotes = t.nPeers
    ∧ ∀ r < t.nPeers, (t.noise.remotes r).rEntryInserted := by
  obtain ⟨cfg, t₀, evs, t, out, h, -⟩ := clientRun_delivers
  obtain ⟨hs, hrun⟩ := clientRun_some h
  exact ⟨cfg, t₀, evs, t, out, h, client_tight hs hrun⟩

end Tunnel

end PolarWG
