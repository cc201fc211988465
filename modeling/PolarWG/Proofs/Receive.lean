import PolarWG.Core
import PolarWG.Specimen

/-!
# Two receive paths

The session and the client take in data datagrams with the same Noise layer and the same tries. They
part in when the peer's endpoint moves: the session moves it as soon as a packet is authentic, the
client once the packet is accepted.
-/

namespace PolarWG

variable {p : Prims} {s : WgSession}

/-! ## Corresponding states -/

def WgsPeer.peerState (peer : WgsPeer) : PeerState :=
  ⟨peer.endpoint, peer.endpointLen, peer.rxPkts, peer.rxBytes, peer.rxDroppedAips⟩

def WgSession.tunnelCtx (s : WgSession) : TunnelCtx :=
  ⟨s.noise, s.aipsV4, s.aipsV6, fun i => (s.peers i).peerState⟩

/-- The inner packet that a call hands over, if it hands one over. -/
def delivered : List Upcall → Option Bytes
  | .deliverIp bytes :: _ => some bytes
  | _ => none

/-- The same packet is handed over, if any, and the states correspond again. -/
def SameOutcome (r : Int × WgSession × List Upcall) (c : TunnelCtx × Option Bytes) : Prop :=
  delivered r.2.2 = c.2 ∧ r.2.1.tunnelCtx = c.1

theorem tunnelCtx_modPeer {i : ℕ} {f : WgsPeer → WgsPeer} {g : PeerState → PeerState}
    (h : (f (s.peers i)).peerState = g (s.peers i).peerState) :
    (s.modPeer i f).tunnelCtx = s.tunnelCtx.modPeer i g := by
  have hpeers : (fun j => ((s.modPeer i f).peers j).peerState)
      = Function.update (fun j => (s.peers j).peerState) i (g (s.peers i).peerState) := by
    funext j
    unfold WgSession.modPeer
    by_cases hj : j = i
    · subst hj
      simp only [Function.update_self, h]
    · simp only [Function.update_of_ne hj]
  unfold WgSession.tunnelCtx TunnelCtx.modPeer
  rw [hpeers]
  rfl

theorem modPeer_modPeer (s : WgSession) (i : ℕ) (f g : WgsPeer → WgsPeer) :
    (s.modPeer i f).modPeer i g = s.modPeer i fun peer => g (f peer) := by
  simp [WgSession.modPeer]

theorem TunnelCtx.modPeer_inj {c : TunnelCtx} {i : ℕ} {f g : PeerState → PeerState} :
    c.modPeer i f = c.modPeer i g ↔ f (c.peers i) = g (c.peers i) := by
  refine ⟨fun h => ?_, fun h => by unfold TunnelCtx.modPeer; rw [h]⟩
  have := congrFun (congrArg TunnelCtx.peers h) i
  simpa [TunnelCtx.modPeer] using this

theorem TunnelCtx.modPeer_id (c : TunnelCtx) (i : ℕ) : c.modPeer i (fun peer => peer) = c := by
  simp [TunnelCtx.modPeer]

/-! ## Endpoints -/

def PeerState.Held (peer : PeerState) (src : Sockaddr) (srcLen : ℕ) : Prop :=
  peer.endpoint = src ∧ peer.endpointLen = srcLen

/-- An accepted packet from here moves the client's endpoint. -/
def PeerState.Moves (peer : PeerState) (src : Sockaddr) (srcLen : ℕ) : Prop :=
  srcLen ≠ 0 ∧ srcLen ≤ sockaddrStorageLen
    ∧ sockaddrSame peer.endpoint peer.endpointLen src srcLen = false

theorem moved_eq_iff {peer : PeerState} {src : Sockaddr} {srcLen : ℕ} :
    { peer with endpoint := src, endpointLen := srcLen } = peer ↔ peer.Held src srcLen := by
  obtain ⟨ep, len, a, b, c⟩ := peer
  simp only [PeerState.Held, PeerState.mk.injEq, and_true]
  exact ⟨fun h => ⟨h.1.symm, h.2.symm⟩, fun h => ⟨h.1.symm, h.2.symm⟩⟩

theorem moved_eq_set_iff {peer : PeerState} {src : Sockaddr} {srcLen : ℕ} :
    { peer with endpoint := src, endpointLen := srcLen } = peerSetEndpoint peer src srcLen
      ↔ peer.Held src srcLen ∨ peer.Moves src srcLen := by
  unfold peerSetEndpoint PeerState.Moves
  split
  · next h =>
    rw [moved_eq_iff]
    exact ⟨.inl, fun hor => hor.resolve_right fun hm => by omega⟩
  · next h =>
    split
    · next hsame =>
      rw [moved_eq_iff, hsame]
      simp
    · next hsame =>
      exact ⟨fun _ => .inr ⟨by omega, by omega, by simpa using hsame⟩, fun _ => rfl⟩

/-! ## Opening a datagram -/

/-- The peer that a datagram authenticates, and its padded plaintext. -/
def opened (p : Prims) (l : NoiseLocal) (bytes : Bytes) (now : Moment) : Option (ℕ × Bytes) :=
  if bytes.length < 16 + 16 then none
  else
    match noiseKeypairLookup l (le32dec (slice 4 4 bytes)) with
    | (_, none) => none
    | (l, some k) =>
      (noiseKeypairDecrypt p l k (leDec (slice 8 8 bytes)) (bytes.drop 16)
        now.getsbinuptime).map fun m =>
        let (l, r) := noiseKeypairRemote (noiseKeypairReceivedWith l k) k
        ((l.remotes r).rArg, m)

/-- What the client passes on of a plaintext. -/
def decapped (i : ℕ) (m : Bytes) : Option (ℕ × Bytes) :=
  if m.length = 0 then some (i, [])
  else match innerIpLen m with
  | none => none
  | some ilen => if wgBufMax < ilen then none else some (i, m.take ilen)

theorem handleData_opened (s : WgSession) {bytes : Bytes} (src : Sockaddr) (srcLen : ℕ)
    (now : Moment) (hdata : le32dec (slice 0 4 bytes) = wgsPktData) :
    ∃ l, (opened p s.noise bytes now = none →
        wgsHandleData p s bytes src srcLen now = (-1, s.setNoise l, [])
        ∧ wgDecap p s.noise bytes wgBufMax now = (l, none))
      ∧ ∀ i m, opened p s.noise bytes now = some (i, m) →
        wgsHandleData p s bytes src srcLen now = wgsDeliver (s.setNoise l) i m src srcLen
        ∧ wgDecap p s.noise bytes wgBufMax now = (l, decapped i m) := by
  unfold wgsHandleData wgDecap opened
  by_cases hlen : bytes.length < 16 + 16
  · simp only [if_pos hlen]
    exact ⟨s.noise, fun _ => ⟨rfl, rfl⟩, fun _ _ h => by cases h⟩
  simp only [if_neg hlen, hdata, ne_eq, not_true, if_false]
  rcases noiseKeypairLookup s.noise (le32dec (slice 4 4 bytes)) with ⟨l, _ | k⟩
  · exact ⟨l, fun _ => ⟨rfl, rfl⟩, fun _ _ h => by cases h⟩
  simp only []
  rcases noiseKeypairDecrypt p l k (leDec (slice 8 8 bytes)) (bytes.drop 16)
    now.getsbinuptime with _ | m
  · exact ⟨noiseKeypairPut l k, fun _ => ⟨rfl, rfl⟩, fun _ _ h => by cases h⟩
  refine ⟨noiseKeypairPut (noiseRemotePut (noiseKeypairRemote (noiseKeypairReceivedWith l k) k).1
    (noiseKeypairRemote (noiseKeypairReceivedWith l k) k).2) k, fun h => absurd h (by simp),
    fun i m' h => ?_⟩
  simp only [Option.map_some, Option.some.injEq, Prod.mk.injEq] at h
  obtain ⟨rfl, rfl⟩ := h
  refine ⟨rfl, ?_⟩
  unfold decapped
  simp only []
  split
  · rfl
  · rcases innerIpLen m with _ | ilen
    · rfl
    · simp only []
      split <;> rfl

theorem innerIpLen_bounds {m : Bytes} {n : ℕ} (h : innerIpLen m = some n) :
    20 ≤ n ∧ n ≤ m.length := by
  unfold innerIpLen at h
  split at h
  · cases h
  simp only [] at h
  split_ifs at h with h4 h20 ht h6 h40 hp
  · simp only [not_or, Nat.not_lt] at ht
    simp only [Option.some.injEq] at h
    omega
  · simp only [Option.some.injEq] at h
    omega

/-! ## Agreement -/

/-- When both paths end alike on an authentic packet of the peer in slot `i`. -/
structure Agreeing (s : WgSession) (i : ℕ) (m : Bytes) (src : Sockaddr) (srcLen : ℕ)
    (written : Bool) : Prop where
  endpoint : (s.peers i).peerState.Held src srcLen
    ∨ (s.peers i).peerState.Moves src srcLen
      ∧ (m = [] ∨ ∃ ilen, innerIpLen m = some ilen ∧ sessionLookupInnerSrc s (m.take ilen) = some i)
  room : ∀ ilen, innerIpLen m = some ilen → ilen ≤ wgBufMax
    ∧ (sessionLookupInnerSrc s (m.take ilen) = some i → written = true)

theorem lookupInnerSrc_eq (s : WgSession) (inner : Bytes) :
    aipsLookupInnerSrc s.tunnelCtx inner = sessionLookupInnerSrc s inner := by
  unfold aipsLookupInnerSrc sessionLookupInnerSrc
  cases inner with
  | nil => rfl
  | cons b rest =>
    simp only [WgSession.tunnelCtx, ← Nat.not_le]
    by_cases h4 : b >>> 4 = 4
    · by_cases hlen : 20 ≤ (b :: rest).length <;> simp only [h4, hlen, if_true, not_true,
        not_false_eq_true, if_false, and_self, and_false]
      all_goals rfl
    · by_cases h6 : b >>> 4 = 6
      · by_cases hlen : 40 ≤ (b :: rest).length <;> simp only [h6, hlen, if_true, not_true,
          not_false_eq_true, if_false, and_self, and_false] <;> rfl
      · simp only [h4, h6, if_false, false_and]

/-- What the session makes of the peer's state when its endpoint moves and `f` counts. -/
theorem moved_same_iff {i : ℕ} {f : WgsPeer → WgsPeer} {g h : PeerState → PeerState}
    (src : Sockaddr) (srcLen : ℕ)
    (hf : ∀ peer : WgsPeer, (f { peer with endpoint := src, endpointLen := srcLen }).peerState
      = { h peer.peerState with endpoint := src, endpointLen := srcLen }) :
    ((s.modPeer i fun peer => { peer with endpoint := src, endpointLen := srcLen }).modPeer i
        f).tunnelCtx = s.tunnelCtx.modPeer i g
      ↔ { h (s.peers i).peerState with endpoint := src, endpointLen := srcLen }
        = g (s.peers i).peerState := by
  rw [modPeer_modPeer, tunnelCtx_modPeer
    (g := fun peer => { h peer with endpoint := src, endpointLen := srcLen }) (hf _),
    TunnelCtx.modPeer_inj]
  rfl

theorem deliver_same_iff (s : WgSession) (i : ℕ) (m : Bytes) (src : Sockaddr) (srcLen : ℕ)
    (written : Bool) :
    SameOutcome (wgsDeliver s i m src srcLen)
        (rxDecapped s.tunnelCtx src srcLen written (decapped i m))
      ↔ Agreeing s i m src srcLen written := by
  have hkeep := TunnelCtx.modPeer_id s.tunnelCtx i
  unfold wgsDeliver decapped SameOutcome
  simp only []
  by_cases hm : m.length = 0
  · obtain rfl := List.length_eq_zero_iff.mp hm
    simp only [List.length_nil, if_true, rxDecapped, Nat.lt_irrefl, if_false, delivered, true_and]
    rw [moved_same_iff (h := fun peer => { peer with rxPkts := peer.rxPkts + 1 }) src srcLen
      fun _ => rfl, moved_eq_set_iff]
    constructor
    · exact fun h => ⟨h.imp_right fun h => ⟨h, .inl rfl⟩, fun _ h => by cases h⟩
    · exact fun h => h.endpoint.imp_right fun h => h.1
  have hne : m ≠ [] := fun h => hm (h ▸ rfl)
  simp only [if_neg hm]
  rcases hlen : innerIpLen m with _ | ilen
  · simp only [rxDecapped, delivered, true_and]
    rw [← hkeep, tunnelCtx_modPeer
      (g := fun peer => { peer with endpoint := src, endpointLen := srcLen }) rfl,
      TunnelCtx.modPeer_inj]
    refine moved_eq_iff.trans ⟨fun h => ⟨.inl h, fun _ h => by cases hlen.symm.trans h⟩, fun h => ?_⟩
    refine h.endpoint.resolve_right fun h => h.2.elim hne ?_
    rintro ⟨n, hn, -⟩
    cases hlen.symm.trans hn
  obtain ⟨h20, hle⟩ := innerIpLen_bounds hlen
  have htake : (m.take ilen).length = ilen := by
    rw [List.length_take]
    omega
  have howner : ∀ f, sessionLookupInnerSrc (s.modPeer i f) (m.take ilen)
      = sessionLookupInnerSrc s (m.take ilen) := fun _ => rfl
  simp only [howner]
  have hroom : ∀ n, innerIpLen m = some n → n = ilen := fun n hn =>
    Option.some.inj (hn.symm.trans hlen)
  by_cases hown : sessionLookupInnerSrc s (m.take ilen) = some i
  · rw [if_neg (not_not.mpr hown)]
    by_cases hcap : wgBufMax < ilen
    · rw [if_pos hcap]
      simp only [rxDecapped, delivered, reduceCtorEq, false_and, false_iff]
      exact fun h => absurd (h.room ilen hlen).1 (by omega)
    rw [if_neg hcap]
    simp only [rxDecapped, htake, lookupInnerSrc_eq, hown, delivered, ne_eq, not_true, if_false]
    rw [if_pos (by omega)]
    cases written with
    | false =>
      simp only [Bool.false_eq_true, if_false, reduceCtorEq, false_and, false_iff]
      exact fun h => absurd ((h.room ilen hlen).2 hown) (by decide)
    | true =>
      simp only [if_true, true_and]
      rw [moved_same_iff (h := fun peer => { peer with
        rxPkts := peer.rxPkts + 1, rxBytes := peer.rxBytes + ilen }) src srcLen fun _ => rfl,
        moved_eq_set_iff]
      constructor
      · exact fun h => ⟨h.imp_right fun h => ⟨h, .inr ⟨ilen, hlen, hown⟩⟩,
          fun n hn => hroom n hn ▸ ⟨by omega, fun _ => rfl⟩⟩
      · exact fun h => h.endpoint.imp_right fun h => h.1
  · rw [if_pos hown]
    by_cases hcap : wgBufMax < ilen
    · rw [if_pos hcap]
      simp only [rxDecapped, delivered, true_and]
      refine iff_of_false (fun h => ?_) fun h => absurd (h.room ilen hlen).1 (by omega)
      rw [← hkeep, moved_same_iff (h := fun peer => { peer with
        rxDroppedAips := peer.rxDroppedAips + 1 }) src srcLen fun _ => rfl] at h
      have := congrArg PeerState.rxDroppedAips h
      simp at this
    rw [if_neg hcap]
    simp only [rxDecapped, htake, lookupInnerSrc_eq, delivered, ne_eq, hown, not_false_eq_true,
      if_true]
    rw [if_pos (by omega)]
    simp only [true_and]
    rw [moved_same_iff (h := fun peer => { peer with rxDroppedAips := peer.rxDroppedAips + 1 }) src
      srcLen fun _ => rfl, moved_eq_iff]
    constructor
    · exact fun h => ⟨.inl h, fun n hn => hroom n hn ▸ ⟨by omega, fun h => absurd h hown⟩⟩
    · refine fun h => h.endpoint.resolve_right fun h => h.2.elim hne ?_
      rintro ⟨n, hn, hown'⟩
      exact hown (hroom n hn ▸ hown')

/-- Both paths end alike on a data datagram, for every peer and every table, if and only if it is not
authentic or they agree on the authentic packet. -/
theorem receive_agrees_iff (s : WgSession) {bytes : Bytes} (src : Sockaddr) (srcLen : ℕ)
    (now : Moment) (written : Bool) (hdata : le32dec (slice 0 4 bytes) = wgsPktData) :
    SameOutcome (wgsHandleData p s bytes src srcLen now)
        (rxHandleDatagram p s.tunnelCtx bytes src srcLen now written)
      ↔ ∀ i m, opened p s.noise bytes now = some (i, m) → Agreeing s i m src srcLen written := by
  obtain ⟨l, hnone, hsome⟩ := handleData_opened (p := p) s src srcLen now hdata
  have hl : { s.tunnelCtx with noise := l } = (s.setNoise l).tunnelCtx := rfl
  unfold rxHandleDatagram
  rcases ho : opened p s.noise bytes now with _ | ⟨i, m⟩
  · obtain ⟨h1, h2⟩ := hnone ho
    rw [h1, show wgDecap p s.tunnelCtx.noise bytes wgBufMax now = (l, none) from h2]
    exact iff_of_true ⟨rfl, rfl⟩ fun _ _ h => by cases h
  · obtain ⟨h1, h2⟩ := hsome i m ho
    rw [h1, show wgDecap p s.tunnelCtx.noise bytes wgBufMax now = (l, decapped i m) from h2]
    simp only [hl]
    rw [deliver_same_iff]
    constructor
    · rintro ⟨hep, hroom⟩ i' m' h
      obtain ⟨rfl, rfl⟩ := Prod.mk.inj (Option.some.inj h)
      exact ⟨hep, hroom⟩
    · intro h
      obtain ⟨hep, hroom⟩ := h i m rfl
      exact ⟨hep, hroom⟩

/-! ## Packets that part the paths -/

namespace Specimen

/-- An IPv4 packet from 10.0.0.9, which is none of A's addresses. -/
def spoofed : Bytes := [0x45, 0, 0, 20] ++ zeros 8 ++ [10, 0, 0, 9] ++ [10, 0, 0, 2]

/-- The datagram in which A sends it. -/
def spoofedToB : Option Bytes := do
  let a ← sessionA
  let b ← sessionB
  let (a, ini) ← sessionStep specimen a (.kick (dial 100 7))
  let (_, rsp) ← sessionStep specimen b (.handleUdp (sent ini) hostA 16 (intake 100 8))
  let (a, _) ← sessionStep specimen a (.handleUdp (sent rsp) hostB 16 (intake 100 9))
  let (_, data) ← sessionStep specimen a (.handleTun spoofed ⟨instant 101, instant 101, true⟩)
  pure (sent data)

/-- B over A's initiation. -/
def runAnswer : Option (WgSession × List (List Upcall)) :=
  runB fun ini _ => [.handleUdp ini hostA 16 (intake 100 8)]

def hostC : Sockaddr := ⟨afInet, 51820, [192, 0, 2, 3], 0, by decide, by decide⟩

end Specimen

open Specimen

theorem receive_agrees_iff_roamed : ∃ s bytes, le32dec (slice 0 4 bytes) = wgsPktData
    ∧ (∃ m, opened specimen s.noise bytes (instant 101) = some (0, m))
    ∧ SameOutcome (wgsHandleData specimen s bytes hostC 16 (instant 101))
        (rxHandleDatagram specimen s.tunnelCtx bytes hostC 16 (instant 101) true) := by
  have hrun : runAnswer.any (fun x => sentToB.any fun y =>
      decide (le32dec (slice 0 4 y.2) = wgsPktData) &&
        (opened specimen x.1.noise y.2 (instant 101)).any fun o =>
          decide (o.1 = 0 ∧ innerIpLen o.2 = some 20
            ∧ sessionLookupInnerSrc x.1 (o.2.take 20) = some 0
            ∧ sockaddrSame (x.1.peers 0).endpoint (x.1.peers 0).endpointLen hostC 16 = false))
      = true := by
    decide +kernel
  obtain ⟨⟨s, _⟩, -, h⟩ := (Option.any_eq_true _ _).mp hrun
  obtain ⟨⟨_, bytes⟩, -, h⟩ := (Option.any_eq_true _ _).mp h
  obtain ⟨hdata, h⟩ := Bool.and_eq_true_iff.mp h
  obtain ⟨⟨i, m⟩, ho, h⟩ := (Option.any_eq_true _ _).mp h
  obtain ⟨rfl, hlen, hown, hmove⟩ := of_decide_eq_true h
  refine ⟨s, bytes, of_decide_eq_true hdata, ⟨m, ho⟩,
    (receive_agrees_iff s hostC 16 (instant 101) true (of_decide_eq_true hdata)).mpr ?_⟩
  intro i m' h'
  obtain ⟨rfl, rfl⟩ := Prod.mk.inj (Option.some.inj (ho.symm.trans h'))
  exact ⟨.inr ⟨⟨by decide, by decide, hmove⟩, .inr ⟨20, hlen, hown⟩⟩,
    fun n hn => ⟨by rw [Option.some.inj (hn.symm.trans hlen)]; decide, fun _ => rfl⟩⟩

/-- An authentic packet with a spoofed inner source moves the session's endpoint, not the
client's. -/
theorem receive_not_agreeing : ¬ ∀ s, ReachableIf specimen (fun _ _ => True) s →
    ∀ bytes src srcLen now, le32dec (slice 0 4 bytes) = wgsPktData →
      SameOutcome (wgsHandleData specimen s bytes src srcLen now)
        (rxHandleDatagram specimen s.tunnelCtx bytes src srcLen now true) := fun hall => by
  have hrun : runAnswer.any (fun x => spoofedToB.any fun bytes =>
      decide (le32dec (slice 0 4 bytes) = wgsPktData
        ∧ ((wgsHandleData specimen x.1 bytes hostC 16 (instant 101)).2.1.peers 0).endpoint = hostC
        ∧ ((rxHandleDatagram specimen x.1.tunnelCtx bytes hostC 16 (instant 101) true).1.peers
          0).endpoint = hostA)) = true := by
    decide +kernel
  obtain ⟨⟨s, out⟩, hs, h⟩ := (Option.any_eq_true _ _).mp hrun
  obtain ⟨bytes, -, h⟩ := (Option.any_eq_true _ _).mp h
  obtain ⟨hdata, hsession, hclient⟩ := of_decide_eq_true h
  have hstate := (hall s (reachable_of_runB (fun _ _ _ _ _ => trivial) hs) bytes hostC 16
    (instant 101) hdata).2
  rw [← hstate] at hclient
  exact absurd (hsession.symm.trans hclient) (by decide)

end PolarWG
