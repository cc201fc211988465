import PolarWG.Proofs.Delivery

/-!
# What a completed handshake opens

The initiator's new keypair is its current one at once. The responder's is only its next one until
a packet comes in under it, and the initiator sends none on its own when it takes in the response.
So the responder can send after a handshake exactly when it could before.
-/

namespace PolarWG

open Specimen

variable {p : Prims} {l l' : NoiseLocal} {s s' : WgSession}

/-! ## What sending reads of a keypair -/

/-- A keypair as sending sees it. -/
def NoiseKeypair.sending (v : NoiseKeypair) : Bool × ℤ × ℕ :=
  (v.kpCanSend, v.kpBirthdate, v.kpNonceSend)

structure NoiseKeypair.Usable (v : NoiseKeypair) (now : ℤ) : Prop where
  canSend : v.kpCanSend
  fresh : ¬ noiseTimerExpired now v.kpBirthdate rejectAfterTime 0
  left : v.kpNonceSend < rejectAfterMessages

theorem usable_congr {v w : NoiseKeypair} (h : v.sending = w.sending) (now : ℤ) :
    v.Usable now ↔ w.Usable now := by
  simp only [NoiseKeypair.sending, Prod.mk.injEq] at h
  obtain ⟨h1, h2, h3⟩ := h
  constructor
  · rintro ⟨a, b, c⟩
    exact ⟨h1 ▸ a, h2 ▸ b, h3 ▸ c⟩
  · rintro ⟨a, b, c⟩
    exact ⟨h1.symm ▸ a, h2.symm ▸ b, h3.symm ▸ c⟩

theorem sending_keypairDrop (l : NoiseLocal) (o : Option ℕ) (k : ℕ) :
    ((noiseKeypairDrop l o).keypairs k).sending = (l.keypairs k).sending := by
  cases o with
  | none => rfl
  | some k' =>
    have := modKeypair_of_fixed (l := l) (k := k')
      (f := fun v => { v with kpRefcnt := v.kpRefcnt - 1 }) NoiseKeypair.sending rfl k
    unfold noiseKeypairDrop noiseKeypairPut
    simp only []
    split <;> exact this

theorem sending_addNewKeypair (l : NoiseLocal) (r k k' : ℕ) :
    ((noiseAddNewKeypair l r k).keypairs k').sending = (l.keypairs k').sending := by
  rw [addNewKeypair_eq]
  set l₃ := noiseKeypairDrop _ _ with hl₃
  have hsettle : ((noiseSettle l₃ r k).keypairs k').sending = (l₃.keypairs k').sending :=
    modKeypair_of_fixed (f := fun kp => { kp with
      iLocalIndex := (l₃.remotes r).iLocalIndex, iRemoteIndex := (l₃.remotes r).iRemoteIndex })
      NoiseKeypair.sending rfl k'
  rw [hsettle, hl₃, sending_keypairDrop, sending_keypairDrop, modRemote_keypairs]

/-- A new keypair can send from its birth, and the others as before. -/
theorem sending_beginSession (p : Prims) (l : NoiseLocal) (r : ℕ) (birth : ℤ) (k : ℕ) :
    ((noiseBeginSession p l r birth).keypairs k).sending
      = if k = l.nKeypairs then (true, birth, 0) else (l.keypairs k).sending := by
  unfold noiseBeginSession
  simp only [sending_addNewKeypair, noiseRemoteRef, modRemote_keypairs,
    Function.update_apply]
  split <;> rfl

/-! ## Sending -/

/-- There is a current keypair for the peer in slot `i`, and it has a counter left to send with. -/
def CanSend (s : WgSession) (i : ℕ) (now : Moment) : Prop :=
  ∃ r l k l' nonce, (s.peers i).remote = some r
    ∧ noiseKeypairCurrent s.noise r now.getsbinuptime = (l, some k)
    ∧ noiseKeypairNonceNext l k = (l', some nonce)

theorem keypairCurrent_of_usable {ρ : Refs} (h : Counted l ρ) {r k : ℕ} {now : ℤ}
    (hk : (l.remotes r).rCurrent = some k) (hu : (l.keypairs k).Usable now) :
    noiseKeypairCurrent l r now = (noiseKeypairRef l k, some k) := by
  have hslot : k ∈ l.slots r := by simp [NoiseLocal.slots, NoiseRemote.link, RemoteLink.slots, hk]
  have hc := h.keypairCount k (.inl ((h.slotRemote r k hslot).symm ▸ hslot))
  unfold noiseKeypairCurrent
  simp only [hk]
  rw [if_pos hu.canSend, if_neg hu.fresh, if_neg (by omega)]

theorem nonceNext_ref (l : NoiseLocal) {k : ℕ} {now : ℤ} (hu : (l.keypairs k).Usable now) :
    ∃ l', noiseKeypairNonceNext (noiseKeypairRef l k) k
      = (l', some (l.keypairs k).kpNonceSend) := by
  unfold noiseKeypairNonceNext noiseKeypairRef
  simp only [modKeypair_keypairs, if_true]
  rw [if_pos hu.canSend, if_pos hu.left]
  exact ⟨_, rfl⟩

theorem canSend_iff (h : Accounted p s) (i : ℕ) (now : Moment) : CanSend s i now ↔
    ∃ r k, (s.peers i).remote = some r ∧ (s.noise.remotes r).rCurrent = some k
      ∧ (s.noise.keypairs k).Usable now.getsbinuptime := by
  constructor
  · rintro ⟨r, l, k, l', nonce, hr, hcur, hn⟩
    obtain ⟨hk, hsend, hexp, rfl⟩ := keypairCurrent_some hcur
    refine ⟨r, k, hr, hk, hsend, hexp, ?_⟩
    unfold noiseKeypairNonceNext noiseKeypairRef at hn
    simp only [modKeypair_keypairs, if_true, hsend] at hn
    split at hn
    · assumption
    · simp at hn
  · rintro ⟨r, k, hr, hk, hu⟩
    obtain ⟨l', hl'⟩ := nonceNext_ref s.noise hu
    exact ⟨r, _, k, l', _, hr, keypairCurrent_of_usable h.counted hk hu, hl'⟩

/-- `wgsEncap` sends a packet where it fits, the peer has an address and can be sent to, and there is
memory for it. -/
theorem encap_sends_iff (hp : p.Lawful) (s : WgSession) (i : ℕ) (plain : Bytes) (env : EncapEnv) :
    (wgsEncap p s i plain env).1 = 0
      ↔ (s.peers i).endpointLen ≠ 0 ∧ plain.length ≤ 2000 ∧ CanSend s i env.check ∧ env.memory := by
  unfold wgsEncap
  simp only []
  obtain ⟨padded, hpad, hle, hge⟩ : ∃ padded,
      (if (plain.length + 15) / 16 * 16 = 0 then 16 else (plain.length + 15) / 16 * 16) = padded
        ∧ (padded ≤ 2000 ↔ plain.length ≤ 2000) ∧ plain.length ≤ padded := by
    refine ⟨_, rfl, ?_⟩
    split <;> omega
  rw [hpad]
  split
  · next h0 => simp [h0]
  next h0 =>
  split
  · next hlong => simp [Nat.not_le.mp (mt hle.mpr (Nat.not_le.mpr hlong))]
  next hshort =>
  have hfit : plain.length ≤ 2000 := hle.mp (Nat.not_lt.mp hshort)
  split
  · next hr => simp [CanSend, hr]
  next r hr =>
  split
  · next l hl => simp [CanSend, hr, hl]
  next l k hl =>
  split
  · next l' hn => simp [CanSend, hr, hl, hn]
  next l' nonce hn =>
  split
  · next hm => simp [hm]
  next hm =>
  split
  · next hbig =>
    simp only [noiseKeypairEncrypt, dataHdrBytes, List.length_append, length_le32enc, length_leEnc,
      hp.lengthSealed, zeros, List.length_replicate] at hbig
    omega
  · simp [CanSend, hr, hl, hn, h0, hfit, not_not.mp hm]

/-! ## The two ends of a handshake -/

/-- The initiation is taken in as the peer's in slot `j`. -/
def TakenFrom (p : Prims) (s : WgSession) (bytes : Bytes) (env : ResponderEnv) (j : ℕ) : Prop :=
  ∃ l r, (s.peers j).active ∧ (s.peers j).remote = some r
    ∧ noiseConsumeInitiation p s.noise (le32dec (slice 4 4 bytes)) (initiationOf bytes) env
      = some (l, some r)

theorem handleInitiation_answered {bytes : Bytes} {src : Sockaddr} {srcLen : ℕ} {env : ResponderEnv}
    {out : List Upcall} (hs : wgsHandleInitiation p s bytes src srcLen env = some (0, s', out)) :
    ∃ l r l' sIdx rIdx msg,
      noiseConsumeInitiation p s.noise (le32dec (slice 4 4 bytes)) (initiationOf bytes) env
          = some (l, some r)
        ∧ noiseCreateResponse p l r env = (l', some (sIdx, rIdx, msg))
        ∧ s' = (s.modPeer (l.remotes r).rArg fun peer =>
          { peer with
            cookie := (cookieMakerMac p (s.peers (l.remotes r).rArg).cookie
              (responseBytes sIdx rIdx msg) env.mac).1
            endpoint := src
            endpointLen := srcLen
            keypairBirth := env.finish.time
            lastAuthdTx := env.finish.time
            hsPending := false }).setNoise (noiseRemotePut l' r)
        ∧ out = [.sendUdp (responseBytes sIdx rIdx msg
          ++ (cookieMakerMac p (s.peers (l.remotes r).rArg).cookie
            (responseBytes sIdx rIdx msg) env.mac).2.bytes) src srcLen] := by
  unfold wgsHandleInitiation at hs
  split at hs
  · simp at hs
  split at hs
  · simp at hs
  rw [Option.map_eq_some_iff] at hs
  obtain ⟨⟨l, res⟩, hc, hs⟩ := hs
  cases res with
  | none => simp at hs
  | some r =>
    simp only [] at hs
    split at hs
    · simp at hs
    · next l' sIdx rIdx msg hn =>
      simp only [Prod.mk.injEq] at hs
      exact ⟨l, r, l', sIdx, rIdx, msg, hc, hn, hs.2.1.symm, hs.2.2.symm⟩

theorem handleResponse_completed {bytes : Bytes} {env : ConsumeEnv} {out : List Upcall}
    (hs : wgsHandleResponse p s bytes env = (0, s', out)) :
    ∃ i l r, findPending s (le32dec (slice 8 4 bytes)) = some i
      ∧ noiseConsumeResponse p s.noise (le32dec (slice 4 4 bytes)) (le32dec (slice 8 4 bytes))
        (responseOf bytes) env.birth = (l, some r)
      ∧ (s.peers i).remote = some r
      ∧ s' = (s.modPeer i fun peer =>
        { peer with hsPending := false, hsAttempts := 0, keypairBirth := env.finish.time }).setNoise
          (noiseRemotePut l r)
      ∧ out = [] := by
  unfold wgsHandleResponse at hs
  split at hs
  · simp at hs
  split at hs
  · simp at hs
  next i hfind =>
  split at hs
  · simp at hs
  next l r hc =>
  split at hs
  · simp at hs
  next hr =>
  simp only [Prod.mk.injEq] at hs
  exact ⟨i, l, r, hfind, hc, (not_not.mp hr).symm, hs.2.1.symm, hs.2.2.symm⟩

theorem indexInsert_keypairs {r : ℕ} {draws : List UInt32}
    (h : noiseRemoteIndexInsert l r draws = some l') :
    l'.keypairs = l.keypairs ∧ l'.nKeypairs = l.nKeypairs := by
  obtain ⟨i, -, rfl⟩ := indexInsert_eq h
  unfold noiseRemoteIndexRemove
  split <;> exact ⟨rfl, rfl⟩

/-- Answering leaves the current keypair as it was. -/
theorem answer_canSend (h : Accounted p s) {bytes : Bytes} {src : Sockaddr} {srcLen : ℕ}
    {env : ResponderEnv} {out : List Upcall}
    (hs : wgsHandleInitiation p s bytes src srcLen env = some (0, s', out)) :
    ∃ j, TakenFrom p s bytes env j ∧ ∀ now, CanSend s' j now ↔ CanSend s j now := by
  have href : Refines p .all s s' := handleInitiation_refines h (.inl trivial) trivial hs
  have h' := href.1
  obtain ⟨l, r, l', sIdx, rIdx, msg, hc, hn, rfl, -⟩ := handleInitiation_answered hs
  obtain ⟨-, hmem, -, idx, hlink⟩ := h.counted.consumeInitiation_some hc
  obtain ⟨j, t, ht, rfl⟩ := (h.ledger.owned r).mp ((h.ledger.enabled r).mp hmem)
  obtain ⟨ha, hr⟩ := active_of_tenant ht
  refine ⟨j, ⟨l, t.remote, ha, hr, hc⟩, fun now => ?_⟩
  obtain ⟨recv, hlink'⟩ := links_createResponse_some hn
  set s' := (s.modPeer _ _).setNoise (noiseRemotePut l' t.remote) with hs'
  have hrem : (s'.peers j).remote = some t.remote := by
    rw [← hr, hs', setNoise_peers]
    exact modPeer_of_fixed WgsPeer.remote (by rfl) j
  have hcur : (s'.noise.remotes t.remote).rCurrent = (s.noise.remotes t.remote).rCurrent := by
    have : (s'.noise.links.remotes t.remote).current = (s.noise.links.remotes t.remote).current := by
      rw [hs', setNoise_noise, links_remotePut, hlink', hlink]
      simp only [Links.pushKeypair, Links.modRemote_remotes, if_true, RemoteLink.answered]
    exact this
  have hsend : ∀ k < s.noise.nKeypairs,
      (s'.noise.keypairs k).sending = (s.noise.keypairs k).sending := fun k hk => by
    obtain ⟨-, _, _, _, _, _, l₁, -, -, -, -, -, hl₁, rfl⟩ := consumeInitiation_some hc
    obtain ⟨-, hshake, -, rfl, -, -⟩ := createResponse_some hn
    obtain ⟨h1, h2⟩ := indexInsert_keypairs hl₁
    have hne : k ≠ l₁.nKeypairs := by
      rw [h2]
      exact hk.ne
    show (NoiseKeypair.sending _) = _
    rw [hs', setNoise_noise, noiseRemotePut, modRemote_keypairs, modRemote_keypairs,
      sending_beginSession, modRemote_nKeypairs, modRemote_nKeypairs, if_neg hne,
      modRemote_keypairs, modRemote_keypairs, h1]
    rfl
  rw [canSend_iff h, canSend_iff h']
  simp only [hrem, hr, Option.some.injEq]
  constructor
  · rintro ⟨_, k, rfl, hk, hu⟩
    rw [hcur] at hk
    have hslot : k ∈ s.noise.slots t.remote := by
      simp [NoiseLocal.slots, NoiseRemote.link, RemoteLink.slots, hk]
    refine ⟨_, k, rfl, hk, (usable_congr (hsend k (h.counted.heldFresh k (.inl ?_))) _).mp hu⟩
    rwa [h.counted.slotRemote _ k hslot]
  · rintro ⟨_, k, rfl, hk, hu⟩
    have hslot : k ∈ s.noise.slots t.remote := by
      simp [NoiseLocal.slots, NoiseRemote.link, RemoteLink.slots, hk]
    refine ⟨_, k, rfl, hcur.trans hk, (usable_congr (hsend k (h.counted.heldFresh k (.inl ?_))) _).mpr hu⟩
    rwa [h.counted.slotRemote _ k hslot]

/-- Taking in a response makes the new keypair the current one. -/
theorem completion_canSend (h : Accounted p s) {bytes : Bytes} {env : ConsumeEnv}
    {out : List Upcall} (hs : wgsHandleResponse p s bytes env = (0, s', out)) :
    out = [] ∧ ∃ i, findPending s (le32dec (slice 8 4 bytes)) = some i ∧ ∀ now, CanSend s' i now
      ↔ ¬ noiseTimerExpired now.getsbinuptime env.birth.getsbinuptime rejectAfterTime 0 := by
  have href : Refines p .all s s' := handleResponse_refines h trivial hs
  have h' := href.1
  obtain ⟨i, l, r, hfind, hc, hr, rfl, rfl⟩ := handleResponse_completed hs
  refine ⟨rfl, i, hfind, fun now => ?_⟩
  obtain ⟨-, recv, hlink⟩ := h.counted.consumeResponse_some rfl rfl rfl hc
  obtain ⟨-, -, -, -, -, hshake, -, rfl⟩ := consumeResponse_some hc
  set s' := (s.modPeer i _).setNoise (noiseRemotePut _ r) with hs'
  have hrem : (s'.peers i).remote = some r := by
    rw [← hr, hs', setNoise_peers]
    exact modPeer_of_fixed WgsPeer.remote (by rfl) i
  have hcur : (s'.noise.remotes r).rCurrent = some s.noise.nKeypairs := by
    have : (s'.noise.links.remotes r).current = some s.noise.nKeypairs := by
      rw [hs', setNoise_noise, links_remotePut, hlink]
      simp only [Links.pushKeypair, Links.modRemote_remotes, if_true, RemoteLink.completed]
    exact this
  have hsend : (s'.noise.keypairs s.noise.nKeypairs).sending
      = (true, env.birth.getsbinuptime, 0) := by
    rw [hs', setNoise_noise, noiseRemotePut, modRemote_keypairs, sending_beginSession]
    exact if_pos rfl
  simp only [NoiseKeypair.sending, Prod.mk.injEq] at hsend
  rw [canSend_iff h']
  simp only [hrem, Option.some.injEq]
  constructor
  · rintro ⟨_, k, rfl, hk, hu⟩
    rw [hcur] at hk
    obtain rfl := Option.some.inj hk
    rw [← hsend.2.1]
    exact hu.fresh
  · intro hexp
    exact ⟨r, _, rfl, hcur, hsend.1, hsend.2.1.symm ▸ hexp, hsend.2.2.symm ▸ by decide⟩

/-- A datagram is sent for one that came in only where that is an initiation, in answer to it. -/
theorem handleUdp_answered {bytes rsp : Bytes} {src dst : Sockaddr} {srcLen dstLen : ℕ}
    {env : UdpEnv} {rc : Int}
    (hs : wgSessionHandleUdp p s bytes src srcLen env = some (rc, s', [.sendUdp rsp dst dstLen])) :
    wgsHandleInitiation p s bytes src srcLen env.initiation
      = some (rc, s', [.sendUdp rsp dst dstLen]) := by
  unfold wgSessionHandleUdp at hs
  simp only [] at hs
  split at hs
  · simp at hs
  split at hs
  · have hd := Option.some.inj hs
    by_cases hacc : ∃ k m, Accepts p s bytes env.data k m
    · obtain ⟨k, m, hacc⟩ := hacc
      rw [handleData_accepts hacc] at hd
      unfold wgsDeliver at hd
      simp only [] at hd
      split_ifs at hd
      · simp at hd
      · split at hd
        · simp at hd
        · split_ifs at hd <;> simp at hd
    · rw [handleData_rejects hacc] at hd
      simp at hd
  split at hs
  · exact hs
  split at hs
  · have := (handleResponse_steady (Option.some.inj hs)).2
    cases this
  split at hs
  · have := (handleCookie_steady (Option.some.inj hs)).2
    cases this
  · simp at hs

theorem handleUdp_response {bytes : Bytes} (ht : le32dec (bytes.take 4) = wgsPktResponse)
    (hlen : 4 ≤ bytes.length) (p : Prims) (s : WgSession) (src : Sockaddr) (srcLen : ℕ)
    (env : UdpEnv) : wgSessionHandleUdp p s bytes src srcLen env
      = some (wgsHandleResponse p s bytes env.response) := by
  unfold wgSessionHandleUdp
  simp only []
  rw [if_neg (by omega), ht, if_neg (by decide), if_neg (by decide), if_pos rfl]

theorem responseBytes_type (sIdx rIdx : UInt32) (msg : Response) (macs : Bytes) :
    le32dec ((responseBytes sIdx rIdx msg ++ macs).take 4) = wgsPktResponse
      ∧ 4 ≤ (responseBytes sIdx rIdx msg ++ macs).length := by
  simp only [responseBytes, List.append_assoc]
  refine ⟨?_, ?_⟩
  · rw [List.take_left' (length_le32enc _), le32dec_le32enc]
  · rw [List.length_append, length_le32enc]
    omega

/-- `a` sent the initiation in a run before, `b` answers it, and `a` takes in the answer: the ends
before and after. -/
structure Completed (p : Prims) (a b a' b' : WgSession) (ini rsp : Bytes) (envA envB : UdpEnv)
    (out : List Upcall) : Prop where
  sent : ∃ a₀ call a₁ out₁ dst dstLen calls, ReachableIf p (fun _ _ => True) a₀
    ∧ sessionStep p a₀ call = some (a₁, out₁) ∧ .sendUdp ini dst dstLen ∈ out₁
    ∧ Run (sessionStep p) (fun _ _ => True) a₁ calls a
  answered : ∃ src srcLen,
    wgSessionHandleUdp p b ini src srcLen envB = some (0, b', [.sendUdp rsp src srcLen])
  consumed : ∃ src srcLen, wgSessionHandleUdp p a rsp src srcLen envA = some (0, a', out)

theorem Completed.reachable {a b a' b' : WgSession} {ini rsp : Bytes} {envA envB : UdpEnv}
    {out : List Upcall} (h : Completed p a b a' b' ini rsp envA envB out) :
    ReachableIf p (fun _ _ => True) a := by
  obtain ⟨a₀, call, a₁, out₁, -, -, calls, h0, h1, -, hrun⟩ := h.sent
  exact h0.run (.cons trivial h1 hrun)

/-- A completed handshake leaves nothing to be delivered, and both ends can send if and only if the
initiator's keypair has not expired and the responder could send before it answered. -/
theorem opens_both_iff {a b a' b' : WgSession} {ini rsp : Bytes} {envA envB : UdpEnv}
    {out : List Upcall} (hb : ReachableIf p (fun _ _ => True) b)
    (h : Completed p a b a' b' ini rsp envA envB out) :
    out = [] ∧ ∃ i j, findPending a (le32dec (slice 8 4 rsp)) = some i
      ∧ TakenFrom p b ini envB.initiation j
      ∧ ∀ now, CanSend a' i now ∧ CanSend b' j now ↔
        ¬ noiseTimerExpired now.getsbinuptime envA.response.birth.getsbinuptime rejectAfterTime 0
          ∧ CanSend b j now := by
  have ha := reachable_accounted h.reachable
  obtain ⟨-, ⟨src, srcLen, hans⟩, ⟨src', srcLen', hcons⟩⟩ := h
  have hans := handleUdp_answered hans
  obtain ⟨j, hj, hb'⟩ := answer_canSend (reachable_accounted hb) hans
  obtain ⟨_, _, _, sIdx, rIdx, msg, -, -, -, hrsp⟩ := handleInitiation_answered hans
  simp only [List.cons.injEq, Upcall.sendUdp.injEq, and_true] at hrsp
  obtain ⟨ht, hlen⟩ : le32dec (rsp.take 4) = wgsPktResponse ∧ 4 ≤ rsp.length := by
    rw [hrsp]
    exact responseBytes_type sIdx rIdx msg _
  rw [handleUdp_response ht hlen] at hcons
  obtain ⟨hout, i, hi, ha'⟩ := completion_canSend ha (Option.some.inj hcons)
  refine ⟨hout, i, j, hi, hj, fun now => ?_⟩
  rw [ha', hb']

/-! ## Two handshakes in a row -/

namespace Specimen

/-- A handshake: A before, once the call has dialled B, and after, B before and after, and the
initiation and the response. -/
structure Exchange where
  start : WgSession
  a : WgSession
  a' : WgSession
  b : WgSession
  b' : WgSession
  ini : List Upcall
  rsp : List Upcall
  rcA : Int
  rcB : Int
  out : List Upcall

/-- A handshake at `t`, under the indices `idx` and 9, from these ends. -/
def exchange (call : Call) (t : ℕ) (idx : UInt32) (start b : WgSession) : Option Exchange := do
  let (a, ini) ← sessionStep specimen start call
  let (rcB, b', rsp) ← wgSessionHandleUdp specimen b (sent ini) hostA 16 (intake t idx)
  let (rcA, a', out) ← wgSessionHandleUdp specimen a (sent rsp) hostB 16 (intake t 9)
  pure { start, a, a', b, b', ini, rsp, rcA, rcB, out }

/-- The first handshake of A and B. -/
def first : Option Exchange := do
  exchange (.kick (dial 100 7)) 100 8 (← sessionA) (← sessionB)

/-- A tick 130 seconds later. -/
def redial : Call :=
  .tick ⟨instant 230, fun _ => dial 230 17, fun _ => ⟨instant 230, instant 230, true⟩⟩

/-- Once a packet has come to B under the first handshake's keypair, A rekeys. -/
def second : Option Exchange := do
  let x ← first
  let (a, data) ← sessionStep specimen x.a' (.handleTun packet ⟨instant 101, instant 101, true⟩)
  let (b, _) ← sessionStep specimen x.b' (.handleUdp (sent data) hostA 16 (intake 101 0))
  exchange redial 230 18 a b

/-- The calls gave what they should: an initiation to B, its answer, and its completion. -/
def Exchange.Regular (x : Exchange) : Prop :=
  x.ini = [.sendUdp (sent x.ini) hostB 16] ∧ x.rsp = [.sendUdp (sent x.rsp) hostA 16]
    ∧ x.rcA = 0 ∧ x.rcB = 0

instance (x : Exchange) : Decidable x.Regular := inferInstanceAs (Decidable (_ ∧ _))

theorem exchange_completed {call : Call} {t : ℕ} {idx : UInt32} {start b : WgSession} {x : Exchange}
    (h : exchange call t idx start b = some x) (hr : x.Regular)
    (hs : ReachableIf specimen (fun _ _ => True) start) :
    Completed specimen x.a x.b x.a' x.b' (sent x.ini) (sent x.rsp) (intake t 9) (intake t idx) x.out
      ∧ x.b = b := by
  simp only [exchange, Option.bind_eq_bind, Option.bind_eq_some_iff, Option.pure_def,
    Option.some.injEq] at h
  obtain ⟨⟨a, ini⟩, h1, ⟨rcB, b', rsp⟩, h2, ⟨rcA, a', out⟩, h3, rfl⟩ := h
  obtain ⟨hini, hrsp, hA, hB⟩ := hr
  simp only [] at hini hrsp hA hB h2 h3
  subst hA hB
  refine ⟨⟨⟨start, call, a, ini, hostB, 16, [], hs, h1, ?_, .nil a⟩, ⟨hostA, 16, ?_⟩,
    ⟨hostB, 16, h3⟩⟩, rfl⟩
  · rw [hini]
    exact List.mem_singleton.mpr rfl
  · rw [h2]
    exact congrArg (fun o => some (0, b', o)) hrsp

theorem first_completed {x : Exchange} (h : first = some x) (hr : x.Regular) :
    Completed specimen x.a x.b x.a' x.b' (sent x.ini) (sent x.rsp) (intake 100 9) (intake 100 8) x.out
      ∧ ReachableIf specimen (fun _ _ => True) x.b := by
  simp only [first, Option.bind_eq_bind, Option.bind_eq_some_iff] at h
  obtain ⟨a, ha, b, hb, h⟩ := h
  obtain ⟨hc, rfl⟩ := exchange_completed h hr ⟨a, [], ⟨_, _, ha⟩, .nil a⟩
  exact ⟨hc, x.b, [], ⟨_, _, hb⟩, .nil _⟩

theorem second_completed {x : Exchange} (h : second = some x) (hr : x.Regular) :
    Completed specimen x.a x.b x.a' x.b' (sent x.ini) (sent x.rsp) (intake 230 9) (intake 230 18) x.out
      ∧ ReachableIf specimen (fun _ _ => True) x.b := by
  simp only [second, first, exchange, Option.bind_eq_bind, Option.bind_eq_some_iff, Option.pure_def,
    Option.some.injEq] at h
  obtain ⟨_, ⟨a, ha, b, hb, ⟨a₁, ini⟩, h1, ⟨_, b₁, rsp⟩, h2, ⟨_, a₂, _⟩, h3, rfl⟩, ⟨a₃, data⟩, h4,
    ⟨b₂, _⟩, h5, h⟩ := h
  have step : ∀ {s s' : WgSession} {rc : Int} {out : List Upcall} {bytes : Bytes} {src : Sockaddr}
      {env : UdpEnv}, wgSessionHandleUdp specimen s bytes src 16 env = some (rc, s', out) →
      sessionStep specimen s (.handleUdp bytes src 16 env) = some (s', out) :=
    fun h => congrArg (Option.map Prod.snd) h
  have hx : exchange redial 230 18 a₃ b₂ = some x := by
    simpa only [exchange, Option.bind_eq_bind, Option.bind_eq_some_iff, Option.pure_def,
      Option.some.injEq] using h
  obtain ⟨hc, rfl⟩ := exchange_completed hx hr
    ⟨a, _, ⟨_, _, ha⟩, .cons trivial h1 (.cons trivial (step h3) (.cons trivial h4 (.nil _)))⟩
  exact ⟨hc, b, _, ⟨_, _, hb⟩, .cons trivial (step h2) (.cons trivial h5 (.nil _))⟩

end Specimen

theorem opens_both_iff_second : ∃ x, second = some x ∧ x.out = []
    ∧ ∃ i j, findPending x.a (le32dec (slice 8 4 (sent x.rsp))) = some i
      ∧ TakenFrom specimen x.b (sent x.ini) (intake 230 18).initiation j
      ∧ (CanSend x.a' i (instant 231) ∧ CanSend x.b' j (instant 231) ↔
        ¬ noiseTimerExpired 231000000000 230000000000 rejectAfterTime 0
          ∧ CanSend x.b j (instant 231)) := by
  have hrun : second.any (fun x => decide x.Regular) = true := by decide +kernel
  obtain ⟨x, h, hr⟩ := (Option.any_eq_true _ _).mp hrun
  obtain ⟨hc, hb⟩ := second_completed h (of_decide_eq_true hr)
  obtain ⟨hout, i, j, hi, hj, hiff⟩ := opens_both_iff hb hc
  exact ⟨x, h, hout, i, j, hi, hj, hiff (instant 231)⟩

/-- After every handshake of two ends that are each other's peers, both can send. -/
def OpensBoth (p : Prims) : Prop :=
  ∀ a b a' b' ini rsp envA envB i j, ReachableIf p (fun _ _ => True) b →
    Completed p a b a' b' ini rsp envA envB [] →
    findPending a (le32dec (slice 8 4 rsp)) = some i → TakenFrom p b ini envB.initiation j →
    (a.peers i).pubkey = b.noise.lPublic → (b.peers j).pubkey = a.noise.lPublic →
    CanSend a' i envA.response.finish ∧ CanSend b' j envA.response.finish

/-- After the first handshake, B has no current keypair. -/
theorem opens_one : ¬ OpensBoth specimen := by
  have hrun : first.any (fun x => decide (x.Regular ∧ x.out = [] ∧ x.b.nPeers = 1
      ∧ findPending x.a (le32dec (slice 8 4 (sent x.rsp))) = some 0
      ∧ (x.a.peers 0).pubkey = x.b.noise.lPublic ∧ (x.b.peers 0).pubkey = x.a.noise.lPublic
      ∧ (x.b'.peers 0).remote = some 0 ∧ (x.b'.noise.remotes 0).rCurrent = none)) = true := by
    decide +kernel
  obtain ⟨x, h, hx⟩ := (Option.any_eq_true _ _).mp hrun
  obtain ⟨hr, hout, hn, hi, hA, hB, hrem, hcur⟩ := of_decide_eq_true hx
  obtain ⟨hc, hb⟩ := first_completed h hr
  obtain ⟨src, srcLen, hans⟩ := hc.answered
  obtain ⟨j, hj, -⟩ := answer_canSend (reachable_accounted hb) (handleUdp_answered hans)
  obtain ⟨l₀, r₀, hact, htaken⟩ := hj
  have hlt := (reachable_accounted hb).range j hact
  obtain rfl : j = 0 := by
    rw [show x.b.nPeers = 1 from hn] at hlt
    omega
  intro hopen
  obtain ⟨-, r, l, k, l', nonce, hr', hk, -⟩ :=
    hopen _ _ _ _ _ _ _ _ 0 0 hb (hout ▸ hc) hi ⟨l₀, r₀, hact, htaken⟩ hA hB
  obtain rfl : (0 : ℕ) = r := Option.some.inj (hrem.symm.trans hr')
  have := (keypairCurrent_some hk).1
  rw [show (x.b'.noise.remotes 0).rCurrent = none from hcur] at this
  cases this

end PolarWG
