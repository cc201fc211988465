import PolarWG.Proofs.Replay
import PolarWG.Proofs.Receive

/-!
# From one end to the other

A datagram of one session at an end that holds the matching keypair. Padding, encryption, header and
trimming come to nothing for a packet that is as long as it says. A keepalive is padded to sixteen
zeros like any packet, and no padded text is the empty one that the other end looks for.
-/

namespace PolarWG

open Specimen

variable {p : Prims} {a a' b : WgSession} {i r k k' : ℕ}

/-! ## Matching keypairs -/

/-- `k'` at one end opens what `k` seals at the other: it has the index that `k` sends to and the key
that `k` sends with, and it is still good. -/
structure Matching (l l' : NoiseLocal) (k k' : ℕ) (now : Moment) : Prop where
  lookup : (noiseKeypairLookup l' (l.keypairs k).iRemoteIndex).2 = some k'
  key : (l'.keypairs k').kpRecv = (l.keypairs k).kpSend
  counter : (l'.keypairs k').kpNonceRecv < rejectAfterMessages
  fresh : ¬ noiseTimerExpired now.getsbinuptime (l'.keypairs k').kpBirthdate rejectAfterTime 0

/-- What keypair `k` makes of a text. -/
def sealedData (p : Prims) (l : NoiseLocal) (k nonce : ℕ) (m : Bytes) : Bytes :=
  dataHdrBytes (l.keypairs k).iRemoteIndex nonce
    ++ p.chacha20poly1305Encrypt (l.keypairs k).kpSend nonce [] m

theorem sealedData_fields (p : Prims) (l : NoiseLocal) (k : ℕ) {nonce : ℕ} (hn : nonce < 2 ^ 64)
    (m : Bytes) : le32dec (slice 0 4 (sealedData p l k nonce m)) = wgsPktData
      ∧ le32dec (slice 4 4 (sealedData p l k nonce m)) = (l.keypairs k).iRemoteIndex
      ∧ leDec (slice 8 8 (sealedData p l k nonce m)) = nonce
      ∧ (sealedData p l k nonce m).drop 16
        = p.chacha20poly1305Encrypt (l.keypairs k).kpSend nonce [] m := by
  unfold sealedData
  generalize p.chacha20poly1305Encrypt (l.keypairs k).kpSend nonce [] m = c
  generalize (l.keypairs k).iRemoteIndex = idx
  have h4 : (le32enc wgsPktData).length = 4 := length_le32enc _
  have hi : (le32enc idx).length = 4 := length_le32enc _
  have h8 : (leEnc 8 nonce).length = 8 := length_leEnc 8 nonce
  have hidx : slice 4 4 (dataHdrBytes idx nonce ++ c) = le32enc idx := by
    rw [slice, dataHdrBytes, List.append_assoc, List.append_assoc, List.drop_left' h4,
      List.take_left' hi]
  have hnonce : slice 8 8 (dataHdrBytes idx nonce ++ c) = leEnc 8 nonce := by
    rw [slice, dataHdrBytes, List.append_assoc, List.drop_left' (by simp), List.take_left' h8]
  refine ⟨?_, by rw [hidx, le32dec_le32enc], ?_, List.drop_left' (by simp [dataHdrBytes])⟩
  · rw [slice, List.drop_zero, dataHdrBytes, List.append_assoc, List.append_assoc,
      List.take_left' h4, le32dec_le32enc]
  · rw [hnonce, leDec_leEnc]
    exact Nat.mod_eq_of_lt hn

theorem accepts_sealed (hp : p.Lawful) {now : Moment} (h : Matching a.noise b.noise k k' now)
    {nonce : ℕ} (hn : nonce < 2 ^ 64) (m : Bytes) :
    Accepts p b (sealedData p a.noise k nonce m) now k' m := by
  obtain ⟨-, hidx, hnonce, hrest⟩ := sealedData_fields p a.noise k hn m
  refine ⟨?_, ?_, ?_⟩
  · simp only [sealedData, dataHdrBytes, List.length_append, length_le32enc, length_leEnc,
      hp.lengthSealed]
    omega
  · rw [hidx]
    exact h.lookup
  · rw [hnonce, hrest, noiseKeypairDecrypt,
      if_neg (not_or.mpr ⟨Nat.not_le.mpr h.counter, h.fresh⟩), if_neg (by rw [hp.lengthSealed]; omega),
      h.key]
    exact hp.opened _ _ _ _

/-! ## Sending -/

/-- The text that is sealed for a packet. -/
def paddedText (plain : Bytes) : Bytes :=
  let padded := (plain.length + 15) / 16 * 16
  let padded := if padded = 0 then 16 else padded
  plain ++ zeros (padded - plain.length)

theorem nonceNext_lt {l l' : NoiseLocal} {k nonce : ℕ}
    (h : noiseKeypairNonceNext l k = (l', some nonce)) : nonce < 2 ^ 64 := by
  unfold noiseKeypairNonceNext at h
  simp only [] at h
  split at h
  · split at h
    · next hlt =>
      simp only [Prod.mk.injEq, Option.some.injEq] at h
      obtain ⟨-, rfl⟩ := h
      exact hlt.trans (by decide)
    · simp at h
  · simp at h

theorem nonceNext_keypairs {l l' : NoiseLocal} {k : ℕ} {o : Option ℕ}
    (h : noiseKeypairNonceNext l k = (l', o)) :
    (l'.keypairs k).iRemoteIndex = (l.keypairs k).iRemoteIndex
      ∧ (l'.keypairs k).kpSend = (l.keypairs k).kpSend := by
  unfold noiseKeypairNonceNext at h
  simp only [] at h
  repeat' split at h
  all_goals
    simp only [Prod.mk.injEq] at h
    obtain ⟨rfl, -⟩ := h
    simp only [modKeypair_keypairs, if_true, and_self]

/-- What goes out for a packet is sealed with the peer's current keypair. -/
theorem encap_sealed {plain : Bytes} {env : EncapEnv} {out : List Upcall}
    (hs : wgsEncap p a i plain env = (0, a', out)) : ∃ r k nonce, (a.peers i).remote = some r
      ∧ (a.noise.remotes r).rCurrent = some k ∧ nonce < 2 ^ 64
      ∧ out = [.sendUdp (sealedData p a.noise k nonce (paddedText plain)) (a.peers i).endpoint
        (a.peers i).endpointLen] := by
  unfold wgsEncap at hs
  simp only [] at hs
  unfold paddedText
  simp only []
  generalize (if (plain.length + 15) / 16 * 16 = 0 then 16 else (plain.length + 15) / 16 * 16)
    = padded at hs ⊢
  split at hs
  · simp at hs
  split at hs
  · simp at hs
  split at hs
  · simp at hs
  next r hr =>
  split at hs
  · simp at hs
  next l k hl =>
  obtain ⟨hk, -, -, rfl⟩ := keypairCurrent_some hl
  split at hs
  · simp at hs
  next l' nonce hn =>
  obtain ⟨hidx, hkey⟩ := nonceNext_keypairs hn
  split at hs
  · simp at hs
  split at hs
  · simp at hs
  simp only [Prod.mk.injEq] at hs
  obtain ⟨-, -, rfl⟩ := hs
  refine ⟨r, k, nonce, hr, hk, nonceNext_lt hn, ?_⟩
  simp only [noiseKeypairEncrypt, hidx, hkey, noiseKeypairRef, modKeypair_keypairs, if_true]
  rfl

/-! ## Packets -/

/-- The header of the packet, of either version, gives this total length. -/
def HeaderLength (m : Bytes) (n : ℕ) : Prop :=
  m.headD 0 >>> 4 = 4 ∧ 256 * (m.getD 2 0).toNat + (m.getD 3 0).toNat = n
    ∨ m.headD 0 >>> 4 = 6 ∧ 256 * (m.getD 4 0).toNat + (m.getD 5 0).toNat + 40 = n

theorem be16 (x y : UInt8) : x.toNat <<< 8 ||| y.toNat = 256 * x.toNat + y.toNat := by
  rw [← Nat.shiftLeft_add_eq_or_of_lt (by simpa using y.toNat_lt), Nat.shiftLeft_eq]
  omega

theorem getD_append_of_lt {m t : Bytes} {j : ℕ} (h : j < m.length) :
    (m ++ t).getD j 0 = m.getD j 0 := by
  rw [List.getD_append _ _ _ _ h]

/-- The padding is trimmed from a packet that a session routes. -/
theorem innerIpLen_padded {m : Bytes} (t : Bytes) (h : HeaderLength m m.length)
    (hd : sessionLookupDst a m = some i) : innerIpLen (m ++ t) = some m.length := by
  rcases m with _ | ⟨c, rest⟩
  · cases hd
  simp only [sessionLookupDst] at hd
  simp only [HeaderLength, List.headD_cons] at h
  have hlen : (c :: rest ++ t).length = (c :: rest).length + t.length := List.length_append
  rcases h with ⟨hv, hn⟩ | ⟨hv, hn⟩
  · have h20 : 20 ≤ (c :: rest).length := by
      by_contra hlt
      simp [hv] at hlt hd
      omega
    rw [List.cons_append, innerIpLen]
    simp only [hv, if_true]
    rw [← List.cons_append, getD_append_of_lt (by omega), getD_append_of_lt (by omega), be16, hn,
      if_neg (by omega), if_neg (by omega)]
  · have h40 : 40 ≤ (c :: rest).length := by
      by_contra hlt
      simp [hv] at hlt hd
      omega
    rw [List.cons_append, innerIpLen]
    have h64 : ¬ (6 : UInt8) = 4 := by decide
    simp only [hv, h64, if_false, if_true]
    rw [← List.cons_append, getD_append_of_lt (by omega), getD_append_of_lt (by omega), be16, hn,
      if_neg (by omega), if_neg (by omega)]

/-- A packet that is as long as its header says, and whose source is the sender's, comes out as it
went in, from the one datagram it made. -/
theorem round_trip (hp : p.Lawful) {plain : Bytes} {env : EncapEnv} {envB : UdpEnv}
    {out : List Upcall} (hto : sessionLookupDst a plain = some i)
    (hr : (a.peers i).remote = some r) (hk : (a.noise.remotes r).rCurrent = some k)
    (hm : Matching a.noise b.noise k k' envB.data)
    (hs : wgSessionHandleTun p a plain env = (0, a', out)) (hlen : HeaderLength plain plain.length)
    (hsrc : sessionLookupInnerSrc b plain = some (slotOf b.noise k')) :
    ∃ data dst dstLen, out = [.sendUdp data dst dstLen] ∧ ∀ src srcLen, ∃ b',
      wgSessionHandleUdp p b data src srcLen envB = some (0, b', [.deliverIp plain]) := by
  have henc : wgsEncap p a i plain env = (0, a', out) := by
    unfold wgSessionHandleTun at hs
    split at hs
    · simp at hs
    · rw [hto] at hs
      exact hs
  obtain ⟨r', k₁, nonce, hr', hk', hn, rfl⟩ := encap_sealed henc
  obtain rfl : r' = r := Option.some.inj (hr'.symm.trans hr)
  obtain rfl : k₁ = k := Option.some.inj (hk'.symm.trans hk)
  refine ⟨_, _, _, rfl, fun src srcLen => ?_⟩
  have hacc := accepts_sealed hp hm hn (paddedText plain)
  have htype := (sealedData_fields p a.noise k₁ hn (paddedText plain)).1
  rw [slice, List.drop_zero] at htype
  have h32 := hacc.length
  rw [handleUdp_data htype (by omega), handleData_accepts hacc]
  have hpad : ∃ t, paddedText plain = plain ++ t := ⟨_, rfl⟩
  obtain ⟨t, ht⟩ := hpad
  have hne : ¬ (paddedText plain).length = 0 := by
    rcases plain with _ | ⟨c, rest⟩
    · cases hto
    · simp [paddedText]
  have hinner : innerIpLen (paddedText plain) = some plain.length := by
    rw [ht]
    exact innerIpLen_padded t hlen hto
  have htake : (paddedText plain).take plain.length = plain := by
    rw [ht, List.take_left]
  unfold wgsDeliver
  simp only []
  rw [if_neg hne, hinner]
  have hroute : ∀ f, sessionLookupInnerSrc
      ((b.setNoise (afterReceipt b.noise k')).modPeer (slotOf b.noise k') f) plain
        = some (slotOf b.noise k') := fun _ => hsrc
  simp only [htake, hroute, ne_eq, not_true, if_false]
  exact ⟨_, rfl⟩

namespace Specimen

/-- A and B once A has dialled B and has the answer. -/
def opening : Option (WgSession × WgSession) := do
  let a ← sessionA
  let b ← sessionB
  let (a, ini) ← sessionStep specimen a (.kick (dial 100 7))
  let (b, rsp) ← sessionStep specimen b (.handleUdp (sent ini) hostA 16 (intake 100 8))
  let (a, _) ← sessionStep specimen a (.handleUdp (sent rsp) hostB 16 (intake 100 9))
  pure (a, b)

end Specimen

theorem opening_reachable (h : opening = some (a, b)) :
    ReachableIf specimen (fun _ _ => True) a ∧ ReachableIf specimen (fun _ _ => True) b := by
  simp only [opening, Option.bind_eq_bind, Option.bind_eq_some_iff, Option.pure_def,
    Option.some.injEq, Prod.mk.injEq] at h
  obtain ⟨a₀, ha, b₀, hb, ⟨a₁, o₁⟩, h1, ⟨b₁, o₂⟩, h2, ⟨a₂, o₃⟩, h3, rfl, rfl⟩ := h
  exact ⟨⟨a₀, _, ⟨_, _, ha⟩, .cons trivial h1 (.cons trivial h3 (.nil _))⟩,
    ⟨b₀, _, ⟨_, _, hb⟩, .cons trivial h2 (.nil _)⟩⟩

/-- What the first keypairs of A and B have in common at second 102. -/
def Paired (a b : WgSession) : Prop :=
  (a.peers 0).remote = some 0 ∧ (a.noise.remotes 0).rCurrent = some 0
    ∧ (noiseKeypairLookup b.noise (a.noise.keypairs 0).iRemoteIndex).2 = some 0
    ∧ (b.noise.keypairs 0).kpRecv = (a.noise.keypairs 0).kpSend
    ∧ (b.noise.keypairs 0).kpNonceRecv < rejectAfterMessages
    ∧ ¬ noiseTimerExpired (instant 102).getsbinuptime (b.noise.keypairs 0).kpBirthdate
      rejectAfterTime 0

instance (a b : WgSession) : Decidable (Paired a b) := by
  unfold Paired
  infer_instance

theorem Paired.matching (h : Paired a b) : Matching a.noise b.noise 0 0 (instant 102) :=
  ⟨h.2.2.1, h.2.2.2.1, h.2.2.2.2.1, h.2.2.2.2.2⟩

/-- What the two ends of the opening are after it: A routes and seals the packet to B and its
keepalive too, B has the packet's source on A's slot and refuses the keepalive. -/
theorem opening_paired : ∃ a b, opening = some (a, b) ∧ Paired a b
    ∧ sessionLookupDst a packet = some 0
    ∧ (wgSessionHandleTun specimen a packet ⟨instant 101, instant 101, true⟩).1 = 0
    ∧ sessionLookupInnerSrc b packet = some (slotOf b.noise 0)
    ∧ (wgsEncap specimen a 0 [] ⟨instant 101, instant 101, true⟩).1 = 0
    ∧ (wgsHandleData specimen b (sent (wgsEncap specimen a 0 []
        ⟨instant 101, instant 101, true⟩).2.2) hostA 16 (instant 102)).1 = -1 := by
  have hrun : opening.any (fun x => decide (Paired x.1 x.2
      ∧ sessionLookupDst x.1 packet = some 0
      ∧ (wgSessionHandleTun specimen x.1 packet ⟨instant 101, instant 101, true⟩).1 = 0
      ∧ sessionLookupInnerSrc x.2 packet = some (slotOf x.2.noise 0)
      ∧ (wgsEncap specimen x.1 0 [] ⟨instant 101, instant 101, true⟩).1 = 0
      ∧ (wgsHandleData specimen x.2
        (sent (wgsEncap specimen x.1 0 [] ⟨instant 101, instant 101, true⟩).2.2) hostA 16
        (instant 102)).1 = -1)) = true := by
    decide +kernel
  obtain ⟨⟨a, b⟩, h, hx⟩ := (Option.any_eq_true _ _).mp hrun
  exact ⟨a, b, h, of_decide_eq_true hx⟩

theorem round_trip_packet : ∃ a b a' out data dst dstLen, opening = some (a, b)
    ∧ wgSessionHandleTun specimen a packet ⟨instant 101, instant 101, true⟩ = (0, a', out)
    ∧ out = [.sendUdp data dst dstLen] ∧ ∀ src srcLen, ∃ b',
      wgSessionHandleUdp specimen b data src srcLen (intake 102 9)
        = some (0, b', [.deliverIp packet]) := by
  obtain ⟨a, b, h, hpair, hto, hrc, hsrc, -, -⟩ := opening_paired
  have hs : wgSessionHandleTun specimen a packet ⟨instant 101, instant 101, true⟩
      = (0, _, _) := Prod.ext hrc rfl
  have hm : Matching a.noise b.noise 0 0 (intake 102 9).data := hpair.matching
  obtain ⟨data, dst, dstLen, hout, hall⟩ := round_trip specimen_lawful hto hpair.1 hpair.2.1 hm
    hs (.inl (by decide +kernel)) hsrc
  exact ⟨a, b, _, _, data, dst, dstLen, h, hs, hout, hall⟩

/-! ## Keepalives -/

/-- A result that a keepalive of the peer in slot `i` should have: one packet more, and nothing
delivered. -/
def TakenAsKeepalive (b : WgSession) (i : ℕ) (result : Int × WgSession × List Upcall) : Prop :=
  result.1 = 0 ∧ (result.2.1.peers i).rxPkts = (b.peers i).rxPkts + 1 ∧ result.2.2 = []

/-- What opens to a keepalive's padding is refused as a packet without a version. -/
theorem deliver_padding (s : WgSession) (i : ℕ) (src : Sockaddr) (srcLen : ℕ) :
    (wgsDeliver s i (paddedText []) src srcLen).1 = -1 := rfl

/-- The client seals as the session does. -/
theorem client_sealed {l l' : NoiseLocal} {endpointLen : ℕ} {plain data : Bytes} {env : EncapEnv}
    {sent : Bool} {rc : Int}
    (hs : wgEncap p l r endpointLen plain env sent = (rc, l', some data)) :
    ∃ k nonce, (l.remotes r).rCurrent = some k ∧ nonce < 2 ^ 64
      ∧ data = sealedData p l k nonce (paddedText plain) := by
  unfold wgEncap at hs
  simp only [] at hs
  unfold paddedText
  simp only []
  generalize (if (plain.length + 15) / 16 * 16 = 0 then 16 else (plain.length + 15) / 16 * 16)
    = padded at hs ⊢
  split at hs
  · simp at hs
  split at hs
  · simp at hs
  split at hs
  · simp at hs
  next l₁ k hl =>
  obtain ⟨hk, -, -, rfl⟩ := keypairCurrent_some hl
  split at hs
  · simp at hs
  next l₂ nonce hn =>
  obtain ⟨hidx, hkey⟩ := nonceNext_keypairs hn
  split at hs
  · simp at hs
  split at hs
  · simp at hs
  simp only [Prod.mk.injEq, Option.some.injEq] at hs
  obtain ⟨-, -, rfl⟩ := hs
  refine ⟨k, nonce, hk, nonceNext_lt hn, ?_⟩
  simp only [noiseKeypairEncrypt, hidx, hkey, noiseKeypairRef, modKeypair_keypairs, if_true]
  rfl

theorem decap_padding {bytes : Bytes} {now : Moment} (htype : le32dec (slice 0 4 bytes) = wgsPktData)
    (h : Accepts p b bytes now k' (paddedText [])) (outCap : ℕ) :
    (wgDecap p b.noise bytes outCap now).2 = none := by
  obtain ⟨hlen, hlook, hdec⟩ := h
  obtain ⟨l, hpair⟩ : ∃ l, noiseKeypairLookup b.noise (le32dec (slice 4 4 bytes)) = (l, some k') :=
    ⟨_, Prod.ext rfl hlook⟩
  obtain ⟨-, -, -, rfl⟩ := keypairLookup_some hpair
  unfold wgDecap
  rw [if_neg (by omega), if_neg (not_not.mpr htype), hpair]
  simp only [decrypt_ref, hdec]
  rfl

/-- No keepalive that an end makes is one to the other end, whichever of the two programs they
are. -/
theorem keepalive_refused (hp : p.Lawful) {now : Moment} (hr : (a.peers i).remote = some r)
    (hk : (a.noise.remotes r).rCurrent = some k) (hm : Matching a.noise b.noise k k' now)
    (env : EncapEnv) (src : Sockaddr) (srcLen endpointLen outCap : ℕ) (sent : Bool) :
    (∀ a' data dst dstLen, wgsEncap p a i [] env = (0, a', [.sendUdp data dst dstLen]) →
      ¬ TakenAsKeepalive b (slotOf b.noise k') (wgsHandleData p b data src srcLen now))
    ∧ ∀ rc l data, wgEncap p a.noise r endpointLen [] env sent = (rc, l, some data) →
      (wgDecap p b.noise data outCap now).2 ≠ some (slotOf b.noise k', []) := by
  refine ⟨fun a' data dst dstLen hs htaken => ?_, fun rc l data hs htaken => ?_⟩
  · obtain ⟨r', k₁, nonce, hr', hk', hn, hout⟩ := encap_sealed hs
    obtain rfl : r' = r := Option.some.inj (hr'.symm.trans hr)
    obtain rfl : k₁ = k := Option.some.inj (hk'.symm.trans hk)
    simp only [List.cons.injEq, Upcall.sendUdp.injEq, and_true] at hout
    obtain ⟨rfl, -, -⟩ := hout
    have hrc := htaken.1
    rw [handleData_accepts (accepts_sealed hp hm hn _), deliver_padding] at hrc
    exact absurd hrc (by decide)
  · obtain ⟨k₁, nonce, hk', hn, rfl⟩ := client_sealed hs
    obtain rfl : k₁ = k := Option.some.inj (hk'.symm.trans hk)
    have htype := (sealedData_fields p a.noise k₁ hn (paddedText [])).1
    rw [decap_padding htype (accepts_sealed hp hm hn _)] at htaken
    cases htaken

/-- A's keepalive, just after its handshake. -/
theorem keepalive_refused_opening : ∃ a b a' data dst dstLen, opening = some (a, b)
    ∧ wgsEncap specimen a 0 [] ⟨instant 101, instant 101, true⟩ = (0, a', [.sendUdp data dst dstLen])
    ∧ ¬ TakenAsKeepalive b (slotOf b.noise 0)
      (wgsHandleData specimen b data hostA 16 (instant 102)) := by
  obtain ⟨a, b, h, hpair, -, -, -, hrc, -⟩ := opening_paired
  have hs : wgsEncap specimen a 0 [] ⟨instant 101, instant 101, true⟩ = (0, _, _) :=
    Prod.ext hrc rfl
  obtain ⟨_, _, _, -, -, -, hout⟩ := encap_sealed hs
  rw [hout] at hs
  exact ⟨a, b, _, _, _, _, h, hs, (keepalive_refused specimen_lawful hpair.1 hpair.2.1 hpair.matching
    ⟨instant 101, instant 101, true⟩ hostA 16 16 wgBufMax true).1 _ _ _ _ hs⟩

/-- Whether the keepalives between sessions are taken as such. -/
def KeepalivesTaken (p : Prims) : Prop :=
  ∀ a b, ReachableIf p (fun _ _ => True) a → ReachableIf p (fun _ _ => True) b →
    ∀ i r k k' now env a' data dst dstLen src srcLen, (a.peers i).remote = some r →
      (a.noise.remotes r).rCurrent = some k → Matching a.noise b.noise k k' now →
      wgsEncap p a i [] env = (0, a', [.sendUdp data dst dstLen]) →
      TakenAsKeepalive b (slotOf b.noise k') (wgsHandleData p b data src srcLen now)

/-- A has dialled B, and B refuses A's keepalive as a malformed packet. -/
theorem keepalives_not_taken : ¬ KeepalivesTaken specimen := fun hall => by
  obtain ⟨a, b, h, hpair, -, -, -, hrc, hrefused⟩ := opening_paired
  obtain ⟨ha, hb⟩ := opening_reachable h
  have hs : wgsEncap specimen a 0 [] ⟨instant 101, instant 101, true⟩ = (0, _, _) :=
    Prod.ext hrc rfl
  obtain ⟨_, _, _, -, -, -, hout⟩ := encap_sealed hs
  rw [hout] at hs hrefused
  have htaken := hall a b ha hb _ _ _ _ _ _ _ _ _ _ hostA 16 hpair.1 hpair.2.1 hpair.matching hs
  exact absurd (hrefused.symm.trans htaken.1) (by decide)

end PolarWG
