import PolarWG.Proofs.Initiations

/-!
# Runs of a session, by steps of the Noise layer

A call of a session is steps of the Noise layer, and a request is steps that let peers come and go. So
in every session the counts are exact and nothing that is out of use is kept; and as long as there is
no request, an initiation is taken once.
-/

namespace PolarWG

open Specimen

variable {p : Prims} {s s' s'' : WgSession} {l l' : NoiseLocal}

/-- By steps of the Noise layer, and with the same checker of first MACs. -/
structure Moves (p : Prims) (s s' : WgSession) : Prop where
  noise : Relation.ReflTransGen (NoiseStep p) s.noise s'.noise
  checker : s'.checker = s.checker

theorem Moves.refl (p : Prims) (s : WgSession) : Moves p s s := ⟨.refl, rfl⟩

theorem Moves.trans (h : Moves p s s') (h' : Moves p s' s'') : Moves p s s'' :=
  ⟨h.noise.trans h'.noise, h'.checker.trans h.checker⟩

/-- By steps of the Noise layer and of its roster. -/
abbrev Evolves (p : Prims) (l l' : NoiseLocal) : Prop :=
  Relation.ReflTransGen (fun l l' => NoiseStep p l l' ∨ RosterStep p l l') l l'

theorem Moves.evolves (h : Moves p s s') : Evolves p s.noise s'.noise :=
  h.noise.lift id fun _ _ => .inl

theorem Evolves.exact (hs : Evolves p l l') (h : Exact l) : Exact l' := by
  induction hs with
  | refl => exact h
  | tail _ hst ih =>
    rcases hst with hst | hst
    · exact (hst.exact ih).1
    · exact hst.exact ih

/-! ## Calls -/

theorem encap_moves {i : ℕ} {plain : Bytes} {env : EncapEnv} {rc : Int} {out : List Upcall}
    (hs : wgsEncap p s i plain env = (rc, s', out)) : Moves p s s' := by
  unfold wgsEncap at hs
  simp only [] at hs
  generalize (if (plain.length + 15) / 16 * 16 = 0 then 16 else (plain.length + 15) / 16 * 16)
    = padded at hs
  split at hs
  · simp only [Prod.mk.injEq] at hs
    exact hs.2.1 ▸ .refl p s
  split at hs
  · simp only [Prod.mk.injEq] at hs
    exact hs.2.1 ▸ .refl p s
  split at hs
  · simp only [Prod.mk.injEq] at hs
    exact hs.2.1 ▸ .refl p s
  split at hs
  · next l hl =>
    simp only [Prod.mk.injEq] at hs
    exact hs.2.1 ▸ ⟨.single (.idle hl), rfl⟩
  next l k hl =>
  split at hs
  · next l₂ hn =>
    simp only [Prod.mk.injEq] at hs
    exact hs.2.1 ▸ ⟨.single (.send hl hn), rfl⟩
  next l₂ nonce hn =>
  repeat' split at hs
  all_goals
    simp only [Prod.mk.injEq] at hs
    exact hs.2.1 ▸ ⟨.single (.send hl hn), rfl⟩

theorem sendInitiation_moves (h : Accounted p s) {i : ℕ} (ha : (s.peers i).active)
    {env : InitiationEnv} {rc : Int} {out : List Upcall}
    (hs : wgsSendInitiation p s i env = some (rc, s', out)) : Moves p s s' := by
  obtain ⟨r, t, hr, ht, rfl, -⟩ := tenant_of_active h ha
  have hin : (s.noise.remotes t.remote).rEntryInserted :=
    (h.ledger.owned t.remote).mpr ⟨i, t, ht, rfl⟩
  unfold wgsSendInitiation at hs
  simp only [hr] at hs
  split at hs
  · simp only [Option.some.injEq, Prod.mk.injEq] at hs
    exact hs.2.1 ▸ .refl p s
  obtain ⟨⟨l, res⟩, hc, hs⟩ := Option.map_eq_some_iff.mp hs
  rcases res with _ | ⟨idx, msg⟩
  all_goals
    simp only [Prod.mk.injEq] at hs
    exact hs.2.1 ▸ ⟨.single (.dial hin hc), rfl⟩

theorem handleData_moves {bytes : Bytes} {src : Sockaddr} {srcLen : ℕ} {now : Moment} {rc : Int}
    {out : List Upcall} (hs : wgsHandleData p s bytes src srcLen now = (rc, s', out)) :
    Moves p s s' := by
  by_cases hacc : ∃ k m, Accepts p s bytes now k m
  · obtain ⟨k, m, hacc⟩ := hacc
    rw [handleData_accepts hacc] at hs
    obtain ⟨f, rfl, -⟩ := deliver_peer hs
    exact ⟨.single (.receive hacc.mem), rfl⟩
  · rw [handleData_rejects hacc] at hs
    simp only [Prod.mk.injEq] at hs
    exact hs.2.1 ▸ .refl p s

theorem handleInitiation_moves {bytes : Bytes} {src : Sockaddr} {srcLen : ℕ} {env : ResponderEnv}
    {rc : Int} {out : List Upcall}
    (hs : wgsHandleInitiation p s bytes src srcLen env = some (rc, s', out)) :
    Moves p s s' := by
  unfold wgsHandleInitiation at hs
  split at hs
  · simp only [Option.some.injEq, Prod.mk.injEq] at hs
    exact hs.2.1 ▸ .refl p s
  split at hs
  · simp only [Option.some.injEq, Prod.mk.injEq] at hs
    exact hs.2.1 ▸ .refl p s
  obtain ⟨⟨l, res⟩, hc, hs⟩ := Option.map_eq_some_iff.mp hs
  rcases res with _ | r
  · simp only [Prod.mk.injEq] at hs
    exact hs.2.1 ▸ ⟨.single (.refuse hc), rfl⟩
  rcases hn : noiseCreateResponse p l r env with ⟨l₁, _ | ⟨sIdx, rIdx, msg⟩⟩
  all_goals
    simp only [hn, Prod.mk.injEq] at hs
    exact hs.2.1 ▸ ⟨.single (.answer hc hn), rfl⟩

theorem handleResponse_moves {bytes : Bytes} {env : ConsumeEnv} {rc : Int} {out : List Upcall}
    (hs : wgsHandleResponse p s bytes env = (rc, s', out)) : Moves p s s' := by
  unfold wgsHandleResponse at hs
  split at hs
  · simp only [Prod.mk.injEq] at hs
    exact hs.2.1 ▸ .refl p s
  split at hs
  · simp only [Prod.mk.injEq] at hs
    exact hs.2.1 ▸ .refl p s
  split at hs
  · next l hc =>
    simp only [Prod.mk.injEq] at hs
    rw [← hs.2.1, consumeResponse_none hc]
    exact .refl p s
  next l r hc =>
  split at hs
  all_goals
    simp only [Prod.mk.injEq] at hs
    exact hs.2.1 ▸ ⟨.single (.complete hc), rfl⟩

theorem handleUdp_moves {bytes : Bytes} {src : Sockaddr} {srcLen : ℕ} {env : UdpEnv} {rc : Int}
    {out : List Upcall} (hs : wgSessionHandleUdp p s bytes src srcLen env = some (rc, s', out)) :
    Moves p s s' := by
  unfold wgSessionHandleUdp at hs
  simp only [] at hs
  split at hs
  · simp only [Option.some.injEq, Prod.mk.injEq] at hs
    exact hs.2.1 ▸ .refl p s
  split at hs
  · exact handleData_moves (Option.some.inj hs)
  split at hs
  · exact handleInitiation_moves hs
  split at hs
  · exact handleResponse_moves (Option.some.inj hs)
  split at hs
  · have hs := Option.some.inj hs
    unfold wgsHandleCookie at hs
    repeat' split at hs
    all_goals
      simp only [Prod.mk.injEq] at hs
      exact hs.2.1 ▸ ⟨.refl, rfl⟩
  · simp only [Option.some.injEq, Prod.mk.injEq] at hs
    exact hs.2.1 ▸ .refl p s

theorem tickRetransmit_moves (h : Accounted p s) {env : TickEnv} {i : ℕ} {out : List Upcall}
    (ha : (s.peers i).active) (hs : tickRetransmit p env s i = some (s', out)) :
    Moves p s s' := by
  unfold tickRetransmit at hs
  simp only [] at hs
  split at hs
  · have hr : Refines p .all s (s.modPeer i fun peer => { peer with hsSentAt := env.now.time }) :=
      h.quietPeer rfl rfl rfl
    split at hs
    · simp only [Option.some.injEq, Prod.mk.injEq] at hs
      exact hs.1 ▸ ⟨.refl, rfl⟩
    · obtain ⟨⟨rc, s₁, o⟩, h1, h2⟩ := Option.map_eq_some_iff.mp hs
      simp only [Prod.mk.injEq] at h2
      have hm := sendInitiation_moves hr.1 (by simpa only [modPeer_peers, if_true] using ha) h1
      exact h2.1 ▸ ⟨hm.noise, hm.checker⟩
  · simp only [Option.some.injEq, Prod.mk.injEq] at hs
    exact hs.1 ▸ .refl p s

theorem tickRekey_moves (h : Accounted p s) {env : TickEnv} {i : ℕ} {out : List Upcall}
    (ha : (s.peers i).active) (hs : tickRekey p env s i = some (s', out)) :
    Moves p s s' := by
  unfold tickRekey at hs
  simp only [] at hs
  split at hs
  · next hp =>
    obtain ⟨⟨rc, s₁, o⟩, h1, h2⟩ := Option.map_eq_some_iff.mp hs
    simp only [Prod.mk.injEq] at h2
    obtain ⟨r, t, -, ht, -, htp, -, -, htb, -⟩ := tenant_of_active h ha
    have hr : Refines p .all s (s.modPeer i fun peer => { peer with hsAttempts := 0 }) :=
      h.loudPeer (g := fun t => { t with attempts := 0 })
        (.restart ht (htp ▸ hp.1) (htb ▸ hp.2.1)) rfl rfl fun _ => rfl
    have hm := sendInitiation_moves hr.1 (by simpa only [modPeer_peers, if_true] using ha) h1
    exact h2.1 ▸ ⟨hm.noise, hm.checker⟩
  · simp only [Option.some.injEq, Prod.mk.injEq] at hs
    exact hs.1 ▸ .refl p s

theorem tickKeepalive_moves {env : TickEnv} {i : ℕ} {out : List Upcall}
    (hs : tickKeepalive p env s i = (s', out)) : Moves p s s' := by
  unfold tickKeepalive at hs
  split at hs
  · obtain ⟨rc, hs⟩ : ∃ rc, wgsEncap p s i [] (env.keepalive i) = (rc, s', out) :=
      ⟨_, Prod.ext rfl hs⟩
    exact encap_moves hs
  · simp only [Prod.mk.injEq] at hs
    exact hs.1 ▸ .refl p s

theorem tickPeer_moves (h : Accounted p s) {env : TickEnv} {i : ℕ} {out : List Upcall}
    (hs : tickPeer p env s i = some (s', out)) : Moves p s s' := by
  obtain ⟨-, rfl, -⟩ | ⟨ha, s₁, s₂, o₁, o₂, o₃, h1, h2, h3, -⟩ := tickPeer_some hs
  · exact .refl p _
  · have hr₁ : Refines p .all s s₁ := tickRetransmit_refines h ha (mayQuit_all s i) h1
    have ha₁ := hr₁.active h (tickRetransmit_apart h1) ha
    exact ((tickRetransmit_moves h ha h1).trans (tickRekey_moves hr₁.1 ha₁ h2)).trans
      (tickKeepalive_moves h3)

theorem tickFrom_moves {env : TickEnv} : ∀ {is : List ℕ} {s s' : WgSession} {out : List Upcall},
    Accounted p s → tickFrom p env is s = some (s', out) → Moves p s s'
  | [], s, s', _, _, hs => by
    simp only [tickFrom, Option.some.injEq, Prod.mk.injEq] at hs
    exact hs.1 ▸ .refl p s
  | i :: is, s, s', _, h, hs => by
    simp only [tickFrom, Option.bind_eq_bind, Option.bind_eq_some_iff, Option.pure_def,
      Option.some.injEq, Prod.mk.injEq] at hs
    obtain ⟨⟨s₁, o₁⟩, h1, ⟨s₂, o₂⟩, h2, rfl, -⟩ := hs
    have hr : Refines p .all s s₁ := tickPeer_refines h (mayQuit_all s i) h1
    exact (tickPeer_moves h h1).trans (tickFrom_moves hr.1 h2)

/-- A call that is no request leaves the roster alone. -/
theorem sessionStep_moves (h : Accounted p s) {call : Call} {out : List Upcall}
    (hc : ¬ call.isRequest) (hs : sessionStep p s call = some (s', out)) :
    Moves p s s' := by
  cases call with
  | handleUdp bytes src srcLen env =>
    obtain ⟨⟨rc, s₁, o⟩, h1, h2⟩ := Option.map_eq_some_iff.mp hs
    simp only [Prod.mk.injEq] at h2
    exact h2.1 ▸ handleUdp_moves h1
  | handleTun bytes env =>
    obtain ⟨rc, hs⟩ : ∃ rc, wgSessionHandleTun p s bytes env = (rc, s', out) :=
      ⟨_, Prod.ext rfl (Option.some.inj hs)⟩
    unfold wgSessionHandleTun at hs
    split at hs
    · simp only [Prod.mk.injEq] at hs
      exact hs.2.1 ▸ .refl p s
    split at hs
    · simp only [Prod.mk.injEq] at hs
      exact hs.2.1 ▸ .refl p s
    · exact encap_moves hs
  | tick env => exact tickFrom_moves h hs
  | kick env =>
    obtain ⟨⟨rc, s₁, o⟩, h1, h2⟩ := Option.map_eq_some_iff.mp hs
    simp only [Prod.mk.injEq] at h2
    rw [← h2.1]
    unfold wgSessionKick at h1
    split at h1
    · simp only [Option.some.injEq, Prod.mk.injEq] at h1
      exact h1.2.1 ▸ .refl p s
    · next i hi =>
      have := List.find?_some hi
      simp only [decide_eq_true_eq] at this
      exact sendInitiation_moves h this.1 h1
  | setUapi resolve text => exact absurd rfl hc

/-! ## Requests -/

theorem peerInitRuntime_evolves (h : Accounted p s) {i : ℕ} {pub : Bytes} {ok : Bool}
    (hs : peerInitRuntime p s i pub = (s', ok)) : Evolves p s.noise s'.noise := by
  unfold peerInitRuntime at hs
  rw [show noiseRemoteAlloc p s.noise i pub
    = ((noiseRemoteAlloc p s.noise i pub).1, s.noise.nRemotes) from rfl] at hs
  simp only [(h.pushRemote i pub).1, Prod.mk.injEq] at hs
  exact hs.1 ▸ .single (.inr (.enlist i pub))

theorem setPublicKey_evolves (h : Accounted p s) (val : Text) :
    Evolves p s.noise (setPublicKey p s val).session.noise := by
  unfold setPublicKey
  split
  · exact .refl
  split
  · exact .refl
  split
  · next s' hs' => exact allocPeerSlot_none hs' ▸ .refl
  next s₁ i hs₁ =>
  obtain ⟨hr, -⟩ := allocPeerSlot_some .all h hs₁
  have hnoise : s₁.noise = s.noise := (allocPeerSlot_outside hs₁).2
  split
  · next hs₂ => exact hnoise ▸ peerInitRuntime_evolves hr.1 hs₂
  · next hs₂ => exact hnoise ▸ peerInitRuntime_evolves hr.1 hs₂

theorem setPeerKey_evolves (h : Accounted p s) (resolve : Resolver) {i : ℕ}
    (ha : (s.peers i).active) (key val : Text) :
    Evolves p s.noise (setPeerKey p resolve s i key val).session.noise := by
  obtain ⟨r, t, hr, ht, rfl, -⟩ := tenant_of_active h ha
  have hin : (s.noise.remotes t.remote).rEntryInserted :=
    (h.ledger.owned t.remote).mpr ⟨i, t, ht, rfl⟩
  have htomb : (peerTombstone s i).noise
      = noiseRemotePut (noiseRemoteDisable s.noise t.remote) t.remote := by
    unfold peerTombstone
    rw [hr]
    rfl
  unfold setPeerKey
  split
  · split
    · show Evolves p s.noise (peerTombstone s i).noise
      rw [htomb]
      exact .single (.inr (.remove hin))
    · exact .refl
  split
  · split
    · exact .refl
    · simp only [modPeer_peers, if_true, hr]
      exact .single (.inr (.share t.remote _))
  simp only []
  repeat' split
  all_goals exact .refl

theorem setLine_evolves (h : Accounted p s) (resolve : Resolver) {cur : Option ℕ}
    (hcur : ∀ i, cur = some i → (s.peers i).active) (line : Text) :
    Evolves p s.noise (setLine p resolve s cur line).session.noise := by
  unfold setLine setKey
  split
  · exact .refl
  split
  · exact .refl
  split
  · exact .refl
  split
  · simp only []
    split <;> exact .refl
  split
  · exact setPublicKey_evolves h _
  split
  · exact .refl
  · next i => exact setPeerKey_evolves h resolve (hcur i rfl) _ _

theorem setLines_evolves (resolve : Resolver) : ∀ (lines : List Text) {s : WgSession}
    {cur : Option ℕ}, Accounted p s → (∀ i, cur = some i → (s.peers i).active) →
    Evolves p s.noise (setLines p resolve lines s cur).2.noise
  | [], s, _, _, _ => .refl
  | line :: rest, s, cur, h, hcur => by
    have hline := setLine_evolves h resolve hcur line
    unfold setLines
    split
    · next s' hs' =>
      rw [hs'] at hline
      exact hline
    · next s' cur' hs' =>
      obtain ⟨h', hcur'⟩ := setLine_next h hcur hs'
      rw [hs'] at hline
      exact hline.trans (setLines_evolves resolve rest h' hcur')

theorem sessionStep_evolves (h : Accounted p s) {call : Call} {out : List Upcall}
    (hs : sessionStep p s call = some (s', out)) : Evolves p s.noise s'.noise := by
  by_cases hc : call.isRequest
  · cases call with
    | setUapi resolve text =>
      simp only [sessionStep, Option.some.injEq, Prod.mk.injEq] at hs
      rw [← hs.1]
      have hlines : Evolves p s.noise (setLines p resolve (strtok '\n' (cstr text)) s none).2.noise :=
        setLines_evolves resolve _ h fun _ hc => by cases hc
      have hout := (rebuildAips_outside
        (setLines p resolve (strtok '\n' (cstr text)) s none).2).1
      show Evolves p s.noise (rebuildAips _).noise
      rw [hout]
      exact hlines
    | _ => cases hc
  · exact (sessionStep_moves h hc hs).evolves

/-! ## The start -/

theorem createPeer_evolves {resolve : Resolver} {i : ℕ} (h : Accounted p s)
    (hs : createPeer p resolve s i = some s') : Evolves p s.noise s'.noise := by
  unfold createPeer at hs
  simp only [] at hs
  rw [show noiseRemoteAlloc p s.noise i (s.peers i).pubkey
    = ((noiseRemoteAlloc p s.noise i (s.peers i).pubkey).1, s.noise.nRemotes) from rfl] at hs
  simp only [(h.pushRemote i (s.peers i).pubkey).1, Option.some.injEq] at hs
  rw [← hs]
  have hpush : Evolves p s.noise (s.noise.pushRemote (newRemote p s.noise i (s.peers i).pubkey)) :=
    .single (.inr (.enlist i _))
  show Evolves p s.noise (if (s.peers i).hasPsk then _ else _)
  split
  · exact hpush.tail (.inr (.share _ _))
  · exact hpush

theorem createPeers_evolves {resolve : Resolver} : ∀ {is : List ℕ} {s s' : WgSession}, is.Nodup →
    Accounted p s → s.ledger.Founding → (∀ i ∈ is, i < s.nPeers ∧ (s.peers i).Idle) →
    is.foldlM (createPeer p resolve) s = some s' → Evolves p s.noise s'.noise
  | [], s, s', _, _, _, _, hs => by
    simp only [List.foldlM_nil, Option.pure_def, Option.some.injEq] at hs
    exact hs ▸ .refl
  | i :: is, s, s', hn, h, hf, hi, hs => by
    simp only [List.foldlM_cons, Option.bind_eq_bind, Option.bind_eq_some_iff] at hs
    obtain ⟨s₁, hs₁, hs⟩ := hs
    obtain ⟨hout, hn⟩ := List.nodup_cons.mp hn
    obtain ⟨hlt, hidle⟩ := hi i List.mem_cons_self
    obtain ⟨h1, h2, h3, h4⟩ := createPeer_some h hf hlt hidle hs₁
    refine (createPeer_evolves h hs₁).trans (createPeers_evolves hn h1 h2 (fun j hj => ?_) hs)
    obtain ⟨h5, h6⟩ := hi j (List.mem_cons_of_mem i hj)
    rw [h3, h4 j (by rintro rfl; exact hout hj)]
    exact ⟨h5, h6⟩

theorem created_exact (h : Created p s) : Exact s.noise := by
  obtain ⟨resolve, text, h⟩ := h
  obtain ⟨s₀, s₁, hparse, hs₁, hnoise, -, -⟩ := created_slots h
  have hp := parseConfigText_parsed hparse
  obtain ⟨h1, h2⟩ := accounted_of_parsed (p := p) hp
  have hsteps := createPeers_evolves (List.nodup_range (n := s₀.nPeers)) h1 h2
    (fun i hi => ⟨List.mem_range.mp hi, hp.idle i⟩) hs₁
  rw [hnoise]
  exact hsteps.exact (exact_init p s₀.privateKey)

theorem reachable_exact {ok : WgSession → Call → Prop} (h : ReachableIf p ok s) :
    Accounted p s ∧ Exact s.noise := by
  obtain ⟨s₀, calls, h0, hrun⟩ := h
  exact hrun.invariant (fun s => Accounted p s ∧ Exact s.noise)
    ⟨(created_accounted h0).1, created_exact h0⟩ fun s call s' o hs _ hst =>
      ⟨(sessionStep_refines hs.1 (.inl trivial) (callAllowed_all s call) hst).1,
        (sessionStep_evolves hs.1 hst).exact hs.2⟩

theorem run_moves {calls : List Call} (h : Accounted p s)
    (hrun : Run (sessionStep p) (fun _ call => ¬ call.isRequest) s calls s') : Moves p s s' := by
  have := hrun.invariant (fun s' => Accounted p s' ∧ Moves p s s') ⟨h, .refl p s⟩
    fun s₁ call s₂ o hs hc hst =>
      ⟨(sessionStep_refines hs.1 (.inl trivial) (callAllowed_all s₁ call) hst).1,
        hs.2.trans (sessionStep_moves hs.1 hc hst)⟩
  exact this.2

/-- An initiation that is not turned away for its length or its first MAC goes to the Noise layer, and
what follows moves no timestamp back. -/
theorem handleInitiation_noise {bytes : Bytes} {src : Sockaddr} {srcLen : ℕ} {env : ResponderEnv}
    {rc : Int} {out : List Upcall}
    (hs : wgsHandleInitiation p s bytes src srcLen env = some (rc, s', out)) :
    (bytes.length < 148
      ∨ ¬ cookieCheckerValidateMacs p s.checker (macsOf 116 bytes) (bytes.take 116))
    ∨ ∃ l res, noiseConsumeInitiation p s.noise (le32dec (slice 4 4 bytes)) (initiationOf bytes) env
        = some (l, res) ∧ Dated l s'.noise := by
  unfold wgsHandleInitiation at hs
  split at hs
  · next h148 => exact .inl (.inl h148)
  split at hs
  · next hmac => exact .inl (.inr hmac)
  obtain ⟨⟨l, res⟩, hc, hs⟩ := Option.map_eq_some_iff.mp hs
  refine .inr ⟨l, res, hc, ?_⟩
  rcases res with _ | r
  · simp only [Prod.mk.injEq] at hs
    exact hs.2.1 ▸ .refl l
  rcases hn : noiseCreateResponse p l r env with ⟨l₁, _ | ⟨sIdx, rIdx, msg⟩⟩
  all_goals
    simp only [hn, Prod.mk.injEq] at hs
    exact hs.2.1 ▸ (dated_createResponse hn).trans (dated_remotePut _ _)

variable {s₁ s₂ s₃ : WgSession}

/-- As long as there is no request, an initiation that comes again, whenever that is and wherever
from, does nothing. -/
theorem session_initiation_once {calls : List Call} {bytes : Bytes} {src src' : Sockaddr}
    {srcLen srcLen' : ℕ} {env env' : UdpEnv} {rc : Int} {out : List Upcall}
    (h : ReachableIf p (fun _ _ => True) s₁) (ht : le32dec (bytes.take 4) = wgsPktInitiation)
    (hs : wgSessionHandleUdp p s₁ bytes src srcLen env = some (rc, s₂, out))
    (hrun : Run (sessionStep p) (fun _ call => ¬ call.isRequest) s₂ calls s₃) :
    wgSessionHandleUdp p s₃ bytes src' srcLen' env' = some (-1, s₃, []) := by
  obtain ⟨hacc, hexact⟩ := reachable_exact h
  have hstep : sessionStep p s₁ (.handleUdp bytes src srcLen env) = some (s₂, out) := by
    rw [sessionStep, hs]
    rfl
  have hacc₂ := (sessionStep_refines hacc (.inl trivial) (callAllowed_all s₁ _) hstep).1
  have hm₂ := run_moves hacc₂ hrun
  have hm := (handleUdp_moves hs).trans hm₂
  have htype : ¬ le32dec (bytes.take 4) = wgsPktData := by
    rw [ht]
    decide
  unfold wgSessionHandleUdp at hs ⊢
  by_cases hlen : bytes.length < 4
  · rw [if_pos hlen]
  simp only [if_neg hlen, if_neg htype, if_pos ht] at hs ⊢
  unfold wgsHandleInitiation
  rw [hm.checker]
  rcases handleInitiation_noise hs with hbad | ⟨l, res, hl, hd⟩
  · split
    · rfl
    · next h148 => rw [if_pos (hbad.resolve_left h148)]
  · split
    · rfl
    split
    · rfl
    · rw [consumeInitiation_once hexact hl hm.noise (hd.trans (noiseSteps_dated hm₂.noise))]
      rfl

/-- B over A's initiation. -/
def welcome : Option (WgSession × Bytes × Int × WgSession × List Upcall) := do
  let (ini, _) ← sentToB
  let b ← sessionB
  let (rc, b', out) ← wgSessionHandleUdp specimen b ini hostA 16 (intake 100 8)
  pure (b, ini, rc, b', out)

theorem session_initiation_once_answered : ∃ s₁ s₂ bytes out,
    le32dec (bytes.take 4) = wgsPktInitiation
      ∧ wgSessionHandleUdp specimen s₁ bytes hostA 16 (intake 100 8) = some (0, s₂, out)
      ∧ out.length = 1
      ∧ wgSessionHandleUdp specimen s₂ bytes hostB 16 (intake 200 9) = some (-1, s₂, []) := by
  have hrun : welcome.any (fun x => decide (le32dec (x.2.1.take 4) = wgsPktInitiation
      ∧ x.2.2.1 = 0 ∧ x.2.2.2.2.length = 1)) = true := by
    decide +kernel
  obtain ⟨⟨b, ini, rc, b', out⟩, h, hx⟩ := (Option.any_eq_true _ _).mp hrun
  obtain ⟨ht, rfl, hlen⟩ := of_decide_eq_true hx
  simp only [welcome, Option.bind_eq_bind, Option.bind_eq_some_iff, Option.pure_def,
    Option.some.injEq, Prod.mk.injEq] at h
  obtain ⟨⟨ini', data⟩, -, b₁, hb, ⟨rc', b₂, o⟩, hs, rfl, rfl, rfl, rfl, rfl⟩ := h
  exact ⟨_, _, _, _, ht, hs, hlen,
    session_initiation_once ⟨_, [], ⟨_, _, hb⟩, .nil _⟩ ht hs (.nil _)⟩

end PolarWG
