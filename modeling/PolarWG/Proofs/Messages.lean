import PolarWG.Proofs.Keypairs

/-!
# What the four handshake calls can do

For each call of the Noise layer that makes or takes in a handshake message: where it succeeds,
every check it passed and the state it leaves; where it fails, that nothing linked has changed.
-/

namespace PolarWG

variable {p : Prims} {l l' : NoiseLocal} {r : ℕ}

theorem modRemote_self {f : NoiseRemote → NoiseRemote} (h : f (l.remotes r) = l.remotes r) :
    l.modRemote r f = l := by
  rw [NoiseLocal.modRemote, h, Function.update_eq_self]

@[simp] theorem put_ref (l : NoiseLocal) (r : ℕ) : noiseRemotePut (noiseRemoteRef l r) r = l := by
  rw [noiseRemotePut, noiseRemoteRef, modRemote_modRemote]
  exact modRemote_self rfl

theorem acquire_some {r' : ℕ} (h : noiseRemoteAcquire l r = (l', some r')) :
    (l.remotes r).rRefcnt ≠ 0 ∧ r' = r ∧ l' = noiseRemoteRef l r := by
  unfold noiseRemoteAcquire at h
  split at h
  · simp at h
  · next hc =>
    simp only [Prod.mk.injEq, Option.some.injEq] at h
    exact ⟨hc, h.2.symm, h.1.symm⟩

theorem acquire_none (h : noiseRemoteAcquire l r = (l', none)) : l' = l := by
  unfold noiseRemoteAcquire at h
  split at h <;> simp_all

/-! ## Initiations going out -/

theorem createInitiation_none {env : InitiationEnv}
    (h : noiseCreateInitiation p l r env = some (l', none)) :
    ∃ hs, l' = l.modRemote r fun v => { v with rHandshake := hs } := by
  unfold noiseCreateInitiation at h
  split at h
  · simp only [Option.some.injEq, Prod.mk.injEq, and_true] at h
    exact ⟨(l.remotes r).rHandshake, by rw [modRemote_self rfl, h]⟩
  · split at h
    · simp only [Option.some.injEq, Prod.mk.injEq, and_true] at h
      exact ⟨(l.remotes r).rHandshake, by rw [modRemote_self rfl, h]⟩
    · simp only [] at h
      split at h
      · simp only [Option.some.injEq, Prod.mk.injEq, and_true] at h
        exact ⟨_, h.symm⟩
      · simp at h

theorem createInitiation_some {env : InitiationEnv} {idx : UInt32} {msg : Initiation}
    (h : noiseCreateInitiation p l r env = some (l', some (idx, msg))) :
    l.lHasIdentity
      ∧ noiseTimerExpired env.check.getsbinuptime (l.remotes r).rLastSent rekeyTimeout 0
      ∧ ∃ hs l₁,
        noiseInitiationMessage p l (l.remotes r) env.secret (noiseTai64nNow env.tai) = (hs, some msg)
        ∧ noiseRemoteIndexInsert (l.modRemote r fun v => { v with rHandshake := hs }) r env.draws
          = some l₁
        ∧ idx = (l₁.remotes r).iLocalIndex
        ∧ l' = l₁.modRemote r fun v =>
          { v with rHandshakeState := .initiator, rLastSent := env.stamp.getsbinuptime } := by
  unfold noiseCreateInitiation at h
  split at h
  · simp at h
  · next hid =>
    split at h
    · simp at h
    · next ht =>
      simp only [] at h
      split at h
      · simp at h
      · next msg' hm =>
        rw [Option.map_eq_some_iff] at h
        obtain ⟨l₁, hl₁, h⟩ := h
        simp only [Prod.mk.injEq, Option.some.injEq, modRemote_remotes, if_true] at h
        obtain ⟨rfl, rfl, rfl⟩ := h
        exact ⟨not_not.mp hid, not_not.mp ht, _, l₁, Prod.ext rfl hm, hl₁, rfl, rfl⟩

/-! ## Initiations coming in -/

theorem consumeInitiation_none {sIdx : UInt32} {msg : Initiation} {env : ResponderEnv}
    (h : noiseConsumeInitiation p l sIdx msg env = some (l', none)) :
    ∃ r ts, l' = l.modRemote r fun v => { v with rTimestamp := ts } := by
  have same : l' = l → ∃ r ts, l' = l.modRemote r fun v => { v with rTimestamp := ts } :=
    fun e => ⟨0, (l.remotes 0).rTimestamp, by rw [modRemote_self rfl, e]⟩
  have put : ∀ r ts, noiseRemotePut
      ((noiseRemoteRef l r).modRemote r fun v => { v with rTimestamp := ts }) r
      = l.modRemote r fun v => { v with rTimestamp := ts } := fun r ts => by
    rw [noiseRemotePut, noiseRemoteRef, modRemote_modRemote, modRemote_modRemote]
    rfl
  unfold noiseConsumeInitiation at h
  split at h
  · simp only [Option.some.injEq, Prod.mk.injEq, and_true] at h
    exact same h.symm
  · split at h
    · simp only [Option.some.injEq, Prod.mk.injEq, and_true] at h
      exact same h.symm
    · split at h
      · next hl =>
        simp only [Option.some.injEq, Prod.mk.injEq, and_true] at h
        subst h
        unfold noiseRemoteLookup at hl
        split at hl
        · simp only [Prod.mk.injEq, and_true] at hl
          exact same hl.symm
        · exact same (acquire_none hl)
      · next l₁ r hl =>
        unfold noiseRemoteLookup at hl
        split at hl
        · simp at hl
        · obtain ⟨-, rfl, rfl⟩ := acquire_some hl
          split at h
          · simp only [Option.some.injEq, Prod.mk.injEq, and_true, put_ref] at h
            exact same h.symm
          · split at h
            · simp only [Option.some.injEq, Prod.mk.injEq, and_true, put_ref] at h
              exact same h.symm
            · simp only [] at h
              split at h
              · simp only [Option.some.injEq, Prod.mk.injEq, and_true] at h
                exact ⟨_, _, h.symm.trans (put _ _)⟩
              · simp at h

theorem consumeInitiation_some {sIdx : UInt32} {msg : Initiation} {env : ResponderEnv}
    (h : noiseConsumeInitiation p l sIdx msg env = some (l', some r)) :
    l.lHasIdentity ∧ ∃ rPublic ck hash timestamp hs l₁,
      noiseReadStatic p l msg.ue msg.es = some (rPublic, ck, hash)
      ∧ l.lRemoteHash.find? (fun r => (l.remotes r).rPublic = rPublic) = some r
      ∧ noiseReadTimestamp p (l.remotes r) msg.ue msg.ets ck hash = some (timestamp, hs)
      ∧ bytesGt timestamp (l.remotes r).rTimestamp
      ∧ noiseTimerExpired env.flood.getsbinuptime (l.remotes r).rLastInitRecv 0 rejectInterval
      ∧ noiseRemoteIndexInsert ((noiseRemoteRef l r).modRemote r fun v =>
        { v with rTimestamp := timestamp, rLastInitRecv := env.floodStamp.getsbinuptime })
        r env.draws = some l₁
      ∧ l' = l₁.modRemote r fun v =>
        { v with iRemoteIndex := sIdx, rHandshakeState := .responder, rHandshake := hs } := by
  unfold noiseConsumeInitiation at h
  split at h
  · simp at h
  next hid =>
  split at h
  · simp at h
  next rPublic ck hash hread =>
  split at h
  · simp at h
  next l₁ r₁ hl =>
  unfold noiseRemoteLookup at hl
  split at hl
  · simp at hl
  next r₂ hfind =>
  obtain ⟨-, rfl, rfl⟩ := acquire_some hl
  split at h
  · simp at h
  next timestamp hs hts =>
  split at h
  · simp at h
  next hgt =>
  simp only [] at h
  split at h
  · simp at h
  next hflood =>
  rw [Option.map_eq_some_iff] at h
  obtain ⟨l₂, hl₂, h⟩ := h
  simp only [put_ref, Prod.mk.injEq, Option.some.injEq] at h
  obtain ⟨rfl, rfl⟩ := h
  rw [modRemote_modRemote] at hl₂
  simp only [noiseRemoteRef, modRemote_remotes, if_true] at hts hgt hflood
  exact ⟨not_not.mp hid, rPublic, ck, hash, timestamp, hs, l₂, hread, hfind, hts,
    not_not.mp hgt, not_not.mp hflood, hl₂, rfl⟩

/-! ## Responses going out -/

theorem createResponse_none {env : ResponderEnv} (h : noiseCreateResponse p l r env = (l', none)) :
    ∃ hs, l' = (l.modRemote r fun v => { v with rHandshake := hs })
      ∧ ((l.remotes r).rHandshakeState = .responder →
        noiseResponseMessage p (l.remotes r) env.secret = (hs, none)) := by
  unfold noiseCreateResponse at h
  split at h
  · next hs =>
    simp only [Prod.mk.injEq, and_true] at h
    exact ⟨(l.remotes r).rHandshake, by rw [modRemote_self rfl, h], fun e => absurd e hs⟩
  · simp only [] at h
    split at h
    · next hm =>
      simp only [Prod.mk.injEq, and_true] at h
      exact ⟨_, h.symm, fun _ => Prod.ext rfl hm⟩
    · simp at h

theorem createResponse_some {env : ResponderEnv} {sIdx rIdx : UInt32} {msg : Response}
    (h : noiseCreateResponse p l r env = (l', some (sIdx, rIdx, msg))) :
    (l.remotes r).rHandshakeState = .responder ∧ ∃ hs,
      noiseResponseMessage p (l.remotes r) env.secret = (hs, some msg)
      ∧ l' = ((noiseBeginSession p (l.modRemote r fun v => { v with rHandshake := hs }) r
          env.birth.getsbinuptime).modRemote r fun v =>
        { v with rLastSent := env.stamp.getsbinuptime })
      ∧ sIdx = (l'.remotes r).iLocalIndex ∧ rIdx = (l'.remotes r).iRemoteIndex := by
  unfold noiseCreateResponse at h
  split at h
  · simp at h
  · next hs =>
    simp only [] at h
    split at h
    · simp at h
    · next msg' hm =>
      simp only [Prod.mk.injEq, Option.some.injEq] at h
      obtain ⟨rfl, rfl, rfl, rfl⟩ := h
      exact ⟨not_not.mp hs, _, Prod.ext rfl hm, rfl, rfl, rfl⟩

/-! ## Responses coming in -/

theorem consumeResponse_none {sIdx rIdx : UInt32} {msg : Response} {birth : Moment}
    (h : noiseConsumeResponse p l sIdx rIdx msg birth = (l', none)) : l' = l := by
  unfold noiseConsumeResponse at h
  split at h
  · next hl =>
    simp only [Prod.mk.injEq, and_true] at h
    subst h
    unfold noiseRemoteIndexLookup at hl
    simp only [Bool.false_eq_true, if_false] at hl
    split at hl
    · simp only [Prod.mk.injEq, and_true] at hl
      exact hl.symm
    · exact acquire_none hl
    · simp only [Prod.mk.injEq, and_true] at hl
      exact hl.symm
  · next l₁ r hl =>
    unfold noiseRemoteIndexLookup at hl
    simp only [Bool.false_eq_true, if_false] at hl
    split at hl
    · simp at hl
    · obtain ⟨-, rfl, rfl⟩ := acquire_some hl
      repeat' split at h
      all_goals simp_all
    · simp at hl

theorem consumeResponse_some {sIdx rIdx : UInt32} {msg : Response} {birth : Moment}
    (h : noiseConsumeResponse p l sIdx rIdx msg birth = (l', some r)) :
    l.lIndexHash.find? (fun i => l.iLocalIndex i = rIdx) = some (.remote r)
      ∧ (l.remotes r).rRefcnt ≠ 0 ∧ l.lHasIdentity
      ∧ (l.remotes r).rHandshakeState = .initiator ∧ (l.remotes r).iLocalIndex = rIdx
      ∧ ∃ hs, noiseReadResponse p l (l.remotes r) msg = some hs
        ∧ l' = noiseBeginSession p ((noiseRemoteRef l r).modRemote r fun v =>
          { v with rHandshake := hs, iRemoteIndex := sIdx }) r birth.getsbinuptime := by
  unfold noiseConsumeResponse at h
  split at h
  · simp at h
  next l₁ r₁ hl =>
  unfold noiseRemoteIndexLookup at hl
  simp only [Bool.false_eq_true, if_false] at hl
  split at hl
  · simp at hl
  · next r₂ hfind =>
    obtain ⟨hc, rfl, rfl⟩ := acquire_some hl
    split at h
    · simp at h
    next hg =>
    split at h
    · simp at h
    next hs hread =>
    split at h
    · simp at h
    next hidx =>
    simp only [put_ref, Prod.mk.injEq, Option.some.injEq] at h
    obtain ⟨rfl, rfl⟩ := h
    simp only [noiseRemoteRef, modRemote_remotes, if_true, not_or, not_not] at hg hidx hread
    exact ⟨hfind, hc, hg.1, hg.2, hidx, hs, hread, rfl⟩
  · simp at hl

/-! ## Counts and links -/

variable {ρ : Refs}

theorem Counted.createInitiation (h : Counted l ρ) {env : InitiationEnv}
    {res : Option (UInt32 × Initiation)} (hc : noiseCreateInitiation p l r env = some (l', res)) :
    Counted l' ρ := by
  cases res with
  | none =>
    obtain ⟨hs, rfl⟩ := createInitiation_none hc
    exact h.modRemote rfl rfl rfl rfl
  | some res =>
    obtain ⟨-, -, hs, l₁, -, hl₁, -, rfl⟩ := createInitiation_some hc
    have h₁ : Counted (l.modRemote r fun v => { v with rHandshake := hs }) ρ :=
      h.modRemote rfl rfl rfl rfl
    exact h₁.indexInsert hl₁ rfl (by simp) rfl rfl

theorem links_createInitiation_none {env : InitiationEnv}
    (h : noiseCreateInitiation p l r env = some (l', none)) : l'.links = l.links := by
  obtain ⟨hs, rfl⟩ := createInitiation_none h
  exact links_modRemote_fixed rfl

theorem links_createInitiation_some {env : InitiationEnv} {idx : UInt32} {msg : Initiation}
    (h : noiseCreateInitiation p l r env = some (l', some (idx, msg))) :
    l'.links = l.links.modRemote r fun v =>
      { v with state := .initiator, idx, lastSent := env.stamp.getsbinuptime } := by
  obtain ⟨-, -, hs, l₁, -, hl₁, rfl, rfl⟩ := createInitiation_some h
  rw [links_modRemote (g := fun v => { v with
    state := .initiator, lastSent := env.stamp.getsbinuptime }) rfl, links_indexInsert hl₁,
    links_modRemote_fixed rfl, Links.modRemote_modRemote]

theorem Counted.consumeInitiation_none (h : Counted l ρ) {sIdx : UInt32} {msg : Initiation}
    {env : ResponderEnv} (hc : noiseConsumeInitiation p l sIdx msg env = some (l', none)) :
    Counted l' ρ ∧ l'.links = l.links := by
  obtain ⟨r, ts, rfl⟩ := PolarWG.consumeInitiation_none hc
  exact ⟨h.modRemote rfl rfl rfl rfl, links_modRemote_fixed rfl⟩

/-- The remote comes with a reference. -/
theorem Counted.consumeInitiation_some (h : Counted l ρ) {sIdx : UInt32} {msg : Initiation}
    {env : ResponderEnv} (hc : noiseConsumeInitiation p l sIdx msg env = some (l', some r)) :
    Counted l' (ρ.addOwn r) ∧ r ∈ l.lRemoteHash ∧ (l'.remotes r).rHandshakeState = .responder
      ∧ ∃ idx, l'.links = l.links.modRemote r fun v => { v with state := .responder, idx } := by
  obtain ⟨-, rPublic, ck, hash, ts, hs, l₁, -, hfind, -, -, -, hl₁, rfl⟩ :=
    PolarWG.consumeInitiation_some hc
  have h₁ := (h.remoteRef r).modRemote (r := r) (f := fun v =>
    { v with rTimestamp := ts, rLastInitRecv := env.floodStamp.getsbinuptime }) rfl rfl rfl rfl
  refine ⟨h₁.indexInsert hl₁ rfl (by simp) rfl rfl, List.mem_of_find?_eq_some hfind, ?_, ?_⟩
  · rw [modRemote_remotes, if_pos rfl]
  · refine ⟨(l₁.remotes r).iLocalIndex, ?_⟩
    rw [links_modRemote (g := fun v => { v with state := .responder }) rfl, links_indexInsert hl₁,
      links_modRemote_fixed rfl, links_remoteRef, Links.modRemote_modRemote]

theorem links_createResponse_none {env : ResponderEnv}
    (h : noiseCreateResponse p l r env = (l', none)) : l'.links = l.links := by
  obtain ⟨hs, rfl, -⟩ := createResponse_none h
  exact links_modRemote_fixed rfl

theorem Counted.createResponse (h : Counted l ρ) (hp : ρ.pins = 0) (hi : ρ.incoming = none)
    (hl : ρ.loose = []) {env : ResponderEnv} {res : Option (UInt32 × UInt32 × Response)}
    (hc : noiseCreateResponse p l r env = (l', res)) : Counted l' ρ := by
  cases res with
  | none =>
    obtain ⟨hs, rfl, -⟩ := createResponse_none hc
    exact h.modRemote rfl rfl rfl rfl
  | some res =>
    obtain ⟨hst, hs, -, rfl, -, -⟩ := createResponse_some hc
    have h₁ : Counted (l.modRemote r fun v => { v with rHandshake := hs }) ρ :=
      h.modRemote rfl rfl rfl rfl
    refine (h₁.beginSession p _ hp hi hl ?_).modRemote rfl rfl rfl rfl
    rw [modRemote_of_fixed NoiseRemote.rHandshakeState rfl, hst]
    simp

theorem links_createResponse_some {env : ResponderEnv} {sIdx rIdx : UInt32} {msg : Response}
    (h : noiseCreateResponse p l r env = (l', some (sIdx, rIdx, msg))) : ∃ recv,
    l'.links = (l.links.modRemote r fun v =>
        ({ v with lastSent := env.stamp.getsbinuptime } : RemoteLink).answered l.nKeypairs).pushKeypair
      ⟨r, (l.remotes r).iLocalIndex, recv, env.birth.getsbinuptime, 0⟩ := by
  obtain ⟨hst, hs, -, rfl, -, -⟩ := createResponse_some h
  obtain ⟨recv, hb⟩ := links_beginSession p (l.modRemote r fun v => { v with rHandshake := hs }) r
    env.birth.getsbinuptime
  refine ⟨recv, ?_⟩
  rw [links_modRemote (g := fun v => { v with lastSent := env.stamp.getsbinuptime }) rfl, hb,
    links_modRemote_fixed rfl, modRemote_of_fixed NoiseRemote.rHandshakeState rfl,
    modRemote_of_fixed NoiseRemote.iLocalIndex rfl, if_neg (by simp [hst])]
  simp only [Links.pushKeypair, Links.modRemote, Function.update_self, Function.update_idem]
  rfl

/-- The remote comes with a reference. -/
theorem Counted.consumeResponse_some (h : Counted l ρ) (hp : ρ.pins = 0) (hi : ρ.incoming = none)
    (hl : ρ.loose = []) {sIdx rIdx : UInt32} {msg : Response} {birth : Moment}
    (hc : noiseConsumeResponse p l sIdx rIdx msg birth = (l', some r)) :
    Counted l' (ρ.addOwn r) ∧ ∃ recv, l'.links
      = (l.links.modRemote r (·.completed l.nKeypairs)).pushKeypair
        ⟨r, (l.remotes r).iLocalIndex, recv, birth.getsbinuptime, 0⟩ := by
  obtain ⟨-, -, -, hst, -, hs, -, rfl⟩ := PolarWG.consumeResponse_some hc
  have h₁ := (h.remoteRef r).modRemote (r := r) (f := fun v =>
    { v with rHandshake := hs, iRemoteIndex := sIdx }) rfl rfl rfl rfl
  have hst' : (((noiseRemoteRef l r).modRemote r fun v =>
      { v with rHandshake := hs, iRemoteIndex := sIdx }).remotes r).rHandshakeState = .initiator := by
    rw [modRemote_of_fixed NoiseRemote.rHandshakeState rfl, noiseRemoteRef,
      modRemote_of_fixed NoiseRemote.rHandshakeState rfl, hst]
  refine ⟨h₁.beginSession p _ hp hi hl (by simp [hst']), ?_⟩
  obtain ⟨recv, hb⟩ := links_beginSession p ((noiseRemoteRef l r).modRemote r fun v =>
    { v with rHandshake := hs, iRemoteIndex := sIdx }) r birth.getsbinuptime
  refine ⟨recv, ?_⟩
  rw [hb, links_modRemote_fixed rfl, links_remoteRef, if_pos hst',
    modRemote_of_fixed NoiseRemote.iLocalIndex rfl, noiseRemoteRef,
    modRemote_of_fixed NoiseRemote.iLocalIndex rfl]
  rfl

end PolarWG
