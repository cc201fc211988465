import PolarWG.Proofs.Tunnel

/-!
# Initiations are taken once

Each remote keeps the latest timestamp that an initiation of its peer's has borne, and no step of the
Noise layer moves it back or changes what initiations are read with. So one that has been read is
refused from then on, whatever becomes of it the first time.
-/

namespace PolarWG

variable {p : Prims} {l l' l'' : NoiseLocal}

/-! ## Timestamps -/

theorem bytesGt_irrefl : ∀ a : Bytes, bytesGt a a = false
  | [] => rfl
  | a :: as => by simp [bytesGt, bytesGt_irrefl as]

theorem bytesGt_trans : ∀ {a b c : Bytes}, bytesGt a b → bytesGt b c → bytesGt a c
  | [], _, _, h, _ => by simp [bytesGt] at h
  | _ :: _, [], _, h, _ => by simp [bytesGt] at h
  | _ :: _, _ :: _, [], _, h => by simp [bytesGt] at h
  | a :: as, b :: bs, c :: cs, h, h' => by
    simp only [bytesGt, Bool.or_eq_true, Bool.and_eq_true, decide_eq_true_eq, beq_iff_eq] at h h' ⊢
    rcases h with h | ⟨rfl, h⟩ <;> rcases h' with h' | ⟨rfl, h'⟩
    · exact .inl (UInt8.lt_trans h' h)
    · exact .inl h
    · exact .inl h'
    · exact .inr ⟨rfl, bytesGt_trans h h'⟩

/-- The timestamp has not moved back. -/
def Advances (ts ts' : Bytes) : Prop := ts' = ts ∨ bytesGt ts' ts

theorem Advances.trans {a b c : Bytes} (h : Advances a b) (h' : Advances b c) : Advances a c := by
  rcases h with rfl | h
  · exact h'
  rcases h' with rfl | h'
  · exact .inr h
  · exact .inr (bytesGt_trans h' h)

/-- What is not past a timestamp is not past a later one. -/
theorem Advances.not_past {ts a b : Bytes} (h : Advances a b) (hts : ¬ bytesGt ts a) :
    ¬ bytesGt ts b := by
  rcases h with rfl | h
  · exact hts
  · exact fun hb => hts (bytesGt_trans hb h)

/-- The same public key, and no timestamp moved back. -/
structure Dated (l l' : NoiseLocal) : Prop where
  lPublic : l'.lPublic = l.lPublic
  timestamp : ∀ r, Advances (l.remotes r).rTimestamp (l'.remotes r).rTimestamp

theorem dated_of (hp : l'.lPublic = l.lPublic)
    (ht : ∀ r, (l'.remotes r).rTimestamp = (l.remotes r).rTimestamp) : Dated l l' :=
  ⟨hp, fun r => .inl (ht r)⟩

theorem Dated.refl (l : NoiseLocal) : Dated l l := dated_of rfl fun _ => rfl

theorem Dated.trans (h : Dated l l') (h' : Dated l' l'') : Dated l l'' :=
  ⟨h'.lPublic.trans h.lPublic, fun r => (h.timestamp r).trans (h'.timestamp r)⟩

theorem dated_modRemote {r : ℕ} {f : NoiseRemote → NoiseRemote}
    (hf : Advances (l.remotes r).rTimestamp (f (l.remotes r)).rTimestamp) :
    Dated l (l.modRemote r f) := ⟨rfl, fun r' => by
  rw [modRemote_remotes]
  split
  · next e => exact e ▸ hf
  · exact .inl rfl⟩

theorem dated_remotePut (l : NoiseLocal) (r : ℕ) : Dated l (noiseRemotePut l r) :=
  dated_modRemote (.inl rfl)

theorem dated_keypairPut (l : NoiseLocal) (k : ℕ) : Dated l (noiseKeypairPut l k) := by
  have h : Dated l (l.modKeypair k fun v => { v with kpRefcnt := v.kpRefcnt - 1 }) :=
    dated_of rfl fun _ => rfl
  unfold noiseKeypairPut
  simp only []
  split
  · exact h.trans (dated_remotePut _ _)
  · exact h

theorem dated_keypairDrop (l : NoiseLocal) : ∀ o, Dated l (noiseKeypairDrop l o)
  | none => .refl l
  | some k => by
    have h := dated_keypairPut { l with lIndexHash := l.lIndexHash.erase (.keypair k) } k
    exact ⟨h.lPublic, h.timestamp⟩

theorem dated_indexInsert {r : ℕ} {draws : List UInt32}
    (h : noiseRemoteIndexInsert l r draws = some l') : Dated l l' := by
  have hp : l'.lPublic = l.lPublic := by
    obtain ⟨i, -, rfl⟩ := Option.map_eq_some_iff.mp h
    show (noiseRemoteIndexRemove l r).lPublic = l.lPublic
    unfold noiseRemoteIndexRemove
    split <;> rfl
  refine dated_of hp fun r' => ?_
  rw [indexInsert_remotes h]
  split
  · next e => rw [e]
  · rfl

theorem dated_beginSession (p : Prims) (l : NoiseLocal) (r : ℕ) (birth : ℤ) :
    Dated l (noiseBeginSession p l r birth) := by
  obtain ⟨kp, -, -, -, -, -, heq⟩ := beginSession_eq p l r birth
  rw [heq, addNewKeypair_eq]
  set l₁ := (noiseRemoteRef l r).pushKeypair kp
  have h₁ : Dated l l₁ :=
    (dated_modRemote (l := l) (r := r) (f := fun v => { v with rRefcnt := v.rRefcnt + 1 })
      (.inl rfl)).trans (dated_of rfl fun _ => rfl)
  have h₂ : Dated l₁ (l₁.modRemote r (·.placed l.nKeypairs (l₁.keypairs l.nKeypairs).kpIsInitiator)) :=
    dated_modRemote (.inl (by cases (l₁.keypairs l.nKeypairs).kpIsInitiator <;> rfl))
  have hsettle : ∀ l r k, Dated l (noiseSettle l r k) := fun l r k => by
    refine dated_of rfl fun r' => ?_
    unfold noiseSettle
    simp only [modRemote_remotes]
    split
    · next e => rw [e]; rfl
    · rfl
  exact (((h₁.trans h₂).trans (dated_keypairDrop _ _)).trans (dated_keypairDrop _ _)).trans
    (hsettle _ _ _)

theorem dated_receivedWith (l : NoiseLocal) (k : ℕ) : Dated l (noiseKeypairReceivedWith l k) := by
  by_cases hn : (l.remotes (l.keypairs k).kpRemote).rNext = some k
  · rw [receivedWith_eq hn]
    exact (dated_modRemote (.inl rfl)).trans (dated_keypairDrop _ _)
  · rw [noiseKeypairReceivedWith, if_neg hn]
    exact .refl l

theorem dated_createResponse {r : ℕ} {env : ResponderEnv}
    {res : Option (UInt32 × UInt32 × Response)} (h : noiseCreateResponse p l r env = (l', res)) :
    Dated l l' := by
  rcases res with _ | ⟨sIdx, rIdx, msg⟩
  · obtain ⟨hs, rfl, -⟩ := createResponse_none h
    exact dated_modRemote (.inl rfl)
  · obtain ⟨-, hs, -, rfl, -, -⟩ := createResponse_some h
    exact ((dated_modRemote (l := l) (r := r) (f := fun v => { v with rHandshake := hs })
      (.inl rfl)).trans (dated_beginSession p _ r _)).trans (dated_modRemote (.inl rfl))

/-! ## Reading initiations -/

/-- The remote that an initiation comes from, and the timestamp it bears. -/
def initiationDate (p : Prims) (l : NoiseLocal) (msg : Initiation) : Option (ℕ × Bytes) :=
  if ¬ l.lHasIdentity then none
  else match noiseReadStatic p l msg.ue msg.es with
  | none => none
  | some (rPublic, ck, hash) =>
    match l.lRemoteHash.find? fun r => (l.remotes r).rPublic = rPublic with
    | none => none
    | some r =>
      (noiseReadTimestamp p (l.remotes r) msg.ue msg.ets ck hash).map fun res => (r, res.1)

/-- Initiations are read with the keys and the table of peers. -/
theorem initiationDate_congr (h : SameRoster l.links l'.links) (hp : l'.lPublic = l.lPublic)
    (msg : Initiation) : initiationDate p l' msg = initiationDate p l msg := by
  have hid : l'.lHasIdentity = l.lHasIdentity := h.hasIdentity
  have hpriv : l'.lPrivate = l.lPrivate := h.priv
  have hlist : l'.lRemoteHash = l.lRemoteHash := h.enabled
  have hpub : ∀ r, (l'.remotes r).rPublic = (l.remotes r).rPublic := h.pub
  have hss : ∀ r, (l'.remotes r).rSs = (l.remotes r).rSs := h.ss
  unfold initiationDate noiseReadStatic noiseReadTimestamp
  simp only [hid, hpriv, hlist, hpub, hss, hp]

variable {sIdx : UInt32} {msg : Initiation} {env : ResponderEnv}

/-- What cannot be read changes nothing. -/
theorem consumeInitiation_undated (h : initiationDate p l msg = none) (sIdx : UInt32)
    (env : ResponderEnv) : noiseConsumeInitiation p l sIdx msg env = some (l, none) := by
  unfold initiationDate at h
  unfold noiseConsumeInitiation
  split at h
  · next hid => rw [if_pos hid]
  next hid =>
  rw [if_neg hid]
  rcases hread : noiseReadStatic p l msg.ue msg.es with _ | ⟨rPublic, ck, hash⟩
  · rfl
  rcases hfind : l.lRemoteHash.find? fun r => (l.remotes r).rPublic = rPublic with _ | r
  · simp only [noiseRemoteLookup, hfind]
  simp only [hread, hfind] at h
  simp only [noiseRemoteLookup, hfind]
  have hts := Option.map_eq_none_iff.mp h
  rcases ha : noiseRemoteAcquire l r with ⟨l₁, _ | r₁⟩
  · simp only [acquire_none ha]
  · obtain ⟨-, rfl, rfl⟩ := acquire_some ha
    have hts' : noiseReadTimestamp p ((noiseRemoteRef l r₁).remotes r₁) msg.ue msg.ets ck hash
        = none := by
      rw [noiseRemoteRef, modRemote_remotes, if_pos rfl]
      exact hts
    simp only [hts', put_ref]

/-- An initiation whose timestamp is not past its remote's changes nothing; one that is read moves the
remote's timestamp up to its own. -/
theorem consumeInitiation_dated {r : ℕ} {ts : Bytes} (h : initiationDate p l msg = some (r, ts))
    (hc : (l.remotes r).rRefcnt ≠ 0) (sIdx : UInt32) (env : ResponderEnv) :
    (¬ bytesGt ts (l.remotes r).rTimestamp →
      noiseConsumeInitiation p l sIdx msg env = some (l, none))
    ∧ ∀ l' res, noiseConsumeInitiation p l sIdx msg env = some (l', res) →
      ¬ bytesGt ts (l'.remotes r).rTimestamp := by
  unfold initiationDate at h
  split at h
  · cases h
  next hid =>
  split at h
  · cases h
  next rPublic ck hash hread =>
  split at h
  · cases h
  next r₁ hfind =>
  obtain ⟨⟨ts', hs⟩, hts, he⟩ := Option.map_eq_some_iff.mp h
  obtain ⟨rfl, rfl⟩ := Prod.mk.inj he
  have hself : bytesGt ts' ts' = false := bytesGt_irrefl ts'
  have hread' : noiseReadTimestamp p ((noiseRemoteRef l r₁).remotes r₁) msg.ue msg.ets ck hash
      = some (ts', hs) := by
    rw [noiseRemoteRef, modRemote_remotes, if_pos rfl]
    exact hts
  have hold : ((noiseRemoteRef l r₁).remotes r₁).rTimestamp = (l.remotes r₁).rTimestamp := by
    rw [noiseRemoteRef, modRemote_remotes, if_pos rfl]
  unfold noiseConsumeInitiation
  rw [if_neg hid]
  simp only [hread, noiseRemoteLookup, hfind, noiseRemoteAcquire, if_neg hc, hread', hold, put_ref]
  refine ⟨fun hno => by rw [if_pos hno], fun l' res hs' => ?_⟩
  split at hs'
  · next hno =>
    simp only [Option.some.injEq, Prod.mk.injEq] at hs'
    exact hs'.1 ▸ hno
  split at hs'
  · simp only [Option.some.injEq, Prod.mk.injEq] at hs'
    rw [← hs'.1, noiseRemotePut, modRemote_remotes, if_pos rfl, modRemote_remotes, if_pos rfl, hself]
    simp
  · obtain ⟨l₁, hl₁, hs'⟩ := Option.map_eq_some_iff.mp hs'
    simp only [Prod.mk.injEq] at hs'
    have hstamp : (l₁.remotes r₁).rTimestamp = ts' := by
      rw [indexInsert_remotes hl₁, if_pos rfl]
      simp only [modRemote_remotes, if_true]
    rw [← hs'.1, modRemote_remotes, if_pos rfl, hstamp, hself]
    simp

theorem dated_consumeInitiation {res : Option ℕ}
    (h : noiseConsumeInitiation p l sIdx msg env = some (l', res)) : Dated l l' := by
  unfold noiseConsumeInitiation at h
  split at h
  · simp only [Option.some.injEq, Prod.mk.injEq] at h
    exact h.1 ▸ .refl l
  split at h
  · simp only [Option.some.injEq, Prod.mk.injEq] at h
    exact h.1 ▸ .refl l
  have hlook : ∀ {pub l₁ o}, noiseRemoteLookup l pub = (l₁, o) → Dated l l₁ := by
    intro pub l₁ o hl
    unfold noiseRemoteLookup at hl
    split at hl
    · simp only [Prod.mk.injEq] at hl
      exact hl.1 ▸ .refl l
    · rcases o with _ | r
      · exact (acquire_none hl) ▸ .refl l
      · obtain ⟨-, -, rfl⟩ := acquire_some hl
        exact dated_modRemote (.inl rfl)
  split at h
  · next h1 =>
    simp only [Option.some.injEq, Prod.mk.injEq] at h
    exact h.1 ▸ hlook h1
  next l₁ r h1 =>
  have hl := hlook h1
  split at h
  · simp only [Option.some.injEq, Prod.mk.injEq] at h
    exact h.1 ▸ hl.trans (dated_remotePut _ _)
  next ts hs hts =>
  split at h
  · simp only [Option.some.injEq, Prod.mk.injEq] at h
    exact h.1 ▸ hl.trans (dated_remotePut _ _)
  next hgt =>
  have hup : Dated l₁ (l₁.modRemote r fun v => { v with rTimestamp := ts }) :=
    dated_modRemote (.inr (not_not.mp hgt))
  simp only [] at h
  split at h
  · simp only [Option.some.injEq, Prod.mk.injEq] at h
    exact h.1 ▸ hl.trans (hup.trans (dated_remotePut _ _))
  · obtain ⟨l₂, h2, h3⟩ := Option.map_eq_some_iff.mp h
    simp only [Prod.mk.injEq, put_ref] at h3
    rw [← h3.1]
    exact hl.trans ((hup.trans (dated_modRemote (.inl rfl))).trans
      ((dated_indexInsert h2).trans (dated_modRemote (.inl rfl))))

theorem dated_keypairCurrent {r : ℕ} {now : ℤ} {o : Option ℕ}
    (h : noiseKeypairCurrent l r now = (l', o)) : Dated l l' := by
  unfold noiseKeypairCurrent at h
  repeat' split at h
  all_goals
    simp only [Prod.mk.injEq] at h
    rw [← h.1]
    exact dated_of rfl fun _ => rfl

theorem dated_nonceNext {k : ℕ} {o : Option ℕ} (h : noiseKeypairNonceNext l k = (l', o)) :
    Dated l l' := by
  unfold noiseKeypairNonceNext at h
  simp only [] at h
  repeat' split at h
  all_goals
    simp only [Prod.mk.injEq] at h
    rw [← h.1]
    exact dated_of rfl fun _ => rfl

/-- No step moves a timestamp back. -/
theorem NoiseStep.dated (hs : NoiseStep p l l') : Dated l l' := by
  cases hs with
  | @dial r env res _ hr hc =>
    rcases res with _ | ⟨idx, msg⟩
    · obtain ⟨hs, rfl⟩ := createInitiation_none hc
      exact dated_modRemote (.inl rfl)
    · obtain ⟨-, -, hs, l₁, -, hl₁, -, rfl⟩ := createInitiation_some hc
      exact ((dated_modRemote (l := l) (r := r) (f := fun v => { v with rHandshake := hs })
        (.inl rfl)).trans (dated_indexInsert hl₁)).trans (dated_modRemote (.inl rfl))
  | refuse hc => exact dated_consumeInitiation hc
  | answer hc hc' =>
    exact ((dated_consumeInitiation hc).trans (dated_createResponse hc')).trans (dated_remotePut _ _)
  | @complete _ _ _ _ r _ hc =>
    obtain ⟨-, -, -, -, -, hs, -, rfl⟩ := consumeResponse_some hc
    exact (((dated_modRemote (l := l) (r := r) (f := fun v => { v with rRefcnt := v.rRefcnt + 1 })
      (.inl rfl)).trans (dated_modRemote (.inl rfl))).trans (dated_beginSession p _ r _)).trans
      (dated_remotePut _ _)
  | @receive k hk =>
    have h1 : Dated l (noiseKeypairRef l k) := dated_of rfl fun _ => rfl
    exact (h1.trans (dated_receivedWith _ k)).trans (dated_keypairPut _ k)
  | idle hc => exact dated_keypairCurrent hc
  | send hc hn =>
    exact ((dated_keypairCurrent hc).trans (dated_nonceNext hn)).trans (dated_keypairPut _ _)

theorem noiseSteps_dated (hs : Relation.ReflTransGen (NoiseStep p) l l') : Dated l l' := by
  induction hs with
  | refl => exact .refl l
  | tail _ hst ih => exact ih.trans hst.dated

/-- After an initiation has been passed in, and any steps, it is refused and changes nothing. -/
theorem consumeInitiation_once (h : Exact l) {res : Option ℕ}
    (hs : noiseConsumeInitiation p l sIdx msg env = some (l', res))
    (hsteps : Relation.ReflTransGen (NoiseStep p) l l'') (hd : Dated l' l'') (sIdx' : UInt32)
    (env' : ResponderEnv) : noiseConsumeInitiation p l'' sIdx' msg env' = some (l'', none) := by
  obtain ⟨hexact, hroster⟩ := noiseSteps_exact h hsteps
  have hsame := initiationDate_congr (p := p) hroster (noiseSteps_dated hsteps).lPublic msg
  rcases hdate : initiationDate p l msg with _ | ⟨r, ts⟩
  · exact consumeInitiation_undated (hsame.trans hdate) sIdx' env'
  have hmem : r ∈ l.lRemoteHash := by
    unfold initiationDate at hdate
    repeat' split at hdate
    all_goals try cases hdate
    next hfind =>
    obtain ⟨_, -, he⟩ := Option.map_eq_some_iff.mp hdate
    exact (Prod.mk.inj he).1 ▸ List.mem_of_find?_eq_some hfind
  have alive : ∀ {l : NoiseLocal}, Exact l → (l.remotes r).rEntryInserted →
      (l.remotes r).rRefcnt ≠ 0 := fun {l} hl hr h0 => by
    have := hl.counted.remoteCount r
    simp only [Links.refs, NoiseLocal.links, NoiseRemote.link, hr, Bool.toNat_true] at this
    omega
  have hin := (h.listed r hmem).2
  have hpast := (consumeInitiation_dated hdate (alive h hin) sIdx env).2 l' res hs
  have hins : (l''.remotes r).rEntryInserted := (hroster.inserted r).trans hin
  exact (consumeInitiation_dated (hsame.trans hdate) (alive hexact hins) sIdx' env').1
    ((hd.timestamp r).not_past hpast)

/-! ## The client -/

namespace Tunnel

open Specimen

variable {t₀ t₁ t₂ t₃ : Tunnel}

/-- What becomes of the Noise layer once an initiation has been passed to it. -/
theorem consumeInitiation_noise {bytes : Bytes} {src : Sockaddr} {srcLen : ℕ} {env : AnswerEnv}
    {rc : Int} {out : List Upcall}
    (hs : tunnelConsumeInitiation p t₁ bytes src srcLen env = some (rc, t₂, out)) :
    (bytes.length < 148
      ∨ ¬ cookieCheckerValidateMacs p t₁.cookieChecker (macsOf 116 bytes) (bytes.take 116))
    ∨ ∃ l res, noiseConsumeInitiation p t₁.noise (le32dec (slice 4 4 bytes)) (initiationOf bytes)
      env.responder = some (l, res) ∧ Dated l t₂.noise := by
  unfold tunnelConsumeInitiation at hs
  split at hs
  · next hlen => exact .inl (.inl hlen)
  split at hs
  · next hmac => exact .inl (.inr hmac)
  obtain ⟨⟨l, res⟩, hc, hs⟩ := Option.map_eq_some_iff.mp hs
  refine .inr ⟨l, res, hc, ?_⟩
  rcases res with _ | r
  · simp only [Prod.mk.injEq] at hs
    exact hs.2.1 ▸ .refl l
  rcases hn : noiseCreateResponse p l r env.responder with ⟨l₁, _ | ⟨sIdx, rIdx, msg⟩⟩
  · simp only [hn, Prod.mk.injEq] at hs
    exact hs.2.1 ▸ (dated_createResponse hn).trans (dated_remotePut _ _)
  simp only [hn] at hs
  split at hs
  all_goals
    simp only [Prod.mk.injEq] at hs
    exact hs.2.1 ▸ (dated_createResponse hn).trans (dated_remotePut _ _)

/-- An initiation that comes again, whenever that is and wherever from, does nothing. -/
theorem client_initiation_once {cfg : ClientConfig} {evs evs' : List Event} {bytes : Bytes}
    {src src' : Sockaddr} {srcLen srcLen' : ℕ} {env env' : RxEnv} {out : List Upcall}
    (h : Started p cfg t₀) (hrun : Run (step p) (fun _ _ => True) t₀ evs t₁)
    (ht : le32dec (bytes.take 4) = wgsPktInitiation)
    (hs : step p t₁ (.rx bytes src srcLen env) = some (t₂, out))
    (hrun' : Run (step p) (fun _ _ => True) t₂ evs' t₃) :
    step p t₃ (.rx bytes src' srcLen' env') = some (t₃, []) := by
  obtain ⟨hroot₁, -⟩ := run_goes (started_rooted h).1 hrun
  have hg₁ := step_goes hroot₁ hs
  obtain ⟨-, hg₂⟩ := run_goes (hroot₁.goes hg₁) hrun'
  have hg := hg₁.trans hg₂
  have htype : ¬ le32dec (bytes.take 4) = wgsPktData := by
    rw [ht]
    decide
  replace hs : rxHandleDatagram p t₁ bytes src srcLen env = some (t₂, out) := hs
  show rxHandleDatagram p t₃ bytes src' srcLen' env' = some (t₃, [])
  unfold rxHandleDatagram at hs ⊢
  by_cases hlen : bytes.length < 4
  · rw [if_pos hlen]
  simp only [if_neg hlen, if_neg htype, if_pos ht] at hs ⊢
  obtain ⟨⟨rc, t, o⟩, hc, he⟩ := Option.map_eq_some_iff.mp hs
  simp only [Prod.mk.injEq] at he
  obtain ⟨rfl, rfl⟩ := he
  have hsame : t₃.setNoise t₃.noise = t₃ := rfl
  unfold tunnelConsumeInitiation
  rw [hg.checker]
  rcases consumeInitiation_noise hc with hbad | ⟨l, res, hl, hd⟩
  · split
    · rfl
    · next h148 =>
      rw [if_pos (hbad.resolve_left h148)]
      rfl
  · split
    · rfl
    split
    · rfl
    · rw [consumeInitiation_once hroot₁.exact hl hg.noise (hd.trans (noiseSteps_dated hg₂.noise))]
      rfl

/-- The client B over the initiation that A dials it with. -/
def introduction : Option (ClientConfig × Tunnel × Bytes × Tunnel × List Upcall) := do
  let cfgA ← loadConfig specimen (conf keyA keyB "Endpoint=b:51820\nAllowedIPs=10.0.0.2/32\n")
  let a ← start specimen (names hostB) cfgA
  let cfg ← loadConfig specimen (conf keyB keyA "Endpoint=a:51820\nAllowedIPs=10.0.0.1/32\n")
  let t₀ ← start specimen (names hostA) cfg
  let (_, ini) ← step specimen a (.tick 100 fun _ => turn 100 7)
  let (t, out) ← step specimen t₀ (.rx (sent ini) hostA 16 (incoming 100 8))
  pure (cfg, t₀, sent ini, t, out)

theorem client_initiation_once_answered : ∃ t₁ t₂ bytes out,
    le32dec (bytes.take 4) = wgsPktInitiation
      ∧ step specimen t₁ (.rx bytes hostA 16 (incoming 100 8)) = some (t₂, out) ∧ out.length = 1
      ∧ step specimen t₂ (.rx bytes hostB 16 (incoming 200 9)) = some (t₂, []) := by
  have hrun : introduction.any (fun x => decide (le32dec (x.2.2.1.take 4) = wgsPktInitiation
      ∧ x.2.2.2.2.length = 1)) = true := by
    decide +kernel
  obtain ⟨⟨cfg, t₀, bytes, t, out⟩, h, hx⟩ := (Option.any_eq_true _ _).mp hrun
  obtain ⟨ht, hlen⟩ := of_decide_eq_true hx
  simp only [introduction, Option.bind_eq_bind, Option.bind_eq_some_iff, Option.pure_def,
    Option.some.injEq, Prod.mk.injEq] at h
  obtain ⟨cfgA, -, a, -, cfg', -, t₁, hstart, ⟨a₁, ini⟩, -, ⟨t₂, o₁⟩, hs, rfl, rfl, rfl, rfl, rfl⟩ := h
  exact ⟨_, _, _, _, ht, hs, hlen,
    client_initiation_once ⟨_, hstart⟩ (.nil _) ht hs (.nil _)⟩

end Tunnel

end PolarWG
