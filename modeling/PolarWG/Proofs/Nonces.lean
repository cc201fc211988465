import PolarWG.Proofs.Configured

/-!
# Counters are used once

What a call seals is listed as pairs of the keypair and the counter taken from it, in the order
the datagrams are sent. A keypair's counter only grows, past each pair in the list, so no pair
comes up again.
-/

namespace PolarWG

open Specimen

variable {p : Prims} {s s' s'' : WgSession} {l l' l'' : NoiseLocal}

/-! ## What is sealed -/

section Logs

variable (p : Prims)

/-- The keypair and the counter `wgsEncap` seals a packet with, if it sends it. -/
def encapLog (s : WgSession) (i : ℕ) (plain : Bytes) (env : EncapEnv) : List (ℕ × ℕ) :=
  match (s.peers i).remote with
  | none => []
  | some r =>
    match noiseKeypairCurrent s.noise r env.check.getsbinuptime with
    | (_, none) => []
    | (l, some k) =>
      match noiseKeypairNonceNext l k with
      | (_, none) => []
      | (_, some nonce) => if (wgsEncap p s i plain env).1 = 0 then [(k, nonce)] else []

def tickKeepaliveLog (env : TickEnv) (s : WgSession) (i : ℕ) : List (ℕ × ℕ) :=
  if (s.peers i).pkSec > 0 ∧ (s.peers i).lastAuthdTx > 0
      ∧ env.now.time - (s.peers i).lastAuthdTx ≥ (s.peers i).pkSec then
    encapLog p s i [] (env.keepalive i)
  else []

def tickPeerLog (env : TickEnv) (s : WgSession) (i : ℕ) : List (ℕ × ℕ) :=
  if (s.peers i).active then
    match tickRetransmit p env s i with
    | none => []
    | some (s, _) =>
      match tickRekey p env s i with
      | none => []
      | some (s, _) => tickKeepaliveLog p env s i
  else []

def tickLog (env : TickEnv) : List ℕ → WgSession → List (ℕ × ℕ)
  | [], _ => []
  | i :: is, s => tickPeerLog p env s i ++
    match tickPeer p env s i with
    | none => []
    | some (s, _) => tickLog env is s

def callLog (s : WgSession) : Call → List (ℕ × ℕ)
  | .handleTun bytes env =>
    if bytes.length < 1 then []
    else match sessionLookupDst s bytes with
    | none => []
    | some i => encapLog p s i bytes env
  | .tick env => tickLog p env (List.range s.nPeers) s
  | _ => []

/-- The pairs of all calls of a run. -/
def runLog : WgSession → List Call → List (ℕ × ℕ)
  | _, [] => []
  | s, call :: calls => callLog p s call ++
    match sessionStep p s call with
    | none => []
    | some (s, _) => runLog s calls

/-- The data datagrams among the upcalls. -/
def dataSent (out : List Upcall) : List Bytes :=
  out.filterMap fun
    | .sendUdp bytes _ _ => if le32dec (bytes.take 4) = wgsPktData then some bytes else none
    | .deliverIp _ => none

/-- The datagram has the counter in its header and is sealed with it under the keypair's key. -/
def SealedWith (l : NoiseLocal) (e : ℕ × ℕ) (bytes : Bytes) : Prop :=
  ∃ m, bytes = dataHdrBytes (l.keypairs e.1).iRemoteIndex e.2
    ++ p.chacha20poly1305Encrypt (l.keypairs e.1).kpSend e.2 [] m

end Logs

/-! ## Counters of the Noise layer -/

/-- What a keypair sends with. -/
def NoiseKeypair.sender (kp : NoiseKeypair) : UInt32 × Bytes × ℕ :=
  (kp.iRemoteIndex, kp.kpSend, kp.kpNonceSend)

/-- The same keypairs, sending with the same. -/
structure SameSenders (l l' : NoiseLocal) : Prop where
  nKeypairs : l'.nKeypairs = l.nKeypairs
  sender : ∀ k, (l'.keypairs k).sender = (l.keypairs k).sender

theorem SameSenders.refl (l : NoiseLocal) : SameSenders l l := ⟨rfl, fun _ => rfl⟩

theorem SameSenders.trans (h : SameSenders l l') (h' : SameSenders l' l'') : SameSenders l l'' :=
  ⟨h'.nKeypairs.trans h.nKeypairs, fun k => (h'.sender k).trans (h.sender k)⟩

theorem sameSenders_of_eq (hn : l'.nKeypairs = l.nKeypairs) (hk : l'.keypairs = l.keypairs) :
    SameSenders l l' := ⟨hn, fun k => by rw [hk]⟩

theorem sameSenders_modKeypair {k : ℕ} {f : NoiseKeypair → NoiseKeypair}
    (hf : (f (l.keypairs k)).sender = (l.keypairs k).sender) :
    SameSenders l (l.modKeypair k f) := ⟨rfl, fun j => by
  rw [modKeypair_keypairs]
  split
  · next e => rw [hf, e]
  · rfl⟩

theorem sameSenders_keypairPut (l : NoiseLocal) (k : ℕ) : SameSenders l (noiseKeypairPut l k) := by
  have h : SameSenders l (l.modKeypair k fun v => { v with kpRefcnt := v.kpRefcnt - 1 }) :=
    sameSenders_modKeypair rfl
  unfold noiseKeypairPut
  simp only []
  split
  · exact h.trans (sameSenders_of_eq rfl rfl)
  · exact h

theorem sameSenders_keypairDrop (l : NoiseLocal) : ∀ o, SameSenders l (noiseKeypairDrop l o)
  | none => .refl l
  | some k => by
    have h := sameSenders_keypairPut { l with lIndexHash := l.lIndexHash.erase (.keypair k) } k
    exact ⟨h.nKeypairs, h.sender⟩

theorem sameSenders_modRemote (l : NoiseLocal) (r : ℕ) (f : NoiseRemote → NoiseRemote) :
    SameSenders l (l.modRemote r f) := sameSenders_of_eq rfl rfl

theorem sameSenders_remotePut (l : NoiseLocal) (r : ℕ) : SameSenders l (noiseRemotePut l r) :=
  sameSenders_modRemote l r _

theorem keypairCurrent_sameSenders {r : ℕ} {now : ℤ} {o : Option ℕ}
    (h : noiseKeypairCurrent l r now = (l', o)) : SameSenders l l' := by
  unfold noiseKeypairCurrent at h
  repeat' split at h
  all_goals
    simp only [Prod.mk.injEq] at h
    rw [← h.1]
  · exact .refl l
  · exact sameSenders_modKeypair rfl
  · exact .refl l
  · exact sameSenders_modKeypair rfl
  · exact .refl l

theorem receivedWith_sameSenders (l : NoiseLocal) (k : ℕ) :
    SameSenders l (noiseKeypairReceivedWith l k) := by
  unfold noiseKeypairReceivedWith
  simp only []
  split
  · exact ((sameSenders_modRemote l _ _).trans (sameSenders_keypairDrop _ _)).trans
      (sameSenders_modRemote _ _ _)
  · exact .refl l

/-- The pairs `log` are taken on the way from `l` to `l'`: each from a counter that moves past it. -/
structure Emits (l l' : NoiseLocal) (log : List (ℕ × ℕ)) : Prop where
  grow : l.nKeypairs ≤ l'.nKeypairs
  index : ∀ k < l.nKeypairs, (l'.keypairs k).iRemoteIndex = (l.keypairs k).iRemoteIndex
  key : ∀ k < l.nKeypairs, (l'.keypairs k).kpSend = (l.keypairs k).kpSend
  mono : ∀ k < l.nKeypairs, (l.keypairs k).kpNonceSend ≤ (l'.keypairs k).kpNonceSend
  known : ∀ e ∈ log, e.1 < l'.nKeypairs
  fresh : ∀ e ∈ log, e.1 < l.nKeypairs → (l.keypairs e.1).kpNonceSend ≤ e.2
  past : ∀ e ∈ log, e.2 < (l'.keypairs e.1).kpNonceSend
  allowed : ∀ e ∈ log, e.2 < rejectAfterMessages
  increasing : log.Pairwise fun a b => a.1 = b.1 → a.2 < b.2

theorem SameSenders.emits (h : SameSenders l l') : Emits l l' [] where
  grow := h.nKeypairs.ge
  index := fun k _ => congrArg Prod.fst (h.sender k)
  key := fun k _ => congrArg (·.2.1) (h.sender k)
  mono := fun k _ => (congrArg (·.2.2) (h.sender k)).ge
  known := fun _ he => absurd he List.not_mem_nil
  fresh := fun _ he => absurd he List.not_mem_nil
  past := fun _ he => absurd he List.not_mem_nil
  allowed := fun _ he => absurd he List.not_mem_nil
  increasing := .nil

theorem Emits.forget {log : List (ℕ × ℕ)} (h : Emits l l' log) : Emits l l' [] :=
  ⟨h.grow, h.index, h.key, h.mono, by simp, by simp, by simp, by simp, .nil⟩

theorem Emits.trans {log log' : List (ℕ × ℕ)} (h : Emits l l' log) (h' : Emits l' l'' log') :
    Emits l l'' (log ++ log') where
  grow := h.grow.trans h'.grow
  index := fun k hk => (h'.index k (hk.trans_le h.grow)).trans (h.index k hk)
  key := fun k hk => (h'.key k (hk.trans_le h.grow)).trans (h.key k hk)
  mono := fun k hk => (h.mono k hk).trans (h'.mono k (hk.trans_le h.grow))
  known := fun e he => (List.mem_append.mp he).elim (fun he => (h.known e he).trans_le h'.grow)
    (h'.known e)
  fresh := fun e he hk => (List.mem_append.mp he).elim (fun he => h.fresh e he hk)
    fun he => (h.mono _ hk).trans (h'.fresh e he (hk.trans_le h.grow))
  past := fun e he => (List.mem_append.mp he).elim
    (fun he => (h.past e he).trans_le (h'.mono _ (h.known e he))) (h'.past e)
  allowed := fun e he => (List.mem_append.mp he).elim (h.allowed e) (h'.allowed e)
  increasing := by
    refine List.pairwise_append.mpr ⟨h.increasing, h'.increasing, fun a ha b hb hab => ?_⟩
    have hb' := h'.fresh b hb (hab ▸ h.known a ha)
    exact (h.past a ha).trans_le (hab ▸ hb')

/-- A keypair that is put in its remote's slots gets an index; no other changes. -/
theorem addNewKeypair_senders (l : NoiseLocal) (r k : ℕ) :
    (noiseAddNewKeypair l r k).nKeypairs = l.nKeypairs
      ∧ ∀ j ≠ k, ((noiseAddNewKeypair l r k).keypairs j).sender = (l.keypairs j).sender := by
  rw [addNewKeypair_eq]
  have h : SameSenders l (noiseKeypairDrop
      (noiseKeypairDrop (l.modRemote r (·.placed k (l.keypairs k).kpIsInitiator))
        ((l.remotes r).displaced (l.keypairs k).kpIsInitiator)) (l.remotes r).rPrevious) :=
    ((sameSenders_modRemote l _ _).trans (sameSenders_keypairDrop _ _)).trans
      (sameSenders_keypairDrop _ _)
  refine ⟨h.nKeypairs, fun j hj => ?_⟩
  unfold noiseSettle
  simp only [modRemote_keypairs, modKeypair_keypairs, if_neg hj]
  exact h.sender j

/-- A session's new keypair comes after the ones there are. -/
theorem beginSession_emits (p : Prims) (l : NoiseLocal) (r : ℕ) (birth : ℤ) :
    Emits l (noiseBeginSession p l r birth) [] := by
  obtain ⟨kp, hkp⟩ : ∃ kp, noiseBeginSession p l r birth = noiseAddNewKeypair
      { noiseRemoteRef l r with
        keypairs := Function.update l.keypairs l.nKeypairs kp, nKeypairs := l.nKeypairs + 1 }
      r l.nKeypairs := ⟨_, rfl⟩
  obtain ⟨hn, hk⟩ := addNewKeypair_senders { noiseRemoteRef l r with
    keypairs := Function.update l.keypairs l.nKeypairs kp, nKeypairs := l.nKeypairs + 1 } r l.nKeypairs
  rw [← hkp] at hn hk
  have hold : ∀ k < l.nKeypairs, ((noiseBeginSession p l r birth).keypairs k).sender
      = (l.keypairs k).sender := fun k hlt => by
    rw [hk k hlt.ne]
    exact congrArg NoiseKeypair.sender (Function.update_of_ne hlt.ne _ _)
  refine ⟨?_, fun k hlt => congrArg Prod.fst (hold k hlt),
    fun k hlt => congrArg (·.2.1) (hold k hlt), fun k hlt => (congrArg (·.2.2) (hold k hlt)).ge,
    fun _ he => absurd he List.not_mem_nil, fun _ he => absurd he List.not_mem_nil,
    fun _ he => absurd he List.not_mem_nil, fun _ he => absurd he List.not_mem_nil, .nil⟩
  rw [hn]
  exact Nat.le_succ _

/-- Taking a counter moves past it. -/
theorem nonceNext_emits {k : ℕ} {o : Option ℕ} (hk : k < l.nKeypairs)
    (h : noiseKeypairNonceNext l k = (l', o)) : Emits l l' (o.toList.map fun n => (k, n)) := by
  unfold noiseKeypairNonceNext at h
  split at h
  swap
  · simp only [Prod.mk.injEq] at h
    obtain ⟨rfl, rfl⟩ := h
    exact (SameSenders.refl l).emits
  simp only [] at h
  set l₁ := l.modKeypair k fun v => { v with kpNonceSend := (l.keypairs k).kpNonceSend + 1 } with hl₁
  have hother : ∀ j ≠ k, l₁.keypairs j = l.keypairs j := fun j hj => by
    rw [hl₁, modKeypair_keypairs, if_neg hj]
  have hself : l₁.keypairs k
      = { l.keypairs k with kpNonceSend := (l.keypairs k).kpNonceSend + 1 } := by
    rw [hl₁, modKeypair_keypairs, if_pos rfl]
  have hindex : ∀ j < l.nKeypairs, (l₁.keypairs j).iRemoteIndex = (l.keypairs j).iRemoteIndex
      ∧ (l₁.keypairs j).kpSend = (l.keypairs j).kpSend
      ∧ (l.keypairs j).kpNonceSend ≤ (l₁.keypairs j).kpNonceSend := fun j _ => by
    by_cases hj : j = k
    · subst hj
      rw [hself]
      exact ⟨rfl, rfl, Nat.le_succ _⟩
    · rw [hother j hj]
      exact ⟨rfl, rfl, le_rfl⟩
  split at h
  · next hlt =>
    simp only [Prod.mk.injEq] at h
    obtain ⟨rfl, rfl⟩ := h
    refine ⟨le_rfl, fun j hj => (hindex j hj).1, fun j hj => (hindex j hj).2.1,
      fun j hj => (hindex j hj).2.2, ?_, ?_, ?_, ?_, ?_⟩
    all_goals simp only [Option.toList_some, List.map_cons, List.map_nil, List.mem_singleton,
      forall_eq, List.pairwise_singleton]
    · exact hk
    · exact fun _ => le_rfl
    · rw [hself]
      exact Nat.lt_succ_self _
    · exact hlt
  · simp only [Prod.mk.injEq] at h
    obtain ⟨rfl, rfl⟩ := h
    have hstop : SameSenders l₁ (l₁.modKeypair k fun v => { v with kpCanSend := false }) :=
      sameSenders_modKeypair rfl
    have htake : Emits l l₁ [] := ⟨le_rfl, fun j hj => (hindex j hj).1,
      fun j hj => (hindex j hj).2.1, fun j hj => (hindex j hj).2.2, by simp, by simp, by simp,
      by simp, .nil⟩
    exact htake.trans hstop.emits

/-! ## Handshakes -/

theorem remoteIndexRemove_sameSenders (l : NoiseLocal) (r : ℕ) :
    SameSenders l (noiseRemoteIndexRemove l r) := by
  unfold noiseRemoteIndexRemove
  split
  · exact .refl l
  · exact sameSenders_of_eq rfl rfl

theorem remoteIndexInsert_sameSenders {r : ℕ} {draws : List UInt32}
    (h : noiseRemoteIndexInsert l r draws = some l') : SameSenders l l' := by
  obtain ⟨i, -, rfl⟩ := Option.map_eq_some_iff.mp h
  have hr := remoteIndexRemove_sameSenders l r
  exact ⟨hr.nKeypairs, hr.sender⟩

theorem remoteAcquire_sameSenders {r : ℕ} {o : Option ℕ}
    (h : noiseRemoteAcquire l r = (l', o)) : SameSenders l l' := by
  unfold noiseRemoteAcquire at h
  split at h
  all_goals
    simp only [Prod.mk.injEq] at h
    rw [← h.1]
  · exact .refl l
  · exact sameSenders_modRemote l _ _

theorem createInitiation_sameSenders {r : ℕ} {env : InitiationEnv}
    {res : Option (UInt32 × Initiation)}
    (h : noiseCreateInitiation p l r env = some (l', res)) : SameSenders l l' := by
  unfold noiseCreateInitiation at h
  split at h
  · simp only [Option.some.injEq, Prod.mk.injEq] at h
    exact h.1 ▸ .refl l
  split at h
  · simp only [Option.some.injEq, Prod.mk.injEq] at h
    exact h.1 ▸ .refl l
  simp only [] at h
  split at h
  · simp only [Option.some.injEq, Prod.mk.injEq] at h
    exact h.1 ▸ sameSenders_modRemote l _ _
  · obtain ⟨l₁, h1, h2⟩ := Option.map_eq_some_iff.mp h
    simp only [Prod.mk.injEq] at h2
    exact h2.1 ▸ ((sameSenders_modRemote l _ _).trans (remoteIndexInsert_sameSenders h1)).trans
      (sameSenders_modRemote _ _ _)

theorem consumeInitiation_sameSenders {sIdx : UInt32} {msg : Initiation} {env : ResponderEnv}
    {res : Option ℕ} (h : noiseConsumeInitiation p l sIdx msg env = some (l', res)) :
    SameSenders l l' := by
  unfold noiseConsumeInitiation at h
  split at h
  · simp only [Option.some.injEq, Prod.mk.injEq] at h
    exact h.1 ▸ .refl l
  split at h
  · simp only [Option.some.injEq, Prod.mk.injEq] at h
    exact h.1 ▸ .refl l
  have hlook : ∀ {pub l₁ o}, noiseRemoteLookup l pub = (l₁, o) → SameSenders l l₁ := by
    intro pub l₁ o hl
    unfold noiseRemoteLookup at hl
    split at hl
    · simp only [Prod.mk.injEq] at hl
      exact hl.1 ▸ .refl l
    · exact remoteAcquire_sameSenders hl
  split at h
  · next h1 =>
    simp only [Option.some.injEq, Prod.mk.injEq] at h
    exact h.1 ▸ hlook h1
  next l₁ r h1 =>
  have hl := hlook h1
  split at h
  · simp only [Option.some.injEq, Prod.mk.injEq] at h
    exact h.1 ▸ hl.trans (sameSenders_modRemote _ _ _)
  split at h
  · simp only [Option.some.injEq, Prod.mk.injEq] at h
    exact h.1 ▸ hl.trans (sameSenders_modRemote _ _ _)
  simp only [] at h
  split at h
  · simp only [Option.some.injEq, Prod.mk.injEq] at h
    exact h.1 ▸ hl.trans ((sameSenders_modRemote _ _ _).trans (sameSenders_modRemote _ _ _))
  · obtain ⟨l₂, h2, h3⟩ := Option.map_eq_some_iff.mp h
    simp only [Prod.mk.injEq] at h3
    have hi := remoteIndexInsert_sameSenders h2
    rw [← h3.1]
    refine hl.trans (SameSenders.trans ⟨hi.nKeypairs, hi.sender⟩ ?_)
    exact sameSenders_of_eq rfl rfl

theorem createResponse_emits {r : ℕ} {env : ResponderEnv}
    {res : Option (UInt32 × UInt32 × Response)}
    (h : noiseCreateResponse p l r env = (l', res)) : Emits l l' [] := by
  unfold noiseCreateResponse at h
  split at h
  · simp only [Prod.mk.injEq] at h
    exact h.1 ▸ (SameSenders.refl l).emits
  simp only [] at h
  split at h
  · simp only [Prod.mk.injEq] at h
    exact h.1 ▸ (sameSenders_modRemote l _ _).emits
  · simp only [Prod.mk.injEq] at h
    rw [← h.1]
    exact ((sameSenders_modRemote l _ _).emits.trans (beginSession_emits _ _ _ _)).trans
      (sameSenders_modRemote _ _ _).emits

theorem consumeResponse_emits {sIdx rIdx : UInt32} {msg : Response} {birth : Moment}
    {res : Option ℕ} (h : noiseConsumeResponse p l sIdx rIdx msg birth = (l', res)) :
    Emits l l' [] := by
  have hlook : ∀ {l₁ o}, noiseRemoteIndexLookup l rIdx false = (l₁, o) → SameSenders l l₁ := by
    intro l₁ o hl
    unfold noiseRemoteIndexLookup at hl
    split at hl
    · simp only [Prod.mk.injEq] at hl
      exact hl.1 ▸ .refl l
    · exact remoteAcquire_sameSenders hl
    · simp only [Bool.false_eq_true, if_false, Prod.mk.injEq] at hl
      exact hl.1 ▸ .refl l
  unfold noiseConsumeResponse at h
  split at h
  · next h1 =>
    simp only [Prod.mk.injEq] at h
    exact h.1 ▸ (hlook h1).emits
  next l₁ r h1 =>
  have hl := (hlook h1).emits
  split at h
  · simp only [Prod.mk.injEq] at h
    exact h.1 ▸ hl.trans (sameSenders_modRemote _ _ _).emits
  split at h
  · simp only [Prod.mk.injEq] at h
    exact h.1 ▸ hl.trans (sameSenders_modRemote _ _ _).emits
  split at h
  · simp only [Prod.mk.injEq] at h
    exact h.1 ▸ hl.trans (sameSenders_modRemote _ _ _).emits
  · simp only [Prod.mk.injEq] at h
    rw [← h.1]
    exact (hl.trans (sameSenders_modRemote l₁ r _).emits).trans ((beginSession_emits p _ r _).trans
      ((sameSenders_modRemote _ r _).trans (sameSenders_modRemote _ r _)).emits)

/-! ## Calls -/

/-- From `s` to `s'` the pairs `log` are taken, and `out` has a data datagram for each. -/
structure Sends (p : Prims) (s s' : WgSession) (log : List (ℕ × ℕ)) (out : List Upcall) : Prop where
  emits : Emits s.noise s'.noise log
  datagrams : List.Forall₂ (SealedWith p s'.noise) log (dataSent out)

theorem Sends.refl (p : Prims) (s : WgSession) : Sends p s s [] [] :=
  ⟨(SameSenders.refl _).emits, .nil⟩

theorem Emits.sends {out : List Upcall} (h : Emits s.noise s'.noise []) (ho : dataSent out = []) :
    Sends p s s' [] out := ⟨h, ho ▸ .nil⟩

theorem dataSent_append (out out' : List Upcall) :
    dataSent (out ++ out') = dataSent out ++ dataSent out' := List.filterMap_append

theorem Emits.sealedWith {log : List (ℕ × ℕ)} (h : Emits l l' log) {e : ℕ × ℕ} {bytes : Bytes}
    (hk : e.1 < l.nKeypairs) (hb : SealedWith p l e bytes) : SealedWith p l' e bytes := by
  obtain ⟨m, rfl⟩ := hb
  exact ⟨m, by rw [h.index _ hk, h.key _ hk]⟩

theorem Emits.forall_sealedWith {log : List (ℕ × ℕ)} (h : Emits l l' log) : ∀ {log : List (ℕ × ℕ)}
    {bs : List Bytes}, (∀ e ∈ log, e.1 < l.nKeypairs) → List.Forall₂ (SealedWith p l) log bs →
    List.Forall₂ (SealedWith p l') log bs
  | [], _, _, .nil => .nil
  | e :: _, _, hk, .cons hb hbs =>
    .cons (h.sealedWith (hk e List.mem_cons_self) hb)
      (h.forall_sealedWith (fun e' he' => hk e' (List.mem_cons_of_mem e he')) hbs)

theorem Sends.trans {log log' : List (ℕ × ℕ)} {out out' : List Upcall}
    (h : Sends p s s' log out) (h' : Sends p s' s'' log' out') :
    Sends p s s'' (log ++ log') (out ++ out') := by
  refine ⟨h.emits.trans h'.emits, ?_⟩
  rw [dataSent_append]
  exact List.rel_append (h'.emits.forall_sealedWith h.emits.known h.datagrams) h'.datagrams

theorem dataSent_other {t : UInt32} {bs : Bytes} {dst : Sockaddr} {dstLen : ℕ}
    (ht : t ≠ wgsPktData) : dataSent [.sendUdp (le32enc t ++ bs) dst dstLen] = [] := by
  simp only [dataSent, List.filterMap_cons, List.take_left' (length_le32enc t), le32dec_le32enc,
    if_neg ht, List.filterMap_nil]

theorem dataSent_data {rIdx : UInt32} {n : ℕ} {bs : Bytes} {dst : Sockaddr} {dstLen : ℕ} :
    dataSent [.sendUdp (dataHdrBytes rIdx n ++ bs) dst dstLen] = [dataHdrBytes rIdx n ++ bs] := by
  simp only [dataSent, dataHdrBytes, List.append_assoc, List.filterMap_cons,
    List.take_left' (length_le32enc _), le32dec_le32enc, if_pos, List.filterMap_nil]

/-- A packet that is sent is sealed with the pair of the log. One that is not sent may have taken a
counter all the same. -/
theorem encap_sends (h : Accounted p s) {i : ℕ} {plain : Bytes} {env : EncapEnv} {rc : Int}
    {out : List Upcall} (hs : wgsEncap p s i plain env = (rc, s', out)) :
    Sends p s s' (encapLog p s i plain env) out := by
  have hrc : (wgsEncap p s i plain env).1 = rc := congrArg Prod.fst hs
  unfold wgsEncap at hs
  simp only [] at hs
  generalize (if (plain.length + 15) / 16 * 16 = 0 then 16 else (plain.length + 15) / 16 * 16)
    = padded at hs
  -- nothing is listed where it fails
  have failed : rc ≠ 0 → encapLog p s i plain env = [] := fun hne => by
    simp only [encapLog, hrc, if_neg hne]
    repeat' split
    all_goals rfl
  have stops : ∀ l log, Emits s.noise l log → (-1, s.setNoise l, []) = (rc, s', out) →
      Sends p s s' (encapLog p s i plain env) out := fun l log he hs => by
    simp only [Prod.mk.injEq] at hs
    obtain ⟨rfl, rfl, rfl⟩ := hs
    rw [failed (by decide)]
    exact Emits.sends he.forget rfl
  have same := (SameSenders.refl s.noise).emits
  split at hs
  · exact stops _ _ same hs
  split at hs
  · exact stops _ _ same hs
  split at hs
  · exact stops _ _ same hs
  next r hr =>
  split at hs
  · next l hl => exact stops l _ (keypairCurrent_sameSenders hl).emits hs
  next l k hl =>
  have hcur := (keypairCurrent_sameSenders hl)
  have hk : k < l.nKeypairs := by
    obtain ⟨hc, -, -, -⟩ := keypairCurrent_some hl
    have hslot : k ∈ s.noise.slots r := by
      simp [NoiseLocal.slots, NoiseRemote.link, RemoteLink.slots, hc]
    rw [hcur.nKeypairs]
    exact h.counted.heldFresh k (.inl ((h.counted.slotRemote r k hslot).symm ▸ hslot))
  split at hs
  · next l' hn =>
    exact stops _ _ ((hcur.emits.trans (nonceNext_emits hk hn)).trans
      (sameSenders_keypairPut l' k).emits) hs
  next l' nonce hn =>
  have he : Emits s.noise (noiseKeypairPut l' k) [(k, nonce)] :=
    (hcur.emits.trans (nonceNext_emits hk hn)).trans (sameSenders_keypairPut l' k).emits
  split at hs
  · exact stops _ _ he hs
  split at hs
  · exact stops _ _ he hs
  · simp only [Prod.mk.injEq] at hs
    obtain ⟨rfl, rfl, rfl⟩ := hs
    have hlog : encapLog p s i plain env = [(k, nonce)] := by
      simp only [encapLog, hr, hl, hn, hrc, if_true]
    rw [hlog]
    refine ⟨he, ?_⟩
    have hput := (sameSenders_keypairPut l' k).sender k
    have hidx : ((noiseKeypairPut l' k).keypairs k).iRemoteIndex = (l'.keypairs k).iRemoteIndex :=
      congrArg Prod.fst hput
    have hkey : ((noiseKeypairPut l' k).keypairs k).kpSend = (l'.keypairs k).kpSend :=
      congrArg (·.2.1) hput
    simp only [noiseKeypairEncrypt, dataSent_data]
    refine .cons ⟨plain ++ zeros (padded - plain.length), ?_⟩ .nil
    simp only [WgSession.setNoise, hidx, hkey]

theorem sendInitiation_sends {i : ℕ} {env : InitiationEnv} {rc : Int} {out : List Upcall}
    (hs : wgsSendInitiation p s i env = some (rc, s', out)) : Sends p s s' [] out := by
  unfold wgsSendInitiation at hs
  simp only [] at hs
  split at hs
  · simp only [Option.some.injEq, Prod.mk.injEq] at hs
    obtain ⟨-, rfl, rfl⟩ := hs
    exact .refl p s
  split at hs
  · simp only [Option.some.injEq, Prod.mk.injEq] at hs
    obtain ⟨-, rfl, rfl⟩ := hs
    exact .refl p s
  obtain ⟨⟨l, res⟩, hl, hs⟩ := Option.map_eq_some_iff.mp hs
  have he : Emits s.noise l [] := (createInitiation_sameSenders hl).emits
  rcases res with _ | ⟨idx, msg⟩
  · simp only [Prod.mk.injEq] at hs
    obtain ⟨-, rfl, rfl⟩ := hs
    exact Emits.sends he rfl
  · simp only [Prod.mk.injEq] at hs
    obtain ⟨-, rfl, rfl⟩ := hs
    refine Emits.sends he ?_
    simp only [initiationBytes, List.append_assoc]
    exact dataSent_other (by decide)

theorem handleData_sends {bytes : Bytes} {src : Sockaddr} {srcLen : ℕ} {now : Moment} {rc : Int}
    {out : List Upcall} (hs : wgsHandleData p s bytes src srcLen now = (rc, s', out)) :
    Sends p s s' [] out := by
  have hlook : ∀ {idx l o}, noiseKeypairLookup s.noise idx = (l, o) → SameSenders s.noise l := by
    intro idx l o h
    unfold noiseKeypairLookup at h
    repeat' split at h
    all_goals
      simp only [Prod.mk.injEq] at h
      rw [← h.1]
    · exact .refl _
    · exact sameSenders_modKeypair rfl
    · exact .refl _
  unfold wgsHandleData at hs
  split at hs
  · simp only [Prod.mk.injEq] at hs
    obtain ⟨-, rfl, rfl⟩ := hs
    exact .refl p s
  split at hs
  · next h1 =>
    simp only [Prod.mk.injEq] at hs
    obtain ⟨-, rfl, rfl⟩ := hs
    exact Emits.sends (hlook h1).emits rfl
  next l k h1 =>
  simp only [] at hs
  split at hs
  · simp only [Prod.mk.injEq] at hs
    obtain ⟨-, rfl, rfl⟩ := hs
    exact Emits.sends ((hlook h1).trans (sameSenders_keypairPut l k)).emits rfl
  have hl : SameSenders s.noise (noiseKeypairPut (noiseRemotePut
      (noiseKeypairRemote (noiseKeypairReceivedWith l k) k).1
      (noiseKeypairRemote (noiseKeypairReceivedWith l k) k).2) k) :=
    (((hlook h1).trans (receivedWith_sameSenders l k)).trans ((sameSenders_modRemote _ _ _).trans
      (sameSenders_modRemote _ _ _))).trans (sameSenders_keypairPut _ k)
  unfold wgsDeliver at hs
  simp only [] at hs
  repeat' split at hs
  all_goals
    simp only [Prod.mk.injEq] at hs
    obtain ⟨-, rfl, rfl⟩ := hs
    exact Emits.sends hl.emits rfl

theorem handleInitiation_sends {bytes : Bytes} {src : Sockaddr} {srcLen : ℕ} {env : ResponderEnv}
    {rc : Int} {out : List Upcall}
    (hs : wgsHandleInitiation p s bytes src srcLen env = some (rc, s', out)) :
    Sends p s s' [] out := by
  unfold wgsHandleInitiation at hs
  split at hs
  · simp only [Option.some.injEq, Prod.mk.injEq] at hs
    obtain ⟨-, rfl, rfl⟩ := hs
    exact .refl p s
  split at hs
  · simp only [Option.some.injEq, Prod.mk.injEq] at hs
    obtain ⟨-, rfl, rfl⟩ := hs
    exact .refl p s
  obtain ⟨⟨l, res⟩, hl, hs⟩ := Option.map_eq_some_iff.mp hs
  have he := consumeInitiation_sameSenders hl
  rcases res with _ | r
  · simp only [Prod.mk.injEq] at hs
    obtain ⟨-, rfl, rfl⟩ := hs
    exact Emits.sends he.emits rfl
  simp only [] at hs
  split at hs
  · next l' hr =>
    simp only [Prod.mk.injEq] at hs
    obtain ⟨-, rfl, rfl⟩ := hs
    exact Emits.sends ((he.emits.trans (createResponse_emits hr)).trans
      (sameSenders_remotePut l' r).emits) rfl
  · next l' _ _ _ hr =>
    simp only [Prod.mk.injEq] at hs
    obtain ⟨-, rfl, rfl⟩ := hs
    refine Emits.sends ((he.emits.trans (createResponse_emits hr)).trans
      (sameSenders_remotePut l' r).emits) ?_
    simp only [responseBytes, List.append_assoc]
    exact dataSent_other (by decide)

theorem handleResponse_sends {bytes : Bytes} {env : ConsumeEnv} {rc : Int} {out : List Upcall}
    (hs : wgsHandleResponse p s bytes env = (rc, s', out)) : Sends p s s' [] out := by
  unfold wgsHandleResponse at hs
  split at hs
  · simp only [Prod.mk.injEq] at hs
    obtain ⟨-, rfl, rfl⟩ := hs
    exact .refl p s
  split at hs
  · simp only [Prod.mk.injEq] at hs
    obtain ⟨-, rfl, rfl⟩ := hs
    exact .refl p s
  split at hs
  · next hl =>
    simp only [Prod.mk.injEq] at hs
    obtain ⟨-, rfl, rfl⟩ := hs
    exact Emits.sends (consumeResponse_emits hl) rfl
  next l r hl =>
  have he := (consumeResponse_emits hl).trans (sameSenders_remotePut l r).emits
  split at hs
  all_goals
    simp only [Prod.mk.injEq] at hs
    obtain ⟨-, rfl, rfl⟩ := hs
    exact Emits.sends he rfl

theorem handleCookie_sends {bytes : Bytes} {now : Moment} {rc : Int} {out : List Upcall}
    (hs : wgsHandleCookie p s bytes now = (rc, s', out)) : Sends p s s' [] out := by
  unfold wgsHandleCookie at hs
  repeat' split at hs
  all_goals
    simp only [Prod.mk.injEq] at hs
    obtain ⟨-, rfl, rfl⟩ := hs
    exact Emits.sends (SameSenders.refl _).emits rfl

theorem handleUdp_sends {bytes : Bytes} {src : Sockaddr} {srcLen : ℕ} {env : UdpEnv} {rc : Int}
    {out : List Upcall} (hs : wgSessionHandleUdp p s bytes src srcLen env = some (rc, s', out)) :
    Sends p s s' [] out := by
  unfold wgSessionHandleUdp at hs
  simp only [] at hs
  split at hs
  · simp only [Option.some.injEq, Prod.mk.injEq] at hs
    obtain ⟨-, rfl, rfl⟩ := hs
    exact .refl p s
  split at hs
  · exact handleData_sends (Option.some.inj hs)
  split at hs
  · exact handleInitiation_sends hs
  split at hs
  · exact handleResponse_sends (Option.some.inj hs)
  split at hs
  · exact handleCookie_sends (Option.some.inj hs)
  · simp only [Option.some.injEq, Prod.mk.injEq] at hs
    obtain ⟨-, rfl, rfl⟩ := hs
    exact .refl p s

/-! ## Ticks and requests -/

theorem tickRetransmit_sends {env : TickEnv} {i : ℕ} {out : List Upcall}
    (hs : tickRetransmit p env s i = some (s', out)) : Sends p s s' [] out := by
  unfold tickRetransmit at hs
  simp only [] at hs
  split at hs
  · split at hs
    · simp only [Option.some.injEq, Prod.mk.injEq] at hs
      obtain ⟨rfl, rfl⟩ := hs
      exact Emits.sends (SameSenders.refl _).emits rfl
    · obtain ⟨⟨rc, s₁, o⟩, h1, h2⟩ := Option.map_eq_some_iff.mp hs
      simp only [Prod.mk.injEq] at h2
      obtain ⟨rfl, rfl⟩ := h2
      have := sendInitiation_sends h1
      exact ⟨this.emits, this.datagrams⟩
  · simp only [Option.some.injEq, Prod.mk.injEq] at hs
    obtain ⟨rfl, rfl⟩ := hs
    exact .refl p s

theorem tickRekey_sends {env : TickEnv} {i : ℕ} {out : List Upcall}
    (hs : tickRekey p env s i = some (s', out)) : Sends p s s' [] out := by
  unfold tickRekey at hs
  simp only [] at hs
  split at hs
  · obtain ⟨⟨rc, s₁, o⟩, h1, h2⟩ := Option.map_eq_some_iff.mp hs
    simp only [Prod.mk.injEq] at h2
    obtain ⟨rfl, rfl⟩ := h2
    have := sendInitiation_sends h1
    exact ⟨this.emits, this.datagrams⟩
  · simp only [Option.some.injEq, Prod.mk.injEq] at hs
    obtain ⟨rfl, rfl⟩ := hs
    exact .refl p s

theorem tickKeepalive_sends (h : Accounted p s) {env : TickEnv} {i : ℕ} {out : List Upcall}
    (hs : tickKeepalive p env s i = (s', out)) :
    Sends p s s' (tickKeepaliveLog p env s i) out := by
  unfold tickKeepalive at hs
  unfold tickKeepaliveLog
  split at hs
  · next hdue =>
    obtain ⟨rc, hs⟩ : ∃ rc, wgsEncap p s i [] (env.keepalive i) = (rc, s', out) :=
      ⟨_, Prod.ext rfl hs⟩
    rw [if_pos hdue]
    exact encap_sends h hs
  · next hdue =>
    simp only [Prod.mk.injEq] at hs
    obtain ⟨rfl, rfl⟩ := hs
    rw [if_neg hdue]
    exact .refl p s

theorem mayQuit_all (s : WgSession) (i : ℕ) : MayQuit .all s i := fun _ _ _ _ _ _ => trivial

theorem tickPeer_sends (h : Accounted p s) {env : TickEnv} {i : ℕ} {out : List Upcall}
    (hs : tickPeer p env s i = some (s', out)) : Sends p s s' (tickPeerLog p env s i) out := by
  unfold tickPeerLog
  obtain ⟨ha, rfl, rfl⟩ | ⟨ha, s₁, s₂, o₁, o₂, o₃, h1, h2, h3, rfl⟩ := tickPeer_some hs
  · rw [if_neg ha]
    exact .refl p s'
  · simp only [if_pos ha, h1, h2]
    have hr₁ : Refines p .all s s₁ := tickRetransmit_refines h ha (mayQuit_all s i) h1
    have hr₂ : Refines p .all s₁ s₂ :=
      tickRekey_refines hr₁.1 (hr₁.active h (tickRetransmit_apart h1) ha) h2
    exact ((tickRetransmit_sends h1).trans (tickRekey_sends h2)).trans
      (tickKeepalive_sends hr₂.1 h3)

theorem tick_sends {env : TickEnv} : ∀ {is : List ℕ} {s s' : WgSession} {out : List Upcall},
    Accounted p s → is.Nodup → tickFrom p env is s = some (s', out) →
    Sends p s s' (tickLog p env is s) out
  | [], s, s', _, _, _, hs => by
    simp only [tickFrom, Option.some.injEq, Prod.mk.injEq] at hs
    obtain ⟨rfl, rfl⟩ := hs
    exact .refl p s
  | i :: is, s, s', _, h, hn, hs => by
    simp only [tickFrom, Option.bind_eq_bind, Option.bind_eq_some_iff, Option.pure_def,
      Option.some.injEq, Prod.mk.injEq] at hs
    obtain ⟨⟨s₁, o₁⟩, h1, ⟨s₂, o₂⟩, h2, rfl, rfl⟩ := hs
    have hr : Refines p .all s s₁ := tickPeer_refines h (mayQuit_all s i) h1
    simp only [tickLog, h1]
    exact (tickPeer_sends h h1).trans (tick_sends hr.1 (List.nodup_cons.mp hn).2 h2)

theorem remoteEnable_sameSenders {r : ℕ} {b : Bool} (h : noiseRemoteEnable l r = (l', b)) :
    SameSenders l l' := by
  unfold noiseRemoteEnable at h
  repeat' split at h
  all_goals
    simp only [Prod.mk.injEq] at h
    rw [← h.1]
    exact sameSenders_of_eq rfl rfl

theorem tombstone_sameSenders (s : WgSession) (i : ℕ) :
    SameSenders s.noise (peerTombstone s i).noise := by
  unfold peerTombstone noiseRemoteDisable
  simp only []
  repeat' split
  all_goals exact sameSenders_of_eq rfl rfl

/-- Requests change nothing that a keypair sends with. -/
theorem setLine_sameSenders (resolve : Resolver) (s : WgSession) (cur : Option ℕ) (line : Text) :
    SameSenders s.noise (setLine p resolve s cur line).session.noise := by
  have same : SameSenders s.noise s.noise := .refl _
  unfold setLine
  split
  · exact same
  next key val _ =>
  unfold setKey
  split
  · exact same
  split
  · exact same
  split
  · simp only []
    split <;> exact same
  split
  · unfold setPublicKey
    split
    · exact same
    split
    · exact same
    split
    · next h1 =>
      rw [allocPeerSlot_none h1]
      exact same
    next pk _ _ _ _ s₁ i h1 =>
    have hn : s₁.noise = s.noise := (allocPeerSlot_outside h1).2
    have hinit : SameSenders s₁.noise (peerInitRuntime p s₁ i pk).1.noise := by
      unfold peerInitRuntime
      simp only []
      have ha : SameSenders s₁.noise (noiseRemoteAlloc p s₁.noise i pk).1 :=
        sameSenders_of_eq rfl rfl
      split
      · next he => exact (ha.trans (remoteEnable_sameSenders he)).trans (sameSenders_remotePut _ _)
      · next he => exact ha.trans (remoteEnable_sameSenders he)
    rw [hn] at hinit
    split
    · next h2 =>
      rw [h2] at hinit
      exact hinit
    · next h2 =>
      rw [h2] at hinit
      exact hinit
  split
  · exact same
  next i =>
  unfold setPeerKey
  split
  · split
    · exact tombstone_sameSenders s i
    · exact same
  split
  · split
    · exact same
    · simp only []
      split
      · exact sameSenders_of_eq rfl rfl
      · exact same
  simp only []
  repeat' split
  all_goals exact same

theorem setUapi_sameSenders (s : WgSession) (resolve : Resolver) (text : Text) :
    SameSenders s.noise (wgSessionSetUapi p resolve s text).2.noise := by
  have lines : ∀ (ls : List Text) (s : WgSession) (cur : Option ℕ),
      SameSenders s.noise (setLines p resolve ls s cur).2.noise := by
    intro ls
    induction ls with
    | nil => exact fun s _ => .refl _
    | cons line ls ih =>
      intro s cur
      have h := setLine_sameSenders (p := p) resolve s cur line
      unfold setLines
      split
      · next h1 =>
        rw [h1] at h
        exact h
      · next h1 =>
        rw [h1] at h
        exact h.trans (ih _ _)
  have hout := (rebuildAips_outside (setLines p resolve (strtok '\n' (cstr text)) s none).2).1
  show SameSenders s.noise (rebuildAips _).noise
  rw [hout]
  exact lines _ s none

/-- Every call sends the datagrams of its log. -/
theorem sessionStep_sends (h : Accounted p s) {call : Call} {out : List Upcall}
    (hs : sessionStep p s call = some (s', out)) : Sends p s s' (callLog p s call) out := by
  cases call with
  | handleUdp bytes src srcLen env =>
    obtain ⟨⟨rc, s₁, o⟩, h1, h2⟩ := Option.map_eq_some_iff.mp hs
    simp only [Prod.mk.injEq] at h2
    obtain ⟨rfl, rfl⟩ := h2
    exact handleUdp_sends h1
  | handleTun bytes env =>
    obtain ⟨rc, hs⟩ : ∃ rc, wgSessionHandleTun p s bytes env = (rc, s', out) :=
      ⟨_, Prod.ext rfl (Option.some.inj hs)⟩
    unfold wgSessionHandleTun at hs
    simp only [callLog]
    split at hs
    · next hlen =>
      simp only [Prod.mk.injEq] at hs
      obtain ⟨-, rfl, rfl⟩ := hs
      rw [if_pos hlen]
      exact .refl p s
    next hlen =>
    rw [if_neg hlen]
    rcases hd : sessionLookupDst s bytes with _ | i <;> rw [hd] at hs
    · simp only [Prod.mk.injEq] at hs
      obtain ⟨-, rfl, rfl⟩ := hs
      exact .refl p s
    · exact encap_sends h hs
  | tick env => exact tick_sends h List.nodup_range hs
  | kick env =>
    obtain ⟨⟨rc, s₁, o⟩, h1, h2⟩ := Option.map_eq_some_iff.mp hs
    simp only [Prod.mk.injEq] at h2
    obtain ⟨rfl, rfl⟩ := h2
    unfold wgSessionKick at h1
    split at h1
    · simp only [Option.some.injEq, Prod.mk.injEq] at h1
      obtain ⟨-, rfl, rfl⟩ := h1
      exact .refl p s
    · exact sendInitiation_sends h1
  | setUapi resolve text =>
    simp only [sessionStep, Option.some.injEq, Prod.mk.injEq] at hs
    obtain ⟨rfl, rfl⟩ := hs
    exact Emits.sends (setUapi_sameSenders s resolve text).emits rfl

/-! ## Runs -/

theorem sessionStep_accounted (h : Accounted p s) {call : Call} {out : List Upcall}
    (hs : sessionStep p s call = some (s', out)) : Accounted p s' := by
  have hr : Refines p .all s s' :=
    sessionStep_refines h (.inl trivial) (callAllowed_all s call) hs
  exact hr.1

theorem run_sends : ∀ {calls : List Call} {s s' : WgSession} {outs : List (List Upcall)},
    Accounted p s → Run.exec (sessionStep p) s calls = some (s', outs) →
    Sends p s s' (runLog p s calls) outs.flatten
  | [], s, s', _, _, hs => by
    simp only [Run.exec, Option.some.injEq, Prod.mk.injEq] at hs
    obtain ⟨rfl, rfl⟩ := hs
    exact .refl p s
  | call :: calls, s, s', _, h, hs => by
    simp only [Run.exec, Option.bind_eq_bind, Option.bind_eq_some_iff, Option.pure_def,
      Option.some.injEq, Prod.mk.injEq] at hs
    obtain ⟨⟨s₁, o₁⟩, h1, ⟨s₂, o₂⟩, h2, rfl, rfl⟩ := hs
    simp only [runLog, h1, List.flatten_cons]
    exact (sessionStep_sends h h1).trans (run_sends (sessionStep_accounted h h1) h2)

/-- Over any calls after a creation, the data datagrams sent are sealed with the pairs of the run's
log, one for one; no pair is in it twice, and every counter is below the limit. -/
theorem nonces_unique {s₀ : WgSession} (h : Created p s₀) {calls : List Call}
    {outs : List (List Upcall)} (hs : Run.exec (sessionStep p) s₀ calls = some (s, outs)) :
    List.Forall₂ (SealedWith p s.noise) (runLog p s₀ calls) (dataSent outs.flatten)
      ∧ (runLog p s₀ calls).Nodup ∧ ∀ e ∈ runLog p s₀ calls, e.2 < rejectAfterMessages := by
  have hsends := run_sends (created_accounted h).1 hs
  refine ⟨hsends.datagrams, hsends.emits.increasing.imp fun hab e => ?_, hsends.emits.allowed⟩
  exact absurd (hab (congrArg Prod.fst e)) (by rw [e]; exact lt_irrefl _)

/-- A reaches B and sends a packet, one that finds no memory, and another: the counter in between is
skipped. -/
def sendingCalls : Option (WgSession × List Call) := do
  let a ← sessionA
  let b ← sessionB
  let (_, ini) ← sessionStep specimen a (.kick (dial 100 7))
  let (_, rsp) ← sessionStep specimen b (.handleUdp (sent ini) hostA 16 (intake 100 8))
  pure (a, [.kick (dial 100 7), .handleUdp (sent rsp) hostB 16 (intake 100 9),
    .handleTun packet ⟨instant 101, instant 101, true⟩,
    .handleTun packet ⟨instant 101, instant 101, false⟩,
    .handleTun packet ⟨instant 101, instant 101, true⟩])

theorem nonces_unique_skipped : ∃ a calls s outs, sessionA = some a
    ∧ Run.exec (sessionStep specimen) a calls = some (s, outs)
    ∧ runLog specimen a calls = [(0, 0), (0, 2)]
    ∧ List.Forall₂ (SealedWith specimen s.noise) [(0, 0), (0, 2)] (dataSent outs.flatten) := by
  have hrun : sendingCalls.any (fun x =>
      (Run.exec (sessionStep specimen) x.1 x.2).isSome
        && decide (runLog specimen x.1 x.2 = [(0, 0), (0, 2)])) = true := by
    decide +kernel
  obtain ⟨⟨a, calls⟩, hx, h⟩ := (Option.any_eq_true _ _).mp hrun
  simp only [Bool.and_eq_true, decide_eq_true_eq] at h
  obtain ⟨hsome, hlog⟩ := h
  obtain ⟨⟨s, outs⟩, hs⟩ := Option.isSome_iff_exists.mp hsome
  have ha : sessionA = some a := by
    simp only [sendingCalls, Option.bind_eq_bind, Option.bind_eq_some_iff, Option.pure_def,
      Option.some.injEq, Prod.mk.injEq] at hx
    obtain ⟨a', ha, -, -, -, -, -, -, rfl, -⟩ := hx
    exact ha
  have hsends := (nonces_unique (p := specimen) ⟨_, _, ha⟩ hs).1
  rw [hlog] at hsends
  exact ⟨a, calls, s, outs, ha, hs, hlog, hsends⟩

end PolarWG
