import PolarWG.Proofs.Receive
import PolarWG.Proofs.Opening
import PolarWG.Proofs.RoundTrip
import PolarWG.Proofs.Nonces

/-!
# Steps of the Noise layer

What a host of the Noise layer does to it between two moments at which it holds no reference but to
its peers' remotes. Each step keeps the counts exact, and frees every keypair that it takes out of its
remote's places.
-/

namespace PolarWG

variable {p : Prims} {l l' l'' : NoiseLocal}

/-- The host's calls, each with the references it takes put back. -/
inductive NoiseStep (p : Prims) (l : NoiseLocal) : NoiseLocal → Prop where
  /-- An initiation, made or not. -/
  | dial {r : ℕ} {env : InitiationEnv} {res : Option (UInt32 × Initiation)} {l' : NoiseLocal}
      (hr : (l.remotes r).rEntryInserted) (h : noiseCreateInitiation p l r env = some (l', res)) :
    NoiseStep p l l'
  | refuse {sIdx : UInt32} {msg : Initiation} {env : ResponderEnv} {l' : NoiseLocal}
      (h : noiseConsumeInitiation p l sIdx msg env = some (l', none)) : NoiseStep p l l'
  /-- An initiation taken in, and the response to it, made or not. -/
  | answer {sIdx : UInt32} {msg : Initiation} {env : ResponderEnv} {r : ℕ} {l₁ l₂ : NoiseLocal}
      {res : Option (UInt32 × UInt32 × Response)}
      (h : noiseConsumeInitiation p l sIdx msg env = some (l₁, some r))
      (h' : noiseCreateResponse p l₁ r env = (l₂, res)) : NoiseStep p l (noiseRemotePut l₂ r)
  | complete {sIdx rIdx : UInt32} {msg : Response} {birth : Moment} {r : ℕ} {l₁ : NoiseLocal}
      (h : noiseConsumeResponse p l sIdx rIdx msg birth = (l₁, some r)) :
    NoiseStep p l (noiseRemotePut l₁ r)
  /-- A packet under a linked keypair. -/
  | receive {k : ℕ} (hk : .keypair k ∈ l.lIndexHash) : NoiseStep p l (afterReceipt l k)
  /-- There is no keypair to send with. -/
  | idle {r : ℕ} {now : ℤ} {l' : NoiseLocal} (h : noiseKeypairCurrent l r now = (l', none)) :
    NoiseStep p l l'
  /-- A counter is taken. -/
  | send {r k : ℕ} {now : ℤ} {o : Option ℕ} {l₁ l₂ : NoiseLocal}
      (h : noiseKeypairCurrent l r now = (l₁, some k)) (h' : noiseKeypairNonceNext l₁ k = (l₂, o)) :
    NoiseStep p l (noiseKeypairPut l₂ k)

/-- Peers come, get a preshared key and go. -/
inductive RosterStep (p : Prims) (l : NoiseLocal) : NoiseLocal → Prop where
  | enlist (arg : ℕ) (pub : Bytes) : RosterStep p l (l.pushRemote (newRemote p l arg pub))
  | share (r : ℕ) (psk : Bytes) : RosterStep p l (noiseRemoteSetPsk l r psk)
  | remove {r : ℕ} (hr : (l.remotes r).rEntryInserted) :
    RosterStep p l (noiseRemotePut (noiseRemoteDisable l r) r)

/-! ## Freed keypairs -/

/-- A keypair in none of its remote's places has been freed. -/
def Freed (l : NoiseLocal) : Prop :=
  ∀ k, k ∉ l.slots (l.keypairs k).kpRemote → (l.keypairs k).kpRefcnt = 0

theorem slots_of_links (h : l'.links = l.links) (r : ℕ) : l'.slots r = l.slots r :=
  congrArg RemoteLink.slots (link_of_links h r)

theorem kpRemote_of_links (h : l'.links = l.links) (k : ℕ) :
    (l'.keypairs k).kpRemote = (l.keypairs k).kpRemote :=
  congrArg KeypairLink.remote (keypair_of_links h k)

theorem Freed.congr (h : Freed l) (hl : l'.links = l.links)
    (hc : ∀ k, (l'.keypairs k).kpRefcnt = (l.keypairs k).kpRefcnt) : Freed l' := fun k hk => by
  rw [slots_of_links hl, kpRemote_of_links hl] at hk
  rw [hc]
  exact h k hk

theorem keypairPut_refcnt (l : NoiseLocal) (k k' : ℕ) :
    ((noiseKeypairPut l k).keypairs k').kpRefcnt
      = (l.keypairs k').kpRefcnt - if k' = k then 1 else 0 := by
  have h : ((l.modKeypair k fun v => { v with kpRefcnt := v.kpRefcnt - 1 }).keypairs k').kpRefcnt
      = (l.keypairs k').kpRefcnt - if k' = k then 1 else 0 := by
    rw [modKeypair_keypairs]
    split
    · next e => rw [e]
    · rfl
  unfold noiseKeypairPut
  simp only []
  split
  · exact h
  · exact h

theorem keypairDrop_refcnt (l : NoiseLocal) (o : Option ℕ) (k : ℕ) :
    ((noiseKeypairDrop l o).keypairs k).kpRefcnt
      = (l.keypairs k).kpRefcnt - if o = some k then 1 else 0 := by
  rcases o with _ | k'
  · rfl
  · rw [noiseKeypairDrop, keypairPut_refcnt]
    simp only [Option.some.injEq, eq_comm]

theorem addNewKeypair_refcnt (l : NoiseLocal) (r k k' : ℕ) :
    ((noiseAddNewKeypair l r k).keypairs k').kpRefcnt = (l.keypairs k').kpRefcnt
      - (if (l.remotes r).displaced (l.keypairs k).kpIsInitiator = some k' then 1 else 0)
      - (if (l.remotes r).rPrevious = some k' then 1 else 0) := by
  rw [addNewKeypair_eq]
  unfold noiseSettle
  simp only [modRemote_keypairs]
  rw [modKeypair_of_fixed NoiseKeypair.kpRefcnt rfl, keypairDrop_refcnt, keypairDrop_refcnt]
  rfl

/-- A place is lost to a new keypair by being displaced or by being the previous one. -/
theorem placed_slots (v : NoiseRemote) (k k' : ℕ) (isInitiator : Bool) (hk : k' ∈ v.link.slots) :
    k' ∈ (v.placed k isInitiator).link.slots ∨ v.displaced isInitiator = some k'
      ∨ v.rPrevious = some k' := by
  have h := (placed_perm v k isInitiator).mem_iff.mp (List.mem_append_left [k] hk)
  simpa only [List.mem_append, Option.mem_toList, Option.mem_def] using h

variable {ρ : Refs}

theorem Counted.slot_refcnt (h : Counted l ρ) (hp : ρ.pins = 0) {k : ℕ}
    (hk : k ∈ l.slots (l.keypairs k).kpRemote) : (l.keypairs k).kpRefcnt = 1 := by
  have := h.keypairCount k (.inl hk)
  rwa [hp] at this

theorem Freed.beginSession (h : Freed l) (hc : Counted l ρ) (hp : ρ.pins = 0) (p : Prims) (r : ℕ)
    (birth : ℤ) : Freed (noiseBeginSession p l r birth) := by
  obtain ⟨kp, hkr, -, -, -, -, heq⟩ := beginSession_eq p l r birth
  set l₁ := (noiseRemoteRef l r).pushKeypair kp with hl₁
  set b := (l₁.keypairs l.nKeypairs).kpIsInitiator
  have hkey : ∀ k, l₁.keypairs k = if k = l.nKeypairs then kp else l.keypairs k := fun k =>
    Function.update_apply ..
  have hslots₁ : ∀ r', l₁.slots r' = l.slots r' := fun r' => by
    show (noiseRemoteRef l r).slots r' = l.slots r'
    exact slots_of_links (links_remoteRef l r) r'
  -- the places after the rotation
  have hlinks := links_addNewKeypair l₁ r l.nKeypairs
  rw [← heq] at hlinks
  have hremote : ∀ k, ((noiseBeginSession p l r birth).keypairs k).kpRemote
      = (l₁.keypairs k).kpRemote := fun k => by
    have := congrArg (fun L : Links => (L.keypairs k).remote) hlinks
    refine this.trans ?_
    simp only [Function.update_apply]
    split
    · next e => rw [e]; rfl
    · rfl
  have hslots : ∀ r', (noiseBeginSession p l r birth).slots r'
      = if r' = r then ((l₁.remotes r).placed l.nKeypairs b).link.slots else l.slots r' := by
    intro r'
    refine (congrArg (fun L : Links => (L.remotes r').slots) hlinks).trans ?_
    simp only [Links.modRemote, Function.update_apply]
    split
    · next e =>
      subst e
      cases hb : b <;> simp only [b] at hb <;> simp only [hb] <;> rfl
    · exact hslots₁ r'
  intro k hk
  rw [hremote, hslots] at hk
  rw [heq, addNewKeypair_refcnt]
  by_cases hnew : k = l.nKeypairs
  · -- the new keypair is in a place
    subst hnew
    rw [hkey, if_pos rfl, if_pos hkr] at hk
    refine absurd ?_ hk
    cases b <;> simp [NoiseRemote.placed, NoiseRemote.link, RemoteLink.slots]
  rw [hkey, if_neg hnew] at hk ⊢
  by_cases hold : k ∈ l.slots (l.keypairs k).kpRemote
  · have hcount := hc.slot_refcnt hp hold
    split at hk
    · next e =>
      rw [e, ← hslots₁] at hold
      rcases placed_slots _ l.nKeypairs k b hold with hin | hout | hout
      · exact absurd hin hk
      · rw [if_pos hout]
        omega
      · rw [if_pos hout]
        omega
    · exact absurd hold hk
  · rw [h k hold]
    omega

theorem Freed.receivedWith (h : Freed l) (hc : Counted l ρ) {k : ℕ} (hp : ∀ k' ≠ k, ρ.pins k' = 0) :
    Freed (noiseKeypairReceivedWith l k) := by
  by_cases hn : (l.remotes (l.keypairs k).kpRemote).rNext = some k
  swap
  · rwa [noiseKeypairReceivedWith, if_neg hn]
  have hlinks := links_receivedWith l k
  rw [if_pos hn] at hlinks
  set r := (l.keypairs k).kpRemote
  have hslots : ∀ r', (noiseKeypairReceivedWith l k).slots r'
      = if r' = r then ((l.remotes r).link.confirmed k).slots else l.slots r' := by
    intro r'
    refine (congrArg (fun L : Links => (L.remotes r').slots) hlinks).trans ?_
    rw [Links.modRemote_remotes]
    split <;> rfl
  intro k' hk'
  have hrem : ((noiseKeypairReceivedWith l k).keypairs k').kpRemote = (l.keypairs k').kpRemote :=
    congrArg (fun L : Links => (L.keypairs k').remote) hlinks
  rw [hrem, hslots] at hk'
  rw [receivedWith_eq hn, keypairDrop_refcnt]
  show (l.keypairs k').kpRefcnt - _ = 0
  by_cases hold : k' ∈ l.slots (l.keypairs k').kpRemote
  · split at hk'
    · next e =>
      rw [e] at hold
      simp only [RemoteLink.confirmed, NoiseRemote.link, RemoteLink.slots, Option.toList_none,
        Option.toList_some, List.nil_append, List.mem_append, List.mem_singleton, Option.mem_toList,
        not_or] at hk'
      simp only [NoiseLocal.slots, NoiseRemote.link, RemoteLink.slots, List.mem_append,
        Option.mem_toList, hn, Option.some.injEq] at hold
      rcases hold with (rfl | hcur) | hprev
      · exact absurd rfl hk'.1
      · exact absurd hcur hk'.2
      · have hcount := hc.keypairCount k' (.inl (e.symm ▸ by
          simp [NoiseLocal.slots, NoiseRemote.link, RemoteLink.slots, hprev]))
        rw [hp k' hk'.1] at hcount
        rw [if_pos hprev]
        omega
    · exact absurd hold hk'
  · rw [h k' hold]
    omega

/-! ## Counts along steps -/

/-- The Noise layer's part of taking in a packet under `k`. -/
theorem Counted.afterReceipt (h : Counted l l.links.refs) {k : ℕ} (hk : .keypair k ∈ l.lIndexHash) :
    Counted (afterReceipt l k) l.links.refs ∧ (afterReceipt l k).links
      = if (l.remotes (l.keypairs k).kpRemote).rNext = some k then
          l.links.modRemote (l.keypairs k).kpRemote (·.confirmed k)
        else l.links := by
  set r := (l.keypairs k).kpRemote with hr
  have hslot : k ∈ l.slots r :=
    ((h.keypairLinked k).mp hk).1.resolve_right (by simp [Links.refs])
  have hkr : ((noiseKeypairRef l k).keypairs k).kpRemote = r :=
    modKeypair_of_fixed NoiseKeypair.kpRemote rfl k
  have hlinks := links_receivedWith (noiseKeypairRef l k) k
  rw [hkr, links_keypairRef] at hlinks
  have hcount : Counted (noiseKeypairReceivedWith (noiseKeypairRef l k) k) (l.links.refs.addPin k) :=
    (h.keypairRef k).receivedWith rfl rfl fun k' hne => by simp [Refs.addPin, Links.refs, hne]
  have hslot' : k ∈ (noiseKeypairReceivedWith (noiseKeypairRef l k) k).slots r := by
    refine (congrArg (k ∈ ·) (congrArg (fun L : Links => (L.remotes r).slots) hlinks)).mpr ?_
    split
    · simp [Links.modRemote_remotes, RemoteLink.confirmed, RemoteLink.slots]
    · exact hslot
  refine ⟨hcount.keypairPut (.inl ?_), (links_keypairPut _ k).trans hlinks⟩
  rw [hcount.slotRemote r k hslot']
  exact hslot'

/-! ## Steps -/

/-- The same peers, with the same keys; their handshakes move on and keypairs are added. -/
structure SameRoster (L L' : Links) : Prop where
  hasIdentity : L'.hasIdentity = L.hasIdentity
  priv : L'.priv = L.priv
  enabled : L'.enabled = L.enabled
  nRemotes : L'.nRemotes = L.nRemotes
  pub : ∀ r, (L'.remotes r).pub = (L.remotes r).pub
  ss : ∀ r, (L'.remotes r).ss = (L.remotes r).ss
  arg : ∀ r, (L'.remotes r).arg = (L.remotes r).arg
  inserted : ∀ r, (L'.remotes r).enabled = (L.remotes r).enabled
  outside : ∀ r, L.nRemotes ≤ r → L'.remotes r = L.remotes r
  grow : L.nKeypairs ≤ L'.nKeypairs
  keypairs : ∀ k < L.nKeypairs, L'.keypairs k = L.keypairs k

theorem SameRoster.refl (L : Links) : SameRoster L L := by
  constructor <;> intros <;> rfl

theorem SameRoster.trans {L L' L'' : Links} (h : SameRoster L L') (h' : SameRoster L' L'') :
    SameRoster L L'' where
  hasIdentity := h'.hasIdentity.trans h.hasIdentity
  priv := h'.priv.trans h.priv
  enabled := h'.enabled.trans h.enabled
  nRemotes := h'.nRemotes.trans h.nRemotes
  pub := fun r => (h'.pub r).trans (h.pub r)
  ss := fun r => (h'.ss r).trans (h.ss r)
  arg := fun r => (h'.arg r).trans (h.arg r)
  inserted := fun r => (h'.inserted r).trans (h.inserted r)
  outside := fun r hr => (h'.outside r (h.nRemotes ▸ hr)).trans (h.outside r hr)
  grow := h.grow.trans h'.grow
  keypairs := fun k hk => (h'.keypairs k (hk.trans_le h.grow)).trans (h.keypairs k hk)

theorem SameRoster.refs {L L' : Links} (h : SameRoster L L') : L'.refs = L.refs := by
  simp only [Links.refs, h.inserted]

theorem sameRoster_modRemote {L : Links} {r : ℕ} {f : RemoteLink → RemoteLink} (hr : r < L.nRemotes)
    (hf : ∀ v, (f v).pub = v.pub ∧ (f v).ss = v.ss ∧ (f v).arg = v.arg ∧ (f v).enabled = v.enabled) :
    SameRoster L (L.modRemote r f) := by
  have hfix : ∀ {α : Type} (g : RemoteLink → α), (∀ v, g (f v) = g v) → ∀ r',
      g ((L.modRemote r f).remotes r') = g (L.remotes r') := fun g hg r' => by
    rw [Links.modRemote_remotes]
    split
    · next e => rw [hg, e]
    · rfl
  exact ⟨rfl, rfl, rfl, rfl, hfix RemoteLink.pub fun v => (hf v).1,
    hfix RemoteLink.ss fun v => (hf v).2.1, hfix RemoteLink.arg fun v => (hf v).2.2.1,
    hfix RemoteLink.enabled fun v => (hf v).2.2.2,
    fun r' hr' => by rw [Links.modRemote_remotes, if_neg (by omega)], le_rfl, fun _ _ => rfl⟩

/-- A remote's handshake ends in a new keypair. -/
theorem sameRoster_opened {L : Links} {r : ℕ} {f : RemoteLink → RemoteLink} {k : KeypairLink}
    (hr : r < L.nRemotes)
    (hf : ∀ v, (f v).pub = v.pub ∧ (f v).ss = v.ss ∧ (f v).arg = v.arg ∧ (f v).enabled = v.enabled) :
    SameRoster L ((L.modRemote r f).pushKeypair k) := by
  have h := sameRoster_modRemote hr hf
  exact ⟨rfl, rfl, rfl, rfl, h.pub, h.ss, h.arg, h.inserted, h.outside, Nat.le_succ _,
    fun _ hk => Function.update_of_ne hk.ne _ _⟩

/-- The counts are exact, what is not in use has been freed, and what has not been allocated yet is
blank. -/
structure Exact (l : NoiseLocal) : Prop where
  counted : Counted l l.links.refs
  freed : Freed l
  fresh : ∀ r, l.nRemotes ≤ r → (l.remotes r).link = NoiseRemote.blank.link
  listed : ∀ r ∈ l.lRemoteHash, r < l.nRemotes ∧ (l.remotes r).rEntryInserted
  once : l.lRemoteHash.Nodup

theorem Exact.inserted_lt (h : Exact l) {r : ℕ} (hr : (l.remotes r).rEntryInserted) :
    r < l.nRemotes := by
  by_contra hge
  have : (l.remotes r).rEntryInserted = false :=
    congrArg RemoteLink.enabled (h.fresh r (Nat.not_lt.mp hge))
  exact absurd hr (by simp [this])

theorem Exact.slots_lt (h : Exact l) {r k : ℕ} (hk : k ∈ l.slots r) : r < l.nRemotes := by
  by_contra hge
  have : l.slots r = [] := congrArg RemoteLink.slots (h.fresh r (Nat.not_lt.mp hge))
  rw [this] at hk
  cases hk

theorem Exact.state_lt (h : Exact l) {r : ℕ} (hr : (l.remotes r).rHandshakeState ≠ .dead) :
    r < l.nRemotes := by
  by_contra hge
  exact hr (congrArg RemoteLink.state (h.fresh r (Nat.not_lt.mp hge)))

theorem Exact.next (h : Exact l) (hr : SameRoster l.links l'.links)
    (hc : Counted l' l.links.refs) (hf : Freed l') : Exact l' where
  counted := hr.refs ▸ hc
  freed := hf
  fresh := fun r hge => by
    have hn : l'.nRemotes = l.nRemotes := hr.nRemotes
    rw [hn] at hge
    exact (hr.outside r hge).trans (h.fresh r hge)
  listed := fun r hmem => by
    have he : l'.lRemoteHash = l.lRemoteHash := hr.enabled
    have hn : l'.nRemotes = l.nRemotes := hr.nRemotes
    have hi : (l'.remotes r).rEntryInserted = (l.remotes r).rEntryInserted := hr.inserted r
    rw [hn, hi]
    exact h.listed r (he ▸ hmem)
  once := by
    have he : l'.lRemoteHash = l.lRemoteHash := hr.enabled
    exact he ▸ h.once

/-- Where the keypairs stay as they are and no place changes, none is freed. -/
theorem Freed.keep (h : Freed l) (hk : l'.keypairs = l.keypairs) (hs : ∀ r, l'.slots r = l.slots r) :
    Freed l' := fun k => by
  rw [hk, hs]
  exact h k

/-- A remote's places stay where only its other fields change. -/
theorem Freed.modRemote (h : Freed l) {r : ℕ} {f : NoiseRemote → NoiseRemote}
    (hf : (f (l.remotes r)).link.slots = (l.remotes r).link.slots) : Freed (l.modRemote r f) :=
  h.keep rfl (modRemote_of_fixed (fun v => v.link.slots) hf)

theorem createInitiation_freed {r : ℕ} {env : InitiationEnv} {res : Option (UInt32 × Initiation)}
    (h : Freed l) (hc : noiseCreateInitiation p l r env = some (l', res)) : Freed l' := by
  rcases res with _ | ⟨idx, msg⟩
  · obtain ⟨hs, rfl⟩ := createInitiation_none hc
    exact h.modRemote rfl
  · have hlinks := links_createInitiation_some hc
    obtain ⟨-, -, hs, l₁, -, hl₁, -, rfl⟩ := createInitiation_some hc
    refine h.keep ?_ fun r' => ?_
    · rw [modRemote_keypairs, (indexInsert_keypairs hl₁).1]
      rfl
    · refine (congrArg (fun L : Links => (L.remotes r').slots) hlinks).trans ?_
      rw [Links.modRemote_remotes]
      split
      · next e => rw [e]; rfl
      · rfl

/-- Taking in an initiation, up to the response. -/
theorem consumeInitiation_freed {sIdx : UInt32} {msg : Initiation} {env : ResponderEnv}
    {res : Option ℕ} (h : Freed l) (hc : Counted l ρ)
    (hs : noiseConsumeInitiation p l sIdx msg env = some (l', res)) : Freed l' := by
  rcases res with _ | r
  · obtain ⟨r, ts, rfl⟩ := consumeInitiation_none hs
    exact h.modRemote rfl
  · obtain ⟨-, -, -, idx, hlinks⟩ := hc.consumeInitiation_some hs
    obtain ⟨-, rPublic, ck, hash, ts, hs', l₁, -, -, -, -, -, hl₁, rfl⟩ := consumeInitiation_some hs
    refine h.keep ?_ fun r' => ?_
    · rw [modRemote_keypairs, (indexInsert_keypairs hl₁).1]
      rfl
    · refine (congrArg (fun L : Links => (L.remotes r').slots) hlinks).trans ?_
      rw [Links.modRemote_remotes]
      split
      · next e => rw [e]; rfl
      · rfl

theorem createResponse_freed {r : ℕ} {env : ResponderEnv}
    {res : Option (UInt32 × UInt32 × Response)} (h : Freed l) (hc : Counted l ρ) (hp : ρ.pins = 0)
    (hs : noiseCreateResponse p l r env = (l', res)) : Freed l' := by
  rcases res with _ | ⟨sIdx, rIdx, msg⟩
  · obtain ⟨hs', rfl, -⟩ := createResponse_none hs
    exact h.modRemote rfl
  · obtain ⟨-, hs', -, hl, -, -⟩ := createResponse_some hs
    have hc₁ : Counted (l.modRemote r fun v => { v with rHandshake := hs' }) ρ :=
      hc.modRemote rfl rfl rfl rfl
    have hf₁ : Freed (l.modRemote r fun v => { v with rHandshake := hs' }) := h.modRemote rfl
    have hf₂ := hf₁.beginSession hc₁ hp p r env.birth.getsbinuptime
    rw [hl]
    exact hf₂.modRemote rfl

/-- Putting a remote changes nothing but its count. -/
theorem Freed.remotePut (h : Freed l) (r : ℕ) : Freed (noiseRemotePut l r) :=
  h.keep rfl (slots_of_links (links_remotePut l r))

/-- A step that changes neither links nor peers. -/
theorem Exact.quiet (h : Exact l) (hl : l'.links = l.links) (hc : Counted l' l.links.refs)
    (hf : Freed l') : Exact l' ∧ SameRoster l.links l'.links := by
  have hr : SameRoster l.links l'.links := hl ▸ SameRoster.refl l.links
  exact ⟨h.next hr hc hf, hr⟩

theorem Exact.dial (h : Exact l) {r : ℕ} {env : InitiationEnv}
    {res : Option (UInt32 × Initiation)} (hr : (l.remotes r).rEntryInserted)
    (hs : noiseCreateInitiation p l r env = some (l', res)) :
    Exact l' ∧ SameRoster l.links l'.links := by
  have hcount := h.counted.createInitiation hs
  have hfreed := createInitiation_freed h.freed hs
  rcases res with _ | ⟨idx, msg⟩
  · exact h.quiet (links_createInitiation_none hs) hcount hfreed
  · have hroster : SameRoster l.links l'.links := by
      rw [links_createInitiation_some hs]
      exact sameRoster_modRemote (h.inserted_lt hr) fun _ => ⟨rfl, rfl, rfl, rfl⟩
    exact ⟨h.next hroster hcount hfreed, hroster⟩

theorem Exact.answer (h : Exact l) {sIdx : UInt32} {msg : Initiation} {env : ResponderEnv} {r : ℕ}
    {l₁ l₂ : NoiseLocal} {res : Option (UInt32 × UInt32 × Response)}
    (hs : noiseConsumeInitiation p l sIdx msg env = some (l₁, some r))
    (hs' : noiseCreateResponse p l₁ r env = (l₂, res)) :
    Exact (noiseRemotePut l₂ r) ∧ SameRoster l.links (noiseRemotePut l₂ r).links := by
  obtain ⟨hcount, hmem, -, idx, hl⟩ := h.counted.consumeInitiation_some hs
  have hr := (h.listed r hmem).1
  have hfreed := createResponse_freed (consumeInitiation_freed h.freed h.counted hs) hcount rfl hs'
  have hroster₁ : SameRoster l.links l₁.links := by
    rw [hl]
    exact sameRoster_modRemote hr fun _ => ⟨rfl, rfl, rfl, rfl⟩
  have hroster : SameRoster l.links (noiseRemotePut l₂ r).links := by
    rw [links_remotePut]
    refine hroster₁.trans ?_
    rcases res with _ | ⟨sIdx', rIdx, msg'⟩
    · rw [links_createResponse_none hs']
      exact .refl _
    · obtain ⟨recv, hl'⟩ := links_createResponse_some hs'
      rw [hl']
      exact sameRoster_opened (hr.trans_eq hroster₁.nRemotes.symm) fun _ => ⟨rfl, rfl, rfl, rfl⟩
  exact ⟨h.next hroster (hcount.createResponse rfl rfl rfl hs').remotePut (hfreed.remotePut r),
    hroster⟩

theorem Exact.complete (h : Exact l) {sIdx rIdx : UInt32} {msg : Response} {birth : Moment} {r : ℕ}
    {l₁ : NoiseLocal} (hs : noiseConsumeResponse p l sIdx rIdx msg birth = (l₁, some r)) :
    Exact (noiseRemotePut l₁ r) ∧ SameRoster l.links (noiseRemotePut l₁ r).links := by
  obtain ⟨hcount, recv, hl⟩ := h.counted.consumeResponse_some rfl rfl rfl hs
  obtain ⟨-, -, -, hst, -, hs', -, hl₁⟩ := consumeResponse_some hs
  have hr := h.state_lt (r := r) (by rw [hst]; decide)
  have hroster : SameRoster l.links (noiseRemotePut l₁ r).links := by
    rw [links_remotePut, hl]
    exact sameRoster_opened hr fun _ => ⟨rfl, rfl, rfl, rfl⟩
  subst hl₁
  have hc₁ := (h.counted.remoteRef r).modRemote (r := r) (f := fun v =>
    { v with rHandshake := hs', iRemoteIndex := sIdx }) rfl rfl rfl rfl
  have hf₁ : Freed (noiseRemoteRef l r) := h.freed.keep rfl (slots_of_links (links_remoteRef l r))
  have hf₂ : Freed ((noiseRemoteRef l r).modRemote r fun v =>
    { v with rHandshake := hs', iRemoteIndex := sIdx }) := hf₁.modRemote rfl
  exact ⟨h.next hroster hcount.remotePut ((hf₂.beginSession hc₁ rfl p r _).remotePut r), hroster⟩

theorem Exact.receive (h : Exact l) {k : ℕ} (hk : .keypair k ∈ l.lIndexHash) :
    Exact (afterReceipt l k) ∧ SameRoster l.links (afterReceipt l k).links := by
  obtain ⟨hcount, hl⟩ := h.counted.afterReceipt hk
  have hslot := ((h.counted.keypairLinked k).mp hk).1.resolve_right (by simp [Links.refs])
  have hroster : SameRoster l.links (afterReceipt l k).links := by
    rw [hl]
    split
    · exact sameRoster_modRemote (h.slots_lt hslot) fun _ => ⟨rfl, rfl, rfl, rfl⟩
    · exact .refl _
  refine ⟨h.next hroster hcount ?_, hroster⟩
  -- the keypair itself is in a place all along
  have hpinned : Freed (noiseKeypairRef l k) := fun k' hk' => by
    rw [slots_of_links (links_keypairRef l k), kpRemote_of_links (links_keypairRef l k)] at hk'
    have hne : k' ≠ k := fun e => hk' (e ▸ hslot)
    rw [noiseKeypairRef, modKeypair_keypairs, if_neg hne]
    exact h.freed k' hk'
  have hfreed := hpinned.receivedWith (h.counted.keypairRef k) (k := k) fun k' hne => by
    simp [Refs.addPin, Links.refs, hne]
  intro k' hk'
  rw [afterReceipt, slots_of_links (links_keypairPut _ k),
    kpRemote_of_links (links_keypairPut _ k)] at hk'
  rw [afterReceipt, keypairPut_refcnt, hfreed k' hk', Nat.zero_sub]

theorem keypairCurrent_refcnt {r : ℕ} {now : ℤ} (h : noiseKeypairCurrent l r now = (l', none))
    (k : ℕ) : (l'.keypairs k).kpRefcnt = (l.keypairs k).kpRefcnt := by
  unfold noiseKeypairCurrent at h
  repeat' split at h
  all_goals
    simp only [Prod.mk.injEq, reduceCtorEq, and_false, and_true] at h
    try subst h
  · rfl
  · exact modKeypair_of_fixed NoiseKeypair.kpRefcnt rfl k
  · rfl
  · rfl

theorem nonceNext_refcnt {k : ℕ} {o : Option ℕ} (h : noiseKeypairNonceNext l k = (l', o)) (k' : ℕ) :
    (l'.keypairs k').kpRefcnt = (l.keypairs k').kpRefcnt := by
  unfold noiseKeypairNonceNext at h
  simp only [] at h
  repeat' split at h
  all_goals
    simp only [Prod.mk.injEq] at h
    obtain ⟨rfl, -⟩ := h
  · exact modKeypair_of_fixed NoiseKeypair.kpRefcnt rfl k'
  · rw [modKeypair_of_fixed NoiseKeypair.kpRefcnt rfl, modKeypair_of_fixed NoiseKeypair.kpRefcnt rfl]
  · rfl

theorem Exact.send (h : Exact l) {r k : ℕ} {now : ℤ} {o : Option ℕ} {l₁ l₂ : NoiseLocal}
    (hs : noiseKeypairCurrent l r now = (l₁, some k)) (hn : noiseKeypairNonceNext l₁ k = (l₂, o)) :
    Exact (noiseKeypairPut l₂ k) ∧ SameRoster l.links (noiseKeypairPut l₂ k).links := by
  obtain ⟨hcur, -, -, rfl⟩ := keypairCurrent_some hs
  obtain ⟨hl, hcount⟩ := nonceNext_quiet hn
  have hslot : k ∈ l.slots r := by
    simp [NoiseLocal.slots, NoiseRemote.link, RemoteLink.slots, hcur]
  have hheld : Held l l.links.refs k := .inl ((h.counted.slotRemote r k hslot).symm ▸ hslot)
  rw [links_keypairRef] at hl
  have hlinks := (links_keypairPut l₂ k).trans hl
  refine h.quiet hlinks ((hcount _ (h.counted.keypairRef k)).keypairPut
    ((held_of_links hl).mpr hheld)) (h.freed.congr hlinks fun k' => ?_)
  rw [keypairPut_refcnt, nonceNext_refcnt hn, noiseKeypairRef, modKeypair_keypairs]
  split
  · next e =>
    rw [e]
    exact Nat.add_sub_cancel ..
  · rfl

/-- The counts stay exact, and the peers stay as they are. -/
theorem NoiseStep.exact (h : Exact l) (hs : NoiseStep p l l') :
    Exact l' ∧ SameRoster l.links l'.links := by
  cases hs with
  | dial hr hc => exact h.dial hr hc
  | refuse hc =>
    obtain ⟨hcount, hl⟩ := h.counted.consumeInitiation_none hc
    exact h.quiet hl hcount (consumeInitiation_freed h.freed h.counted hc)
  | answer hc hc' => exact h.answer hc hc'
  | complete hc => exact h.complete hc
  | receive hk => exact h.receive hk
  | idle hc =>
    obtain ⟨hl, hcount⟩ := keypairCurrent_none hc
    exact h.quiet hl (hcount _ h.counted) (h.freed.congr hl (keypairCurrent_refcnt hc))
  | send hc hn => exact h.send hc hn

theorem noiseSteps_exact {l l' : NoiseLocal} (h : Exact l)
    (hs : Relation.ReflTransGen (NoiseStep p) l l') : Exact l' ∧ SameRoster l.links l'.links := by
  induction hs with
  | refl => exact ⟨h, .refl _⟩
  | tail _ hst ih =>
    obtain ⟨h1, h2⟩ := hst.exact ih.1
    exact ⟨h1, ih.2.trans h2⟩

theorem RosterStep.exact (h : Exact l) (hs : RosterStep p l l') : Exact l' := by
  cases hs with
  | enlist arg pub =>
    set v := newRemote p l arg pub with hv
    have hfresh := h.fresh l.nRemotes le_rfl
    have hslots : l.slots l.nRemotes = [] := congrArg RemoteLink.slots hfresh
    have hremotes : ∀ r, (l.pushRemote v).remotes r = if r = l.nRemotes then v else l.remotes r :=
      fun r => Function.update_apply ..
    refine ⟨h.counted.pushRemote (congrArg RemoteLink.state hfresh) hslots arg pub,
      h.freed.keep rfl fun r => ?_, fun r hr => ?_, fun r hr => ?_,
      List.nodup_cons.mpr ⟨fun hmem => (h.listed _ hmem).1.ne rfl, h.once⟩⟩
    · rw [NoiseLocal.slots, hremotes]
      split
      · next e => rw [e, hslots]; rfl
      · rfl
    · have hr' : l.nRemotes + 1 ≤ r := hr
      rw [hremotes, if_neg (by omega)]
      exact h.fresh r (by omega)
    · rw [hremotes]
      rcases List.mem_cons.mp hr with rfl | hr
      · rw [if_pos rfl]
        exact ⟨Nat.lt_succ_self _, rfl⟩
      · obtain ⟨hlt, hin⟩ := h.listed r hr
        rw [if_neg hlt.ne]
        exact ⟨hlt.trans (Nat.lt_succ_self _), hin⟩
  | share r psk =>
    have hl : (noiseRemoteSetPsk l r psk).links = l.links := links_modRemote_fixed rfl
    exact (h.quiet hl (h.counted.modRemote rfl rfl rfl rfl) (h.freed.modRemote rfl)).1
  | @remove r hr =>
    obtain ⟨hcount, hl⟩ := h.counted.tombstone hr
    have hlt := h.inserted_lt hr
    have hlink : ∀ r', ((noiseRemotePut (noiseRemoteDisable l r) r).remotes r').link
        = if r' = r then { (l.remotes r).link with enabled := false } else (l.remotes r').link :=
      fun r' => by
        refine (congrArg (fun L : Links => L.remotes r') hl).trans ?_
        exact Links.modRemote_remotes l.links r r' fun v => { v with enabled := false }
    have hkeys : (noiseRemotePut (noiseRemoteDisable l r) r).keypairs = l.keypairs := by
      unfold noiseRemoteDisable
      split <;> rfl
    have hn : (noiseRemotePut (noiseRemoteDisable l r) r).nRemotes = l.nRemotes :=
      congrArg Links.nRemotes hl
    have hlist : (noiseRemotePut (noiseRemoteDisable l r) r).lRemoteHash = l.lRemoteHash.erase r :=
      congrArg Links.enabled hl
    refine ⟨hcount, h.freed.keep hkeys fun r' => ?_, fun r' hr' => ?_, fun r' hr' => ?_,
      hlist ▸ h.once.erase r⟩
    · rw [NoiseLocal.slots, hlink]
      split
      · next e => rw [e]; rfl
      · rfl
    · rw [hn] at hr'
      rw [hlink, if_neg (by omega)]
      exact h.fresh r' hr'
    · rw [hlist] at hr'
      obtain ⟨hne, hmem⟩ := (h.once.mem_erase_iff).mp hr'
      have hin : ((noiseRemotePut (noiseRemoteDisable l r) r).remotes r').rEntryInserted
          = (l.remotes r').rEntryInserted := by
        refine (congrArg RemoteLink.enabled (hlink r')).trans ?_
        rw [if_neg hne]
        rfl
      rw [hn, hin]
      exact h.listed r' hmem

/-! ## Tightness -/

/-- Each remote is held by its peer as long as it is listed and by the keypairs in its places, each
such keypair is held by its place alone, every other keypair has been freed, and the table has an
index of its own for each handshake under way and for each keypair in a place. -/
structure Tight (l : NoiseLocal) : Prop where
  remotes : ∀ r, (l.remotes r).rRefcnt = (l.remotes r).rEntryInserted.toNat + (l.slots r).length
  places : ∀ r, ∀ k ∈ l.slots r, (l.keypairs k).kpRemote = r ∧ (l.keypairs k).kpRefcnt = 1
  freed : ∀ k, (l.keypairs k).kpRefcnt = 0 ↔ ∀ r, k ∉ l.slots r
  indices : (l.lIndexHash.map l.iLocalIndex).Nodup
  handshakes : ∀ r, .remote r ∈ l.lIndexHash ↔ (l.remotes r).rHandshakeState ≠ .dead
  keypairs : ∀ k, .keypair k ∈ l.lIndexHash ↔ (l.keypairs k).kpRefcnt ≠ 0
  size : l.lIndexHash.length ≤ 4 * l.nRemotes

theorem RemoteLink.slots_length (v : RemoteLink) : v.slots.length ≤ 3 := by
  have h : ∀ o : Option ℕ, o.toList.length ≤ 1 := fun o => by cases o <;> simp
  have h1 := h v.next
  have h2 := h v.current
  have h3 := h v.previous
  simp only [RemoteLink.slots, List.length_append]
  omega

/-- The entries that a remote can have. -/
def entriesOf (l : NoiseLocal) (r : ℕ) : List NoiseIndex :=
  .remote r :: (l.slots r).map .keypair

theorem length_entriesOf (l : NoiseLocal) : ∀ n,
    ((List.range n).flatMap (entriesOf l)).length ≤ 4 * n
  | 0 => Nat.zero_le _
  | n + 1 => by
    have ih := length_entriesOf l n
    have := RemoteLink.slots_length (l.remotes n).link
    rw [List.range_succ, List.flatMap_append, List.length_append]
    simp only [List.flatMap_cons, List.flatMap_nil, List.append_nil, entriesOf, List.length_cons,
      List.length_map, NoiseLocal.slots]
    omega

theorem Exact.tight (h : Exact l) : Tight l := by
  have hc := h.counted
  have hplace : ∀ r, ∀ k ∈ l.slots r, (l.keypairs k).kpRemote = r ∧ (l.keypairs k).kpRefcnt = 1 := by
    intro r k hk
    have hr := hc.slotRemote r k hk
    exact ⟨hr, hc.slot_refcnt rfl (hr.symm ▸ hk)⟩
  have hfreed : ∀ k, (l.keypairs k).kpRefcnt = 0 ↔ ∀ r, k ∉ l.slots r := fun k => by
    constructor
    · intro h0 r hk
      have := (hplace r k hk).2
      omega
    · exact fun hnone => h.freed k (hnone _)
  have hkeypair : ∀ k, .keypair k ∈ l.lIndexHash ↔ (l.keypairs k).kpRefcnt ≠ 0 := fun k => by
    refine (hc.keypairLinked k).trans (Iff.trans ?_ (not_congr (hfreed k)).symm)
    rw [not_forall]
    constructor
    · rintro ⟨hk | hk, -⟩
      · exact ⟨_, not_not.mpr hk⟩
      · cases hk
    · rintro ⟨r, hk⟩
      rw [not_not] at hk
      exact ⟨.inl ((hplace r k hk).1.symm ▸ hk), by simp [Links.refs]⟩
  refine ⟨fun r => ?_, hplace, hfreed, hc.indices, hc.remoteLinked, hkeypair, ?_⟩
  · have := hc.remoteCount r
    simpa [Links.refs, NoiseRemote.link, NoiseLocal.links] using this
  -- each entry is one of the four of some remote
  have hsub : ∀ e ∈ l.lIndexHash, e ∈ (List.range l.nRemotes).flatMap (entriesOf l) := by
    intro e he
    rw [List.mem_flatMap]
    rcases e with r | k
    · have hr := h.state_lt ((hc.remoteLinked r).mp he)
      exact ⟨r, List.mem_range.mpr hr, List.mem_cons_self⟩
    · have hk := ((hc.keypairLinked k).mp he).1.resolve_right (by simp [Links.refs])
      exact ⟨_, List.mem_range.mpr (h.slots_lt hk),
        List.mem_cons_of_mem _ (List.mem_map.mpr ⟨k, hk, rfl⟩)⟩
  exact (hc.tableNodup.subperm hsub).length_le.trans (length_entriesOf l l.nRemotes)

/-! ## Counters along steps -/

theorem Exact.current_lt (h : Exact l) {r k : ℕ} (hk : (l.remotes r).rCurrent = some k) :
    k < l.nKeypairs := by
  have hslot : k ∈ l.slots r := by
    simp [NoiseLocal.slots, NoiseRemote.link, RemoteLink.slots, hk]
  exact h.counted.heldFresh k (.inl ((h.counted.slotRemote r k hslot).symm ▸ hslot))

theorem Exact.send_emits (h : Exact l) {r k : ℕ} {now : ℤ} {o : Option ℕ} {l₁ l₂ : NoiseLocal}
    (hs : noiseKeypairCurrent l r now = (l₁, some k)) (hn : noiseKeypairNonceNext l₁ k = (l₂, o)) :
    Emits l (noiseKeypairPut l₂ k) (o.toList.map fun n => (k, n)) := by
  have hcur := keypairCurrent_sameSenders hs
  have hk : k < l₁.nKeypairs := by
    rw [hcur.nKeypairs]
    exact h.current_lt (keypairCurrent_some hs).1
  have := (hcur.emits.trans (nonceNext_emits hk hn)).trans (sameSenders_keypairPut l₂ k).emits
  simpa using this

/-- No step takes a counter back. -/
theorem NoiseStep.emits (h : Exact l) (hs : NoiseStep p l l') : Emits l l' [] := by
  cases hs with
  | dial hr hc => exact (createInitiation_sameSenders hc).emits
  | refuse hc => exact (consumeInitiation_sameSenders hc).emits
  | answer hc hc' =>
    exact ((consumeInitiation_sameSenders hc).emits.trans (createResponse_emits hc')).trans
      (sameSenders_remotePut _ _).emits
  | complete hc => exact (consumeResponse_emits hc).trans (sameSenders_remotePut _ _).emits
  | @receive k hk =>
    have h1 : SameSenders l (noiseKeypairRef l k) := sameSenders_modKeypair rfl
    exact ((h1.trans (receivedWith_sameSenders _ k)).trans (sameSenders_keypairPut _ k)).emits
  | idle hc => exact (keypairCurrent_sameSenders hc).emits
  | send hc hn => exact (h.send_emits hc hn).forget

theorem noiseSteps_emits (h : Exact l) (hs : Relation.ReflTransGen (NoiseStep p) l l') :
    Emits l l' [] := by
  induction hs with
  | refl => exact (SameSenders.refl l).emits
  | tail hst hs ih => exact ih.trans (hs.emits (noiseSteps_exact h hst).1)

/-- A counter has been taken for each data datagram. -/
def Seals (p : Prims) (l l' : NoiseLocal) (out : List Upcall) : Prop :=
  ∃ log, Emits l l' log ∧ List.Forall₂ (SealedWith p l') log (dataSent out)

theorem Emits.seals {out : List Upcall} (h : Emits l l' [])
    (ho : dataSent out = []) : Seals p l l' out := ⟨[], h, ho ▸ .nil⟩

theorem Seals.refl (p : Prims) (l : NoiseLocal) : Seals p l l [] :=
  Emits.seals (SameSenders.refl l).emits rfl

theorem Seals.trans {out out' : List Upcall} (h : Seals p l l' out)
    (h' : Seals p l' l'' out') : Seals p l l'' (out ++ out') := by
  obtain ⟨log, he, hb⟩ := h
  obtain ⟨log', he', hb'⟩ := h'
  refine ⟨log ++ log', he.trans he', ?_⟩
  rw [dataSent_append]
  exact List.rel_append (he'.forall_sealedWith he.known hb) hb'

/-- A datagram that is made is sealed under the current keypair, with a counter it takes. -/
theorem wgEncap_seals (h : Exact l) {r endpointLen : ℕ} {plain data : Bytes} {env : EncapEnv}
    {sent : Bool} {rc : Int} (hs : wgEncap p l r endpointLen plain env sent = (rc, l', some data)) :
    ∃ k nonce, (l.remotes r).rCurrent = some k ∧ Emits l l' [(k, nonce)]
      ∧ data = sealedData p l' k nonce (paddedText plain) := by
  unfold wgEncap at hs
  unfold paddedText
  simp only [] at hs ⊢
  generalize (if (plain.length + 15) / 16 * 16 = 0 then 16 else (plain.length + 15) / 16 * 16)
    = padded at hs ⊢
  split at hs
  · simp at hs
  split at hs
  · simp at hs
  split at hs
  · simp at hs
  next l₁ k hl =>
  split at hs
  · simp at hs
  next l₂ nonce hn =>
  have hemits := h.send_emits hl hn
  split at hs
  · simp at hs
  split at hs
  · simp at hs
  simp only [Prod.mk.injEq, Option.some.injEq] at hs
  obtain ⟨-, rfl, rfl⟩ := hs
  have hput := (sameSenders_keypairPut l₂ k).sender k
  have hidx : ((noiseKeypairPut l₂ k).keypairs k).iRemoteIndex = (l₂.keypairs k).iRemoteIndex :=
    congrArg Prod.fst hput
  have hkey : ((noiseKeypairPut l₂ k).keypairs k).kpSend = (l₂.keypairs k).kpSend :=
    congrArg (·.2.1) hput
  exact ⟨k, nonce, (keypairCurrent_some hl).1, hemits, by rw [sealedData, hidx, hkey]; rfl⟩

/-- Nothing is there yet. -/
theorem exact_init (p : Prims) (secret : Bytes) :
    Exact (noiseLocalPrivate p noiseLocalAlloc secret) := by
  have hinit : ∀ l, l = noiseLocalPrivate p noiseLocalAlloc secret →
      l.lIndexHash = [] ∧ l.lRemoteHash = [] ∧ (l.remotes = fun _ => .blank)
        ∧ l.keypairs = fun _ => .blank := by
    rintro _ rfl
    unfold noiseLocalPrivate
    simp only []
    split <;> exact ⟨rfl, rfl, rfl, rfl⟩
  generalize hl : noiseLocalPrivate p noiseLocalAlloc secret = l
  obtain ⟨htable, hhash, hremotes, hkeys⟩ := hinit l hl.symm
  have hslots : ∀ r, l.slots r = [] := fun r => by
    rw [NoiseLocal.slots, hremotes]
    rfl
  have hheld : ∀ k, ¬ Held l l.links.refs k := fun k hk => by
    rcases hk with hk | hk
    · simp [hslots] at hk
    · simp [Links.refs] at hk
  constructor
  case counted =>
    constructor
    · simp [htable]
    · simp [htable, hremotes, NoiseRemote.blank]
    · simp [htable, hheld]
    · simp [hslots]
    · simp [hslots, Links.refs]
    · exact fun k hk => absurd hk (hheld k)
    · exact fun k hk => absurd hk (hheld k)
    · intro r
      rw [hslots]
      show (l.remotes r).rRefcnt = (l.remotes r).rEntryInserted.toNat + 0 + 0
      rw [hremotes]
      rfl
  case freed => exact fun k _ => by rw [hkeys]; rfl
  case fresh => exact fun r _ => by rw [hremotes]
  case listed => simp [hhash]
  case once => simp [hhash]

end PolarWG
