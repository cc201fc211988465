import PolarWG.Ledger

/-!
# Reference counts and the index table

`Counted` says that a count is exactly the references there are, and that the index table holds
exactly the linked remotes and keypairs, each under an index of its own. The Noise layer's
operations keep it, given what the rest of the program holds.
-/

namespace PolarWG

/-- The references from outside the Noise layer's own objects: to remotes, to keypairs, the
keypairs taken out of their places and not dropped yet, and the one not in the table yet. -/
structure Refs where
  own : ℕ → ℕ
  pins : ℕ → ℕ
  loose : List ℕ
  incoming : Option ℕ

def NoiseLocal.slots (l : NoiseLocal) (r : ℕ) : List ℕ := (l.remotes r).link.slots

def Held (l : NoiseLocal) (ρ : Refs) (k : ℕ) : Prop :=
  k ∈ l.slots (l.keypairs k).kpRemote ∨ k ∈ ρ.loose

structure Counted (l : NoiseLocal) (ρ : Refs) : Prop where
  indices : (l.lIndexHash.map l.iLocalIndex).Nodup
  remoteLinked : ∀ r, .remote r ∈ l.lIndexHash ↔ (l.remotes r).rHandshakeState ≠ .dead
  keypairLinked : ∀ k, .keypair k ∈ l.lIndexHash ↔ Held l ρ k ∧ ρ.incoming ≠ some k
  slotRemote : ∀ r, ∀ k ∈ l.slots r, (l.keypairs k).kpRemote = r
  slotNodup : ∀ r, (l.slots r ++ ρ.loose).Nodup
  heldFresh : ∀ k, Held l ρ k → k < l.nKeypairs
  keypairCount : ∀ k, Held l ρ k → (l.keypairs k).kpRefcnt = 1 + ρ.pins k
  remoteCount : ∀ r, (l.remotes r).rRefcnt
    = ρ.own r + (l.slots r).length + ρ.loose.countP fun k => (l.keypairs k).kpRemote = r

variable {l : NoiseLocal} {ρ : Refs}

theorem Counted.tableNodup (h : Counted l ρ) : l.lIndexHash.Nodup := h.indices.of_map

/-! ## Updates -/

theorem modRemote_remotes (l : NoiseLocal) (r r' : ℕ) (f : NoiseRemote → NoiseRemote) :
    (l.modRemote r f).remotes r' = if r' = r then f (l.remotes r) else l.remotes r' := by
  simp only [NoiseLocal.modRemote, Function.update_apply]

theorem modKeypair_keypairs (l : NoiseLocal) (k k' : ℕ) (f : NoiseKeypair → NoiseKeypair) :
    (l.modKeypair k f).keypairs k' = if k' = k then f (l.keypairs k) else l.keypairs k' := by
  simp only [NoiseLocal.modKeypair, Function.update_apply]

@[simp] theorem modRemote_keypairs (l : NoiseLocal) (r : ℕ) (f : NoiseRemote → NoiseRemote) :
    (l.modRemote r f).keypairs = l.keypairs := rfl

@[simp] theorem modKeypair_remotes (l : NoiseLocal) (k : ℕ) (f : NoiseKeypair → NoiseKeypair) :
    (l.modKeypair k f).remotes = l.remotes := rfl

@[simp] theorem modRemote_table (l : NoiseLocal) (r : ℕ) (f : NoiseRemote → NoiseRemote) :
    (l.modRemote r f).lIndexHash = l.lIndexHash := rfl

@[simp] theorem modKeypair_table (l : NoiseLocal) (k : ℕ) (f : NoiseKeypair → NoiseKeypair) :
    (l.modKeypair k f).lIndexHash = l.lIndexHash := rfl

@[simp] theorem modRemote_nKeypairs (l : NoiseLocal) (r : ℕ) (f : NoiseRemote → NoiseRemote) :
    (l.modRemote r f).nKeypairs = l.nKeypairs := rfl

@[simp] theorem modKeypair_nKeypairs (l : NoiseLocal) (k : ℕ) (f : NoiseKeypair → NoiseKeypair) :
    (l.modKeypair k f).nKeypairs = l.nKeypairs := rfl

theorem modRemote_of_fixed {l : NoiseLocal} {r : ℕ} {f : NoiseRemote → NoiseRemote} {α : Type*}
    (g : NoiseRemote → α) (h : g (f (l.remotes r)) = g (l.remotes r)) (r' : ℕ) :
    g ((l.modRemote r f).remotes r') = g (l.remotes r') := by
  rw [modRemote_remotes]
  split
  · next e => rw [h, e]
  · rfl

theorem modKeypair_of_fixed {l : NoiseLocal} {k : ℕ} {f : NoiseKeypair → NoiseKeypair} {α : Type*}
    (g : NoiseKeypair → α) (h : g (f (l.keypairs k)) = g (l.keypairs k)) (k' : ℕ) :
    g ((l.modKeypair k f).keypairs k') = g (l.keypairs k') := by
  rw [modKeypair_keypairs]
  split
  · next e => rw [h, e]
  · rfl

/-- Where the table with its indices, the states, the places and the keypairs' remotes stay, only the
counts have to be looked at. -/
theorem Counted.recount {l' : NoiseLocal} {ρ' : Refs} (h : Counted l ρ)
    (ht : l'.lIndexHash = l.lIndexHash) (hn : l'.nKeypairs = l.nKeypairs)
    (hri : ∀ r, .remote r ∈ l.lIndexHash →
      (l'.remotes r).iLocalIndex = (l.remotes r).iLocalIndex)
    (hrs : ∀ r, (l'.remotes r).rHandshakeState = (l.remotes r).rHandshakeState)
    (hsl : ∀ r, l'.slots r = l.slots r)
    (hki : ∀ k, (l'.keypairs k).iLocalIndex = (l.keypairs k).iLocalIndex)
    (hkr : ∀ k, (l'.keypairs k).kpRemote = (l.keypairs k).kpRemote)
    (hl : ρ'.loose = ρ.loose) (hi : ρ'.incoming = ρ.incoming)
    (hkc : ∀ k, Held l ρ k → (l'.keypairs k).kpRefcnt + ρ.pins k
      = (l.keypairs k).kpRefcnt + ρ'.pins k)
    (hrc : ∀ r, (l'.remotes r).rRefcnt + ρ.own r = (l.remotes r).rRefcnt + ρ'.own r) :
    Counted l' ρ' := by
  have hidx : ∀ e ∈ l.lIndexHash, l'.iLocalIndex e = l.iLocalIndex e := by
    intro e he
    cases e with
    | remote r => exact hri r he
    | keypair k => exact hki k
  have hheld : ∀ k, Held l' ρ' k ↔ Held l ρ k := fun k => by simp only [Held, hsl, hkr, hl]
  refine ⟨?_, ?_, ?_, ?_, ?_, ?_, ?_, ?_⟩
  · rw [ht, List.map_congr_left hidx]
    exact h.indices
  · intro r
    rw [ht, hrs, h.remoteLinked]
  · intro k
    rw [ht, hheld, hi, h.keypairLinked]
  · intro r k hk
    rw [hkr]
    exact h.slotRemote r k (hsl r ▸ hk)
  · intro r
    rw [hsl, hl]
    exact h.slotNodup r
  · intro k hk
    rw [hn]
    exact h.heldFresh k ((hheld k).mp hk)
  · intro k hk
    have h1 := hkc k ((hheld k).mp hk)
    have h2 := h.keypairCount k ((hheld k).mp hk)
    omega
  · intro r
    have h1 := hrc r
    have h2 := h.remoteCount r
    simp only [hsl, hl, hkr] at h1 h2 ⊢
    omega

theorem Counted.modRemote (h : Counted l ρ) {r : ℕ} {f : NoiseRemote → NoiseRemote}
    (hi : (f (l.remotes r)).iLocalIndex = (l.remotes r).iLocalIndex)
    (hs : (f (l.remotes r)).rHandshakeState = (l.remotes r).rHandshakeState)
    (hsl : (f (l.remotes r)).link.slots = (l.remotes r).link.slots)
    (hc : (f (l.remotes r)).rRefcnt = (l.remotes r).rRefcnt) : Counted (l.modRemote r f) ρ :=
  h.recount rfl rfl (fun r' _ => modRemote_of_fixed _ hi r') (modRemote_of_fixed _ hs)
    (modRemote_of_fixed (fun v => v.link.slots) hsl) (fun _ => rfl) (fun _ => rfl) rfl rfl
    (fun _ _ => rfl) fun r' => by rw [modRemote_of_fixed _ hc]

theorem Counted.modKeypair (h : Counted l ρ) {k : ℕ} {f : NoiseKeypair → NoiseKeypair}
    (hi : (f (l.keypairs k)).iLocalIndex = (l.keypairs k).iLocalIndex)
    (hr : (f (l.keypairs k)).kpRemote = (l.keypairs k).kpRemote)
    (hc : (f (l.keypairs k)).kpRefcnt = (l.keypairs k).kpRefcnt) : Counted (l.modKeypair k f) ρ :=
  h.recount rfl rfl (fun _ _ => rfl) (fun _ => rfl) (fun _ => rfl) (modKeypair_of_fixed _ hi)
    (modKeypair_of_fixed _ hr) rfl rfl (fun k' _ => by rw [modKeypair_of_fixed _ hc])
    fun _ => rfl

/-! ## Taking and putting references -/

def Refs.addOwn (ρ : Refs) (r : ℕ) : Refs := { ρ with own := ρ.own + Pi.single r 1 }

def Refs.addPin (ρ : Refs) (k : ℕ) : Refs := { ρ with pins := ρ.pins + Pi.single k 1 }

theorem Counted.remoteRef (h : Counted l ρ) (r : ℕ) : Counted (noiseRemoteRef l r) (ρ.addOwn r) := by
  refine h.recount rfl rfl (fun r' _ => modRemote_of_fixed _ rfl r') (modRemote_of_fixed _ rfl)
    (modRemote_of_fixed (fun v => v.link.slots) rfl) (fun _ => rfl) (fun _ => rfl) rfl rfl
    (fun _ _ => rfl) fun r' => ?_
  simp only [noiseRemoteRef, modRemote_remotes, Refs.addOwn, Pi.add_apply, Pi.single_apply]
  split
  · next e => subst e; simp only; omega
  · omega

theorem Counted.remotePut {r : ℕ} (h : Counted l (ρ.addOwn r)) : Counted (noiseRemotePut l r) ρ := by
  refine h.recount rfl rfl (fun r' _ => modRemote_of_fixed _ rfl r') (modRemote_of_fixed _ rfl)
    (modRemote_of_fixed (fun v => v.link.slots) rfl) (fun _ => rfl) (fun _ => rfl) rfl rfl
    (fun _ _ => rfl) fun r' => ?_
  have hc := h.remoteCount r
  simp only [Refs.addOwn, Pi.add_apply, Pi.single_apply, if_true] at hc
  simp only [noiseRemotePut, modRemote_remotes, Refs.addOwn, Pi.add_apply, Pi.single_apply]
  split
  · next e => subst e; simp only; omega
  · omega

theorem Counted.keypairRef (h : Counted l ρ) (k : ℕ) : Counted (noiseKeypairRef l k) (ρ.addPin k) := by
  refine h.recount rfl rfl (fun _ _ => rfl) (fun _ => rfl) (fun _ => rfl) (modKeypair_of_fixed _ rfl)
    (modKeypair_of_fixed _ rfl) rfl rfl (fun k' _ => ?_) fun _ => rfl
  simp only [noiseKeypairRef, modKeypair_keypairs, Refs.addPin, Pi.add_apply, Pi.single_apply]
  split
  · next e => subst e; simp only; omega
  · omega

/-- A pinned keypair that is held as well is not freed. -/
theorem Counted.keypairPut {k : ℕ} (h : Counted l (ρ.addPin k)) (hk : Held l ρ k) :
    Counted (noiseKeypairPut l k) ρ := by
  have hc := h.keypairCount k hk
  simp only [Refs.addPin, Pi.add_apply, Pi.single_apply, if_true] at hc
  unfold noiseKeypairPut
  rw [if_neg (by omega)]
  refine h.recount rfl rfl (fun _ _ => rfl) (fun _ => rfl) (fun _ => rfl) (modKeypair_of_fixed _ rfl)
    (modKeypair_of_fixed _ rfl) rfl rfl (fun k' _ => ?_) fun _ => rfl
  simp only [modKeypair_keypairs, Refs.addPin, Pi.add_apply, Pi.single_apply]
  split
  · next e => subst e; simp only; omega
  · omega

/-! ## Dropping keypairs -/

def Refs.setLoose (ρ : Refs) (ks : List ℕ) : Refs := { ρ with loose := ks }

@[simp] theorem Refs.loose_setLoose (ρ : Refs) (ks : List ℕ) : (ρ.setLoose ks).loose = ks := rfl

theorem Counted.drop {k : ℕ} {ks : List ℕ} (h : Counted l (ρ.setLoose (k :: ks)))
    (hp : ρ.pins k = 0) (hi : ρ.incoming ≠ some k) :
    Counted (noiseKeypairDrop l (some k)) (ρ.setLoose ks) := by
  have hheld : Held l (ρ.setLoose (k :: ks)) k := .inr (by simp)
  have hnodup := h.slotNodup (l.keypairs k).kpRemote
  have hout : k ∉ l.slots (l.keypairs k).kpRemote ∧ k ∉ ks := by
    rw [Refs.loose_setLoose, List.nodup_middle, List.nodup_cons, List.mem_append, not_or] at hnodup
    exact hnodup.1
  have hc : (l.keypairs k).kpRefcnt = 1 := by
    have := h.keypairCount k hheld
    simp only [Refs.setLoose] at this
    omega
  simp only [noiseKeypairDrop, noiseKeypairPut, hc, if_true]
  set l' := noiseRemotePut _ _ with hl'
  have hri : ∀ r, (l'.remotes r).iLocalIndex = (l.remotes r).iLocalIndex :=
    modRemote_of_fixed NoiseRemote.iLocalIndex rfl
  have hrs : ∀ r, (l'.remotes r).rHandshakeState = (l.remotes r).rHandshakeState :=
    modRemote_of_fixed NoiseRemote.rHandshakeState rfl
  have hsl : ∀ r, l'.slots r = l.slots r := modRemote_of_fixed (fun v => v.link.slots) rfl
  have hkp : l'.keypairs = (l.modKeypair k fun v => { v with kpRefcnt := v.kpRefcnt - 1 }).keypairs :=
    rfl
  have hki : ∀ k, (l'.keypairs k).iLocalIndex = (l.keypairs k).iLocalIndex :=
    hkp ▸ modKeypair_of_fixed NoiseKeypair.iLocalIndex rfl
  have hkr : ∀ k, (l'.keypairs k).kpRemote = (l.keypairs k).kpRemote :=
    hkp ▸ modKeypair_of_fixed NoiseKeypair.kpRemote rfl
  have ht : l'.lIndexHash = l.lIndexHash.erase (.keypair k) := rfl
  have hidx : l'.iLocalIndex = l.iLocalIndex := by
    funext i
    cases i with
    | remote r => exact hri r
    | keypair k => exact hki k
  have hheld' : ∀ k', Held l' (ρ.setLoose ks) k' ↔ Held l (ρ.setLoose (k :: ks)) k' ∧ k' ≠ k := by
    intro k'
    simp only [Held, hsl, hkr, Refs.loose_setLoose, List.mem_cons]
    by_cases e : k' = k
    · subst e
      simp [hout]
    · simp [e]
  refine ⟨?_, ?_, ?_, ?_, ?_, ?_, ?_, ?_⟩
  · rw [ht, hidx]
    exact (List.erase_sublist.map _).nodup h.indices
  · intro r
    rw [ht, List.mem_erase_of_ne (by simp), hrs, h.remoteLinked]
  · intro k'
    rw [ht, h.tableNodup.mem_erase_iff, h.keypairLinked, hheld']
    simp only [ne_eq, NoiseIndex.keypair.injEq, Refs.setLoose]
    tauto
  · intro r k' hk
    rw [hkr]
    exact h.slotRemote r k' (hsl r ▸ hk)
  · intro r
    rw [hsl]
    have := h.slotNodup r
    rw [Refs.loose_setLoose, List.nodup_middle, List.nodup_cons] at this
    exact this.2
  · intro k' hk
    exact h.heldFresh k' ((hheld' k').mp hk).1
  · intro k' hk
    obtain ⟨h1, h2⟩ := (hheld' k').mp hk
    rw [show l'.keypairs k' = l.keypairs k' by rw [hkp, modKeypair_keypairs, if_neg h2]]
    exact h.keypairCount k' h1
  · intro r
    have h1 := h.remoteCount r
    simp only [Refs.setLoose, List.countP_cons, decide_eq_true_eq] at h1
    simp only [hsl, hkr, Refs.setLoose]
    rw [hl', noiseRemotePut, modRemote_remotes]
    split
    · next e =>
      subst e
      simp only [modKeypair_remotes, if_true] at h1 ⊢
      omega
    · next e =>
      rw [if_neg (Ne.symm e)] at h1
      simpa using h1

theorem Counted.dropOpt {o : Option ℕ} {ks : List ℕ} (h : Counted l (ρ.setLoose (o.toList ++ ks)))
    (hp : ∀ k ∈ o, ρ.pins k = 0) (hi : ∀ k ∈ o, ρ.incoming ≠ some k) :
    Counted (noiseKeypairDrop l o) (ρ.setLoose ks) := by
  cases o with
  | none => exact h
  | some k => exact h.drop (hp k rfl) (hi k rfl)

/-- A remote's places can be rearranged while keypairs of it are loose. -/
theorem Counted.reslot {r : ℕ} {f : NoiseRemote → NoiseRemote} (h : Counted l ρ) (ks : List ℕ)
    (hi : (f (l.remotes r)).iLocalIndex = (l.remotes r).iLocalIndex)
    (hs : (f (l.remotes r)).rHandshakeState = (l.remotes r).rHandshakeState)
    (hc : (f (l.remotes r)).rRefcnt = (l.remotes r).rRefcnt)
    (hp : (l.slots r ++ ρ.loose).Perm ((f (l.remotes r)).link.slots ++ ks))
    (hr : ∀ k ∈ ρ.loose, (l.keypairs k).kpRemote = r) :
    Counted (l.modRemote r f) (ρ.setLoose ks) := by
  set l' := l.modRemote r f with hl'
  have hsl : ∀ r', r' ≠ r → l'.slots r' = l.slots r' := fun r' e => by
    simp only [NoiseLocal.slots, hl', modRemote_remotes, if_neg e]
  have hslr : l'.slots r = (f (l.remotes r)).link.slots := by
    simp only [NoiseLocal.slots, hl', modRemote_remotes, if_true]
  have hall : ∀ k, k ∈ l'.slots r ∨ k ∈ ks ↔ k ∈ l.slots r ∨ k ∈ ρ.loose := fun k => by
    rw [hslr, ← List.mem_append, ← List.mem_append]
    exact hp.mem_iff.symm
  have hmine : ∀ k, k ∈ l'.slots r ∨ k ∈ ks → (l.keypairs k).kpRemote = r := fun k hk =>
    ((hall k).mp hk).elim (h.slotRemote r k) (hr k)
  have hidx : l'.iLocalIndex = l.iLocalIndex := by
    funext i
    cases i with
    | remote r => exact modRemote_of_fixed NoiseRemote.iLocalIndex hi r
    | keypair k => rfl
  have hheld : ∀ k, Held l' (ρ.setLoose ks) k ↔ Held l ρ k := by
    intro k
    show k ∈ l'.slots (l.keypairs k).kpRemote ∨ k ∈ ks ↔
      k ∈ l.slots (l.keypairs k).kpRemote ∨ k ∈ ρ.loose
    by_cases e : (l.keypairs k).kpRemote = r
    · rw [e]
      exact hall k
    · have h1 : k ∉ ks := fun hk => e (hmine k (.inr hk))
      have h2 : k ∉ ρ.loose := fun hk => e (hr k hk)
      rw [hsl _ e]
      simp only [h1, h2]
  have hnod := hp.nodup_iff.mp (h.slotNodup r)
  refine ⟨?_, ?_, ?_, ?_, ?_, ?_, ?_, ?_⟩
  · rw [hidx]
    exact h.indices
  · intro r'
    rw [show (l'.remotes r').rHandshakeState = (l.remotes r').rHandshakeState from
      modRemote_of_fixed NoiseRemote.rHandshakeState hs r']
    exact h.remoteLinked r'
  · intro k
    rw [hheld]
    exact h.keypairLinked k
  · intro r' k hk
    by_cases e : r' = r
    · subst e
      exact hmine k (.inl hk)
    · exact h.slotRemote r' k (hsl r' e ▸ hk)
  · intro r'
    rw [Refs.loose_setLoose]
    by_cases e : r' = r
    · rw [e, hslr]
      exact hnod
    · rw [hsl r' e, List.nodup_append]
      refine ⟨(List.nodup_append.mp (h.slotNodup r')).1, (List.nodup_append.mp hnod).2.1, ?_⟩
      rintro k hk k' hk' rfl
      exact e ((h.slotRemote r' k hk).symm.trans (hmine k (.inr hk')))
  · intro k hk
    exact h.heldFresh k ((hheld k).mp hk)
  · intro k hk
    exact h.keypairCount k ((hheld k).mp hk)
  · intro r'
    have hcount := h.remoteCount r'
    rw [show (l'.remotes r').rRefcnt = (l.remotes r').rRefcnt from
      modRemote_of_fixed NoiseRemote.rRefcnt hc r', hcount]
    show _ = ρ.own r' + (l'.slots r').length + ks.countP fun k => (l.keypairs k).kpRemote = r'
    by_cases e : r' = r
    · subst e
      have hlen := hp.length_eq
      simp only [List.length_append] at hlen
      rw [List.countP_eq_length.mpr (by simpa using hr),
        List.countP_eq_length.mpr fun k hk => by simpa using hmine k (.inr hk), hslr]
      omega
    · rw [hsl r' e, List.countP_eq_zero.mpr fun k hk => by simpa [hr k hk] using Ne.symm e,
        List.countP_eq_zero.mpr fun k hk => by
          simpa [hmine k (.inr hk)] using Ne.symm e]

end PolarWG
