import PolarWG.Proofs.References

/-!
# Handshakes and keypairs against the counts

Each operation that links a remote or turns it into a keypair: what it does to the ledger's links,
and that it keeps the counts.
-/

namespace PolarWG

variable {l : NoiseLocal} {ρ : Refs}

/-! ## Links -/

theorem links_modRemote {r : ℕ} {f : NoiseRemote → NoiseRemote} {g : RemoteLink → RemoteLink}
    (h : (f (l.remotes r)).link = g (l.remotes r).link) :
    (l.modRemote r f).links = l.links.modRemote r g := by
  simp only [NoiseLocal.links, NoiseLocal.modRemote, Links.modRemote, ← h, Links.mk.injEq,
    true_and, and_true]
  funext r'
  simp only [Function.update_apply]
  split <;> rfl

theorem Links.modRemote_remotes (L : Links) (r r' : ℕ) (f : RemoteLink → RemoteLink) :
    (L.modRemote r f).remotes r' = if r' = r then f (L.remotes r) else L.remotes r' := by
  simp only [Links.modRemote, Function.update_apply]

@[simp] theorem Links.modRemote_self (L : Links) (r : ℕ) : (L.modRemote r fun v => v) = L := by
  simp only [Links.modRemote, Function.update_eq_self]

theorem Links.modRemote_congr {L : Links} {r : ℕ} {f g : RemoteLink → RemoteLink}
    (h : f (L.remotes r) = g (L.remotes r)) : L.modRemote r f = L.modRemote r g := by
  simp only [Links.modRemote, h]

theorem links_modRemote_fixed {r : ℕ} {f : NoiseRemote → NoiseRemote}
    (h : (f (l.remotes r)).link = (l.remotes r).link) : (l.modRemote r f).links = l.links := by
  rw [links_modRemote (g := fun v => v) h, Links.modRemote_self]

theorem links_modKeypair_fixed {k : ℕ} {f : NoiseKeypair → NoiseKeypair}
    (h : (f (l.keypairs k)).link = (l.keypairs k).link) : (l.modKeypair k f).links = l.links := by
  simp only [NoiseLocal.links, NoiseLocal.modKeypair, Links.mk.injEq, true_and, and_true]
  funext k'
  simp only [Function.update_apply]
  split
  · next e => rw [h, e]
  · rfl

@[simp] theorem links_remoteRef (l : NoiseLocal) (r : ℕ) : (noiseRemoteRef l r).links = l.links :=
  links_modRemote_fixed rfl

@[simp] theorem links_remotePut (l : NoiseLocal) (r : ℕ) : (noiseRemotePut l r).links = l.links :=
  links_modRemote_fixed rfl

@[simp] theorem links_keypairRef (l : NoiseLocal) (k : ℕ) : (noiseKeypairRef l k).links = l.links :=
  links_modKeypair_fixed rfl

@[simp] theorem links_keypairPut (l : NoiseLocal) (k : ℕ) :
    (noiseKeypairPut l k).links = l.links := by
  unfold noiseKeypairPut
  simp only []
  split
  · rw [links_remotePut]
    exact links_modKeypair_fixed rfl
  · exact links_modKeypair_fixed rfl

@[simp] theorem links_keypairDrop (l : NoiseLocal) (o : Option ℕ) :
    (noiseKeypairDrop l o).links = l.links := by
  cases o with
  | none => rfl
  | some k => exact links_keypairPut _ k

theorem links_indexRemove (l : NoiseLocal) (r : ℕ) : (noiseRemoteIndexRemove l r).links
    = l.links.modRemote r fun v => { v with state := .dead } := by
  unfold noiseRemoteIndexRemove
  split
  · next h =>
    rw [Links.modRemote_congr (g := fun v => v), Links.modRemote_self]
    simp only [NoiseLocal.links, NoiseRemote.link, h]
  · exact links_modRemote (l := l) (f := fun v => { v with rHandshakeState := .dead }) rfl

theorem Links.modRemote_modRemote (L : Links) (r : ℕ) (f g : RemoteLink → RemoteLink) :
    (L.modRemote r f).modRemote r g = L.modRemote r fun v => g (f v) := by
  simp only [Links.modRemote, Function.update_idem, Function.update_self]

theorem indexRemove_remotes (l : NoiseLocal) (r r' : ℕ) : (noiseRemoteIndexRemove l r).remotes r'
    = if r' = r then { l.remotes r with rHandshakeState := .dead } else l.remotes r' := by
  unfold noiseRemoteIndexRemove
  split
  · next hd =>
    split
    · next e => rw [e, ← hd]
    · rfl
  · exact modRemote_remotes l r r' fun v => { v with rHandshakeState := .dead }

/-- What is inserted is linked under some index not in use. -/
theorem indexInsert_eq {r : ℕ} {draws : List UInt32} {l' : NoiseLocal}
    (h : noiseRemoteIndexInsert l r draws = some l') :
    ∃ i, i ∉ (noiseRemoteIndexRemove l r).lIndexHash.map (noiseRemoteIndexRemove l r).iLocalIndex
      ∧ l' = { (noiseRemoteIndexRemove l r).modRemote r fun v => { v with iLocalIndex := i } with
        lIndexHash := .remote r :: (noiseRemoteIndexRemove l r).lIndexHash } := by
  simp only [noiseRemoteIndexInsert, assignId, Option.map_eq_some_iff] at h
  obtain ⟨i, hi, rfl⟩ := h
  exact ⟨i, by simpa using List.find?_some hi, rfl⟩

theorem indexInsert_remotes {r : ℕ} {draws : List UInt32} {l' : NoiseLocal}
    (h : noiseRemoteIndexInsert l r draws = some l') (r' : ℕ) :
    l'.remotes r' = if r' = r then
      { l.remotes r with rHandshakeState := .dead, iLocalIndex := (l'.remotes r).iLocalIndex }
    else l.remotes r' := by
  obtain ⟨i, -, rfl⟩ := indexInsert_eq h
  simp only [modRemote_remotes, indexRemove_remotes, if_true]
  split_ifs <;> rfl

theorem links_indexInsert {r : ℕ} {draws : List UInt32} {l' : NoiseLocal}
    (h : noiseRemoteIndexInsert l r draws = some l') : l'.links = l.links.modRemote r fun v =>
      { v with state := .dead, idx := (l'.remotes r).iLocalIndex } := by
  obtain ⟨i, -, rfl⟩ := indexInsert_eq h
  have : ((noiseRemoteIndexRemove l r).modRemote r fun v => { v with iLocalIndex := i }).links
      = l.links.modRemote r fun v => { v with state := .dead, idx := i } := by
    rw [links_modRemote (g := fun v => { v with idx := i }) rfl, links_indexRemove,
      Links.modRemote_modRemote]
  simp only [modRemote_remotes, if_true]
  exact this

theorem link_of_links {l' : NoiseLocal} (h : l'.links = l.links) (r : ℕ) :
    (l'.remotes r).link = (l.remotes r).link := congrFun (congrArg Links.remotes h) r

theorem keypair_of_links {l' : NoiseLocal} (h : l'.links = l.links) (k : ℕ) :
    (l'.keypairs k).link = (l.keypairs k).link := congrFun (congrArg Links.keypairs h) k

/-! ## The index table -/

theorem Counted.indexRemove (h : Counted l ρ) (r : ℕ) : Counted (noiseRemoteIndexRemove l r) ρ := by
  by_cases hd : (l.remotes r).rHandshakeState = .dead
  · rwa [noiseRemoteIndexRemove, if_pos hd]
  have hr := indexRemove_remotes l r
  have ht : (noiseRemoteIndexRemove l r).lIndexHash = l.lIndexHash.erase (.remote r)
      ∧ (noiseRemoteIndexRemove l r).keypairs = l.keypairs
      ∧ (noiseRemoteIndexRemove l r).nKeypairs = l.nKeypairs := by
    rw [noiseRemoteIndexRemove, if_neg hd]
    exact ⟨rfl, rfl, rfl⟩
  generalize noiseRemoteIndexRemove l r = l' at *
  obtain ⟨ht, hk, hn⟩ := ht
  have hfix : ∀ {α : Type} (g : NoiseRemote → α),
      g { l.remotes r with rHandshakeState := .dead } = g (l.remotes r) →
      ∀ r', g (l'.remotes r') = g (l.remotes r') := fun g hg r' => by
    rw [hr]
    split
    · next e => rw [hg, e]
    · rfl
  have hidx : l'.iLocalIndex = l.iLocalIndex := by
    funext i
    cases i with
    | remote r' => exact hfix NoiseRemote.iLocalIndex rfl r'
    | keypair k => simp only [NoiseLocal.iLocalIndex, hk]
  have hsl : ∀ r', l'.slots r' = l.slots r' := hfix (fun v => v.link.slots) rfl
  have hheld : ∀ k, Held l' ρ k ↔ Held l ρ k := fun k => by simp only [Held, hsl, hk]
  refine ⟨?_, ?_, ?_, ?_, ?_, ?_, ?_, ?_⟩
  · rw [ht, hidx]
    exact (List.erase_sublist.map _).nodup h.indices
  · intro r'
    rw [ht, h.tableNodup.mem_erase_iff, h.remoteLinked, hr]
    by_cases e : r' = r
    · simp [e]
    · simp [e]
  · intro k
    rw [ht, List.mem_erase_of_ne (by simp), h.keypairLinked, hheld]
  · intro r' k hm
    rw [hk]
    exact h.slotRemote r' k (hsl r' ▸ hm)
  · intro r'
    rw [hsl]
    exact h.slotNodup r'
  · intro k hm
    rw [hn]
    exact h.heldFresh k ((hheld k).mp hm)
  · intro k hm
    rw [hk]
    exact h.keypairCount k ((hheld k).mp hm)
  · intro r'
    rw [hsl, hk, hfix NoiseRemote.rRefcnt rfl r']
    exact h.remoteCount r'

/-- A remote put in the table with its handshake started. -/
theorem Counted.indexInsert (h : Counted l ρ) {r : ℕ} {draws : List UInt32} {l' : NoiseLocal}
    (hl : noiseRemoteIndexInsert l r draws = some l') {f : NoiseRemote → NoiseRemote}
    (hi : (f (l'.remotes r)).iLocalIndex = (l'.remotes r).iLocalIndex)
    (hs : (f (l'.remotes r)).rHandshakeState ≠ .dead)
    (hsl : (f (l'.remotes r)).link.slots = (l'.remotes r).link.slots)
    (hc : (f (l'.remotes r)).rRefcnt = (l'.remotes r).rRefcnt) : Counted (l'.modRemote r f) ρ := by
  have hd : ((noiseRemoteIndexRemove l r).remotes r).rHandshakeState = .dead := by
    rw [indexRemove_remotes, if_pos rfl]
  have h := h.indexRemove r
  obtain ⟨i, hnew, rfl⟩ := indexInsert_eq hl
  generalize noiseRemoteIndexRemove l r = l at *
  simp only [modRemote_remotes, if_true] at hi hs hsl hc
  set l' : NoiseLocal := NoiseLocal.modRemote _ r f with hl'
  have hout : NoiseIndex.remote r ∉ l.lIndexHash := fun hm => (h.remoteLinked r).mp hm hd
  have hr : ∀ r', l'.remotes r'
      = if r' = r then f { l.remotes r with iLocalIndex := i } else l.remotes r' := fun r' => by
    simp only [hl', modRemote_remotes, if_true]
    split <;> rfl
  have hsame : ∀ e ∈ l.lIndexHash, l'.iLocalIndex e = l.iLocalIndex e := by
    intro e he
    cases e with
    | remote r' =>
      have : r' ≠ r := fun e => hout (e ▸ he)
      simp only [NoiseLocal.iLocalIndex, hr, if_neg this]
    | keypair k => rfl
  have hsl' : ∀ r', l'.slots r' = l.slots r' := fun r' => by
    simp only [NoiseLocal.slots, hr]
    split
    · next e => rw [hsl, e]; rfl
    · rfl
  have hheld : ∀ k, Held l' ρ k ↔ Held l ρ k := fun k => by
    simp only [Held, hsl']
    rfl
  have ht : l'.lIndexHash = .remote r :: l.lIndexHash := rfl
  refine ⟨?_, ?_, ?_, ?_, ?_, ?_, ?_, ?_⟩
  · rw [ht, List.map_cons, List.map_congr_left hsame, List.nodup_cons]
    refine ⟨?_, h.indices⟩
    rwa [show l'.iLocalIndex (.remote r) = i by
      simp only [NoiseLocal.iLocalIndex, hr, if_true, hi]]
  · intro r'
    rw [ht, List.mem_cons, h.remoteLinked, hr]
    by_cases e : r' = r
    · simp only [e, if_true, true_or, true_iff]
      exact hs
    · simp only [NoiseIndex.remote.injEq, e, false_or, if_false]
  · intro k
    rw [ht, List.mem_cons, h.keypairLinked, hheld]
    simp only [reduceCtorEq, false_or]
  · intro r' k hk
    exact h.slotRemote r' k (hsl' r' ▸ hk)
  · intro r'
    rw [hsl']
    exact h.slotNodup r'
  · intro k hk
    exact h.heldFresh k ((hheld k).mp hk)
  · intro k hk
    exact h.keypairCount k ((hheld k).mp hk)
  · intro r'
    rw [hsl', hr]
    have := h.remoteCount r'
    split
    · next e => rw [hc]; subst e; exact this
    · exact this

/-! ## A new keypair -/

def NoiseLocal.pushKeypair (l : NoiseLocal) (kp : NoiseKeypair) : NoiseLocal :=
  { l with keypairs := Function.update l.keypairs l.nKeypairs kp, nKeypairs := l.nKeypairs + 1 }

def Refs.receive (ρ : Refs) (k : ℕ) : Refs := { ρ with loose := [k], incoming := some k }

/-- A keypair comes with a reference to its remote. -/
theorem Counted.pushKeypair (h : Counted l ρ) (hl : ρ.loose = []) (hi : ρ.incoming = none)
    {kp : NoiseKeypair} (hp : ρ.pins l.nKeypairs = 0) (hc : kp.kpRefcnt = 1) :
    Counted ((noiseRemoteRef l kp.kpRemote).pushKeypair kp) (ρ.receive l.nKeypairs) := by
  have hnew : ∀ r, l.nKeypairs ∉ l.slots r := fun r hk => by
    have := h.heldFresh _ (.inl (h.slotRemote r _ hk ▸ hk))
    omega
  have hold : ∀ k, Held l ρ k → k ≠ l.nKeypairs := fun k hk => (h.heldFresh k hk).ne
  set l' := (noiseRemoteRef l kp.kpRemote).pushKeypair kp with hl'
  have hk : ∀ k, l'.keypairs k = if k = l.nKeypairs then kp else l.keypairs k := fun k =>
    Function.update_apply ..
  have hr : ∀ r, l'.remotes r = (noiseRemoteRef l kp.kpRemote).remotes r := fun _ => rfl
  have hsl : ∀ r, l'.slots r = l.slots r := fun r => by
    rw [NoiseLocal.slots, hr]
    exact modRemote_of_fixed (fun v => v.link.slots) rfl r
  have hheld : ∀ k, Held l' (ρ.receive l.nKeypairs) k ↔ Held l ρ k ∨ k = l.nKeypairs := by
    intro k
    simp only [Held, hsl, hk, Refs.receive, List.mem_singleton, hl, List.not_mem_nil, or_false]
    by_cases e : k = l.nKeypairs
    · simp only [e, or_true]
    · simp only [e, if_false]
  have hsame : ∀ e ∈ l.lIndexHash, l'.iLocalIndex e = l.iLocalIndex e := by
    intro e he
    cases e with
    | remote r =>
      rw [NoiseLocal.iLocalIndex, hr, noiseRemoteRef, modRemote_of_fixed NoiseRemote.iLocalIndex rfl]
      rfl
    | keypair k =>
      have := hold k ((h.keypairLinked k).mp he).1
      simp only [NoiseLocal.iLocalIndex, hk, if_neg this]
  have ht : l'.lIndexHash = l.lIndexHash := rfl
  refine ⟨?_, ?_, ?_, ?_, ?_, ?_, ?_, ?_⟩
  · rw [ht, List.map_congr_left hsame]
    exact h.indices
  · intro r
    rw [ht, h.remoteLinked, hr, noiseRemoteRef, modRemote_of_fixed NoiseRemote.rHandshakeState rfl]
  · intro k
    rw [ht, h.keypairLinked, hheld, hi]
    simp only [Refs.receive, ne_eq, reduceCtorEq, not_false_eq_true, and_true, Option.some.injEq]
    exact ⟨fun hh => ⟨.inl hh, Ne.symm (hold k hh)⟩,
      fun hh => hh.1.resolve_right (Ne.symm hh.2)⟩
  · intro r k hm
    rw [hsl] at hm
    have hne : k ≠ l.nKeypairs := by
      rintro rfl
      exact hnew r hm
    rw [hk, if_neg hne]
    exact h.slotRemote r k hm
  · intro r
    rw [hsl, List.nodup_append]
    refine ⟨(List.nodup_append.mp (h.slotNodup r)).1, List.nodup_singleton _, ?_⟩
    rintro k hm k' hm' rfl
    rw [Refs.receive, List.mem_singleton] at hm'
    exact hnew r (hm' ▸ hm)
  · intro k hm
    have hn : l'.nKeypairs = l.nKeypairs + 1 := rfl
    rcases (hheld k).mp hm with hm | rfl
    · have := h.heldFresh k hm
      omega
    · omega
  · intro k hm
    rw [hk]
    split
    · next e =>
      subst e
      simp only [hc, Refs.receive, hp]
    · next e => exact h.keypairCount k (((hheld k).mp hm).resolve_right e)
  · intro r
    have hcount := h.remoteCount r
    rw [hl, List.countP_nil] at hcount
    simp only [hsl, hr, noiseRemoteRef, modRemote_remotes, Refs.receive, List.countP_singleton, hk,
      if_true, decide_eq_true_eq]
    by_cases e : r = kp.kpRemote
    · subst e
      simp only [if_true]
      omega
    · rw [if_neg e, if_neg (Ne.symm e)]
      omega

/-- The end of `noiseAddNewKeypair`: the keypair takes over the remote's place and index. -/
def noiseSettle (l : NoiseLocal) (r k : ℕ) : NoiseLocal :=
  let v := l.remotes r
  let l := l.modKeypair k fun kp =>
    { kp with iLocalIndex := v.iLocalIndex, iRemoteIndex := v.iRemoteIndex }
  { l.modRemote r fun v => { v with rHandshakeState := .dead, rHandshake := .blank } with
    lIndexHash := l.lIndexHash.map fun i => if i = .remote r then .keypair k else i }

theorem Counted.settle {r k : ℕ} (h : Counted l ρ) (hl : ρ.loose = []) (hi : ρ.incoming = some k)
    (hk : k ∈ l.slots r) (hs : (l.remotes r).rHandshakeState ≠ .dead) :
    Counted (noiseSettle l r k) { ρ with incoming := none } := by
  have hkr := h.slotRemote r k hk
  have hin : NoiseIndex.remote r ∈ l.lIndexHash := (h.remoteLinked r).mpr hs
  have hout : NoiseIndex.keypair k ∉ l.lIndexHash := fun hm =>
    ((h.keypairLinked k).mp hm).2 hi
  set l' := noiseSettle l r k with hl'
  have hrem : ∀ r', l'.remotes r' = if r' = r then
      { l.remotes r with rHandshakeState := .dead, rHandshake := .blank } else l.remotes r' :=
    fun r' => Function.update_apply ..
  have hkey : ∀ k', l'.keypairs k' = if k' = k then { l.keypairs k with
      iLocalIndex := (l.remotes r).iLocalIndex, iRemoteIndex := (l.remotes r).iRemoteIndex }
      else l.keypairs k' := fun k' => Function.update_apply ..
  have ht : l'.lIndexHash = l.lIndexHash.map fun i => if i = .remote r then .keypair k else i := rfl
  have hsl : ∀ r', l'.slots r' = l.slots r' := fun r' => by
    simp only [NoiseLocal.slots, hrem]
    split
    · next e => rw [e]; rfl
    · rfl
  have hkr' : ∀ k', (l'.keypairs k').kpRemote = (l.keypairs k').kpRemote := fun k' => by
    rw [hkey]
    split
    · next e => rw [e]
    · rfl
  have hheld : ∀ k', Held l' { ρ with incoming := none } k' ↔ Held l ρ k' := fun k' => by
    simp only [Held, hsl, hkr']
  have hsame : ∀ e ∈ l.lIndexHash,
      l'.iLocalIndex (if e = .remote r then .keypair k else e) = l.iLocalIndex e := by
    intro e he
    split
    · next e' =>
      subst e'
      simp only [NoiseLocal.iLocalIndex, hkey, if_true]
    · next hne =>
      cases e with
      | remote r' =>
        simp only [NoiseIndex.remote.injEq] at hne
        simp only [NoiseLocal.iLocalIndex, hrem, if_neg hne]
      | keypair k' =>
        have : k' ≠ k := fun e => hout (e ▸ he)
        simp only [NoiseLocal.iLocalIndex, hkey, if_neg this]
  refine ⟨?_, ?_, ?_, ?_, ?_, ?_, ?_, ?_⟩
  · have : l'.lIndexHash.map l'.iLocalIndex = l.lIndexHash.map l.iLocalIndex := by
      rw [ht, List.map_map]
      exact List.map_congr_left hsame
    rw [this]
    exact h.indices
  · intro r'
    rw [ht, hrem, List.mem_map]
    by_cases e : r' = r
    · subst e
      simp only [if_true, ne_eq, not_true_eq_false, iff_false, not_exists, not_and]
      intro i _
      split <;> simp_all
    · rw [if_neg e, ← h.remoteLinked]
      constructor
      · rintro ⟨i, hm, hi⟩
        split at hi
        · simp at hi
        · exact hi ▸ hm
      · exact fun hm => ⟨_, hm, by simp [e]⟩
  · intro k'
    rw [ht, List.mem_map, hheld]
    simp only [ne_eq, reduceCtorEq, not_false_eq_true, and_true]
    constructor
    · rintro ⟨i, hm, hi⟩
      split at hi
      · rw [NoiseIndex.keypair.injEq] at hi
        exact hi ▸ .inl (hkr ▸ hk)
      · exact ((h.keypairLinked k').mp (hi ▸ hm)).1
    · intro hm
      by_cases e : k' = k
      · exact ⟨_, hin, by simp [e]⟩
      · exact ⟨.keypair k', (h.keypairLinked k').mpr ⟨hm, by simpa [hi] using Ne.symm e⟩, by simp⟩
  · intro r' k' hm
    rw [hkr']
    exact h.slotRemote r' k' (hsl r' ▸ hm)
  · intro r'
    rw [hsl]
    exact h.slotNodup r'
  · intro k' hm
    exact h.heldFresh k' ((hheld k').mp hm)
  · intro k' hm
    have := h.keypairCount k' ((hheld k').mp hm)
    rw [hkey]
    split
    · next e => exact e ▸ this
    · exact this
  · intro r'
    have := h.remoteCount r'
    simp only [hsl, hkr', hl, hrem] at this ⊢
    split
    · next e => exact e ▸ this
    · exact this

/-! ## Rotation -/

theorem modRemote_modRemote (l : NoiseLocal) (r : ℕ) (f g : NoiseRemote → NoiseRemote) :
    (l.modRemote r f).modRemote r g = l.modRemote r fun v => g (f v) := by
  simp only [NoiseLocal.modRemote, Function.update_idem, Function.update_self]

theorem modRemote_congr {r : ℕ} {f g : NoiseRemote → NoiseRemote}
    (h : f (l.remotes r) = g (l.remotes r)) : l.modRemote r f = l.modRemote r g := by
  simp only [NoiseLocal.modRemote, h]

theorem modRemote_comm {r r' : ℕ} {f g : NoiseRemote → NoiseRemote} (h : ∀ v, g (f v) = f (g v)) :
    (l.modRemote r f).modRemote r' g = (l.modRemote r' g).modRemote r f := by
  simp only [NoiseLocal.modRemote]
  by_cases e : r' = r
  · subst e
    simp only [Function.update_self, Function.update_idem, h]
  · simp only [Function.update_of_ne e, Function.update_of_ne (Ne.symm e), Function.update_comm e]

/-- Dropping a keypair does not look at the places, and rearranging them not at the counts. -/
theorem drop_modRemote {r : ℕ} {f : NoiseRemote → NoiseRemote}
    (hf : ∀ v, f { v with rRefcnt := v.rRefcnt - 1 } = { f v with rRefcnt := (f v).rRefcnt - 1 })
    (o : Option ℕ) :
    (noiseKeypairDrop l o).modRemote r f = noiseKeypairDrop (l.modRemote r f) o := by
  cases o with
  | none => rfl
  | some k =>
    by_cases hc : (l.keypairs k).kpRefcnt = 1
    · simp only [noiseKeypairDrop, noiseKeypairPut, modRemote_keypairs, hc, if_true]
      exact modRemote_comm hf
    · simp only [noiseKeypairDrop, noiseKeypairPut, modRemote_keypairs, hc, if_false]
      rfl

/-- The remote with its new keypair in place. -/
def NoiseRemote.placed (k : ℕ) (isInitiator : Bool) (v : NoiseRemote) : NoiseRemote :=
  if isInitiator then
    { v with
      rNext := none, rCurrent := some k
      rPrevious := if v.rNext.isSome then v.rNext else v.rCurrent }
  else { v with rNext := some k, rPrevious := none }

/-- What a new keypair displaces, besides the previous one. -/
def NoiseRemote.displaced (isInitiator : Bool) (v : NoiseRemote) : Option ℕ :=
  if isInitiator then if v.rNext.isSome then v.rCurrent else none else v.rNext

theorem addNewKeypair_eq (l : NoiseLocal) (r k : ℕ) :
    noiseAddNewKeypair l r k = noiseSettle
      (noiseKeypairDrop
        (noiseKeypairDrop (l.modRemote r (·.placed k (l.keypairs k).kpIsInitiator))
          ((l.remotes r).displaced (l.keypairs k).kpIsInitiator)) (l.remotes r).rPrevious) r k := by
  unfold noiseAddNewKeypair noiseSettle NoiseRemote.displaced
  cases (l.keypairs k).kpIsInitiator with
  | false =>
    simp only [Bool.false_eq_true, if_false]
    rw [drop_modRemote fun v => rfl, modRemote_modRemote]
    rfl
  | true =>
    simp only [if_true]
    cases hn : (l.remotes r).rNext with
    | some n =>
      simp only [Option.isSome_some, if_true]
      rw [drop_modRemote fun v => rfl, drop_modRemote fun v => rfl, modRemote_modRemote,
        modRemote_congr (l := l) (g := (·.placed k true)) (by simp [NoiseRemote.placed, hn])]
    | none =>
      simp only [Option.isSome_none, Bool.false_eq_true, if_false]
      rw [drop_modRemote fun v => rfl, modRemote_modRemote,
        modRemote_congr (l := l) (g := (·.placed k true)) (by simp [NoiseRemote.placed, hn])]
      rfl

theorem placed_perm (v : NoiseRemote) (k : ℕ) (isInitiator : Bool) :
    (v.link.slots ++ [k]).Perm ((v.placed k isInitiator).link.slots
      ++ ((v.displaced isInitiator).toList ++ v.rPrevious.toList)) := by
  cases isInitiator <;> rcases v with ⟨⟩ <;> rename_i n c p <;>
    rcases n with _ | n <;> rcases c with _ | c <;> rcases p with _ | p <;>
    simp [NoiseRemote.placed, NoiseRemote.displaced, NoiseRemote.link, RemoteLink.slots] <;> grind

theorem Counted.addNewKeypair {r k : ℕ} (h : Counted l (ρ.receive k)) (hp : ρ.pins = 0)
    (hi : ρ.incoming = none) (hl : ρ.loose = [])
    (hr : (l.keypairs k).kpRemote = r) (hs : (l.remotes r).rHandshakeState ≠ .dead) :
    Counted (noiseAddNewKeypair l r k) ρ := by
  rw [addNewKeypair_eq]
  set b := (l.keypairs k).kpIsInitiator
  set v := l.remotes r with hv
  have hnew : k ∉ l.slots r := fun hk => by
    have := h.slotNodup r
    rw [List.nodup_append] at this
    exact this.2.2 k hk k (by simp [Refs.receive]) rfl
  have hdrop : ∀ o : Option ℕ, o.toList ⊆ v.link.slots → ∀ k' ∈ o, some k ≠ some k' := by
    rintro o hsub k' hk' e
    rw [Option.some.injEq] at e
    exact hnew (e ▸ hsub (by simpa using hk'))
  have h1 := h.reslot (r := r) (f := (·.placed k b)) ((v.displaced b).toList ++ v.rPrevious.toList)
    (by simp only [NoiseRemote.placed]; split <;> rfl)
    (by simp only [NoiseRemote.placed]; split <;> rfl)
    (by simp only [NoiseRemote.placed]; split <;> rfl) (placed_perm v k b)
    (by simp [Refs.receive, hr])
  have h2 := Counted.dropOpt (ρ := ρ.receive k) h1 (fun k' _ => by simp [Refs.receive, hp])
    (hdrop _ (by cases b <;> simp only [NoiseRemote.displaced, NoiseRemote.link, RemoteLink.slots,
      if_true, if_false, Bool.false_eq_true] <;> (try split) <;> intro x <;> simp <;> tauto))
  rw [← List.append_nil v.rPrevious.toList] at h2
  have h3 := Counted.dropOpt (ρ := ρ.receive k) h2 (fun k' _ => by simp [Refs.receive, hp])
    (hdrop _ fun x => by simp [NoiseRemote.link, RemoteLink.slots]; tauto)
  set l₃ := noiseKeypairDrop (noiseKeypairDrop _ _) _
  have hlink : (l₃.remotes r).link = (v.placed k b).link := by
    have : l₃.links = (l.modRemote r (·.placed k b)).links := by simp only [l₃, links_keypairDrop]
    rw [link_of_links this, modRemote_remotes, if_pos rfl]
  have h4 := h3.settle (r := r) rfl rfl
    (by
      rw [NoiseLocal.slots, hlink]
      cases b <;> simp [NoiseRemote.placed, NoiseRemote.link, RemoteLink.slots])
    (by
      rw [show (l₃.remotes r).rHandshakeState = v.rHandshakeState by
        rw [show (l₃.remotes r).rHandshakeState = (l₃.remotes r).link.state from rfl, hlink]
        cases b <;> rfl]
      exact hs)
  simpa only [Refs.setLoose, Refs.receive, ← hi, ← hl] using h4

/-- The links a new keypair makes. -/
theorem links_addNewKeypair (l : NoiseLocal) (r k : ℕ) : (noiseAddNewKeypair l r k).links
    = { l.links.modRemote r
          (if (l.keypairs k).kpIsInitiator then (·.completed k) else (·.answered k)) with
        keypairs := Function.update l.links.keypairs k
          { (l.keypairs k).link with idx := (l.remotes r).iLocalIndex } } := by
  rw [addNewKeypair_eq]
  set l₃ := noiseKeypairDrop (noiseKeypairDrop _ _) _
  have hlinks : l₃.links = (l.modRemote r (·.placed k (l.keypairs k).kpIsInitiator)).links := by
    simp only [l₃, links_keypairDrop]
  have hl : (noiseSettle l₃ r k).links =
      { l₃.links.modRemote r (fun v => { v with state := .dead }) with
        keypairs := Function.update l₃.links.keypairs k
          { l₃.links.keypairs k with idx := (l₃.links.remotes r).idx } } := by
    simp only [noiseSettle, NoiseLocal.links, NoiseLocal.modRemote, NoiseLocal.modKeypair,
      Links.modRemote, Links.mk.injEq, true_and, and_true]
    constructor <;> funext x <;> simp only [Function.update_apply] <;> split <;> rfl
  rw [hl, hlinks]
  cases hb : (l.keypairs k).kpIsInitiator with
  | false =>
    rw [links_modRemote (g := fun v => { v with next := some k, previous := none }) rfl]
    simp only [Links.modRemote, Function.update_self, Function.update_idem]
    rfl
  | true =>
    rw [links_modRemote (g := fun v => { v with
      next := none, current := some k
      previous := if v.next.isSome then v.next else v.current }) rfl]
    simp only [Links.modRemote, Function.update_self, Function.update_idem]
    rfl

theorem beginSession_eq (p : Prims) (l : NoiseLocal) (r : ℕ) (birth : ℤ) : ∃ kp : NoiseKeypair,
    kp.kpRemote = r ∧ kp.kpRefcnt = 1 ∧ kp.kpBirthdate = birth ∧ kp.kpNonceRecv = 0
      ∧ kp.kpIsInitiator = decide ((l.remotes r).rHandshakeState = .initiator)
      ∧ noiseBeginSession p l r birth
        = noiseAddNewKeypair ((noiseRemoteRef l r).pushKeypair kp) r l.nKeypairs :=
  ⟨_, rfl, rfl, rfl, rfl, rfl, rfl⟩

theorem Counted.beginSession (h : Counted l ρ) (p : Prims) {r : ℕ} (birth : ℤ) (hp : ρ.pins = 0)
    (hi : ρ.incoming = none) (hl : ρ.loose = []) (hs : (l.remotes r).rHandshakeState ≠ .dead) :
    Counted (noiseBeginSession p l r birth) ρ := by
  obtain ⟨kp, rfl, hc, -, -, -, heq⟩ := beginSession_eq p l r birth
  rw [heq]
  refine (h.pushKeypair hl hi (by rw [hp]; rfl) hc).addNewKeypair hp hi hl ?_ ?_
  · exact congrArg NoiseKeypair.kpRemote (Function.update_self ..)
  · show ((noiseRemoteRef l kp.kpRemote).remotes kp.kpRemote).rHandshakeState ≠ .dead
    rwa [noiseRemoteRef, modRemote_of_fixed NoiseRemote.rHandshakeState rfl]

theorem links_pushKeypair (l : NoiseLocal) (kp : NoiseKeypair) :
    (l.pushKeypair kp).links = l.links.pushKeypair kp.link := by
  simp only [NoiseLocal.links, NoiseLocal.pushKeypair, Links.pushKeypair, Links.mk.injEq, true_and,
    and_true]
  funext k
  simp only [Function.update_apply]
  split <;> rfl

theorem links_beginSession (p : Prims) (l : NoiseLocal) (r : ℕ) (birth : ℤ) : ∃ recv,
    (noiseBeginSession p l r birth).links
      = (l.links.modRemote r (if (l.remotes r).rHandshakeState = .initiator then
          (·.completed l.nKeypairs) else (·.answered l.nKeypairs))).pushKeypair
        ⟨r, (l.remotes r).iLocalIndex, recv, birth, 0⟩ := by
  obtain ⟨kp, hr, -, hb, h0, hi, heq⟩ := beginSession_eq p l r birth
  refine ⟨kp.kpRecv, ?_⟩
  have hpush : ((noiseRemoteRef l r).pushKeypair kp).links = l.links.pushKeypair kp.link := by
    rw [links_pushKeypair, links_remoteRef]
  have hidx : (((noiseRemoteRef l r).pushKeypair kp).remotes r).iLocalIndex
      = (l.remotes r).iLocalIndex := by
    show ((noiseRemoteRef l r).remotes r).iLocalIndex = _
    rw [noiseRemoteRef, modRemote_of_fixed NoiseRemote.iLocalIndex rfl]
  have hkp : ((noiseRemoteRef l r).pushKeypair kp).keypairs l.nKeypairs = kp :=
    Function.update_self ..
  have hn : l.links.nKeypairs = l.nKeypairs := rfl
  rw [heq, links_addNewKeypair, hpush, hidx, hkp, hi]
  simp only [Links.pushKeypair, Links.modRemote, decide_eq_true_eq, Function.update_idem,
    NoiseKeypair.link, hr, hb, h0, hn]

/-! ## Confirmation -/

theorem receivedWith_eq {k : ℕ} (h : (l.remotes (l.keypairs k).kpRemote).rNext = some k) :
    noiseKeypairReceivedWith l k = noiseKeypairDrop
      (l.modRemote (l.keypairs k).kpRemote fun v =>
        { v with rPrevious := v.rCurrent, rCurrent := some k, rNext := none })
      (l.remotes (l.keypairs k).kpRemote).rPrevious := by
  unfold noiseKeypairReceivedWith
  simp only [h, if_true]
  rw [drop_modRemote fun v => rfl, modRemote_modRemote]

/-- A keypair that packets are read with is pinned. -/
theorem Counted.receivedWith (h : Counted l ρ) (hl : ρ.loose = []) (hi : ρ.incoming = none) {k : ℕ}
    (hp : ∀ k' ≠ k, ρ.pins k' = 0) : Counted (noiseKeypairReceivedWith l k) ρ := by
  by_cases hn : (l.remotes (l.keypairs k).kpRemote).rNext = some k
  · rw [receivedWith_eq hn]
    set r := (l.keypairs k).kpRemote
    have hnodup := h.slotNodup r
    rw [hl, List.append_nil] at hnodup
    have h1 := h.reslot (r := r) (f := fun v =>
        { v with rPrevious := v.rCurrent, rCurrent := some k, rNext := none })
      (l.remotes r).rPrevious.toList rfl rfl rfl
      (by
        rw [hl, List.append_nil]
        simp only [NoiseLocal.slots, NoiseRemote.link, RemoteLink.slots, hn]
        exact .of_eq (by simp))
      (by simp [hl])
    rw [← List.append_nil (Option.toList _)] at h1
    have h2 := h1.dropOpt (fun k' hk => ?_) (by simp [hi])
    · simpa only [Refs.setLoose, ← hl] using h2
    · refine hp k' ?_
      rintro rfl
      simp only [NoiseLocal.slots, NoiseRemote.link, RemoteLink.slots, hn] at hnodup
      rw [Option.mem_def] at hk
      simp [hk] at hnodup
  · rwa [noiseKeypairReceivedWith, if_neg hn]

theorem links_receivedWith (l : NoiseLocal) (k : ℕ) : (noiseKeypairReceivedWith l k).links
    = if (l.remotes (l.keypairs k).kpRemote).rNext = some k then
        l.links.modRemote (l.keypairs k).kpRemote (·.confirmed k)
      else l.links := by
  split
  · next h =>
    rw [receivedWith_eq h, links_keypairDrop]
    exact links_modRemote rfl
  · next h => rw [noiseKeypairReceivedWith, if_neg h]

end PolarWG
