import PolarWG.Ledger

/-!
# Invariants of the ledger

What holds of a ledger whatever its steps, and what holds where the rules keep certain removals,
or answers that fail half way, out.
-/

namespace PolarWG

variable {p : Prims} {rules : LedgerRules} {L L' : Ledger}

/-! ## Updates -/

namespace Ledger

theorem remote_modRemote (L : Ledger) (r r' : ℕ) (f : RemoteLink → RemoteLink) :
    (L.modRemote r f).remote r' = if r' = r then f (L.remote r) else L.remote r' := by
  simp only [remote, modRemote, Links.modRemote, Function.update_apply]

@[simp] theorem remote_modTenant (L : Ledger) (i r : ℕ) (f : Tenant → Tenant) :
    (L.modTenant i f).remote r = L.remote r := rfl

@[simp] theorem remote_pushKeypair (L : Ledger) (r r' : ℕ) (recv : Bytes) (born : ℤ) :
    (L.pushKeypair r recv born).remote r' = L.remote r' := rfl

@[simp] theorem tenants_modRemote (L : Ledger) (r : ℕ) (f : RemoteLink → RemoteLink) :
    (L.modRemote r f).tenants = L.tenants := rfl

@[simp] theorem tenants_pushKeypair (L : Ledger) (r : ℕ) (recv : Bytes) (born : ℤ) :
    (L.pushKeypair r recv born).tenants = L.tenants := rfl

theorem tenants_modTenant (L : Ledger) (i j : ℕ) (f : Tenant → Tenant) :
    (L.modTenant i f).tenants j = if j = i then (L.tenants i).map f else L.tenants j := by
  simp only [modTenant, Function.update_apply]

@[simp] theorem owned_modTenant {i : ℕ} {f : Tenant → Tenant} (hf : ∀ t, (f t).remote = t.remote) (r : ℕ) :
    (L.modTenant i f).Owned r ↔ L.Owned r := by
  constructor
  · rintro ⟨j, t, ht, rfl⟩
    rw [tenants_modTenant] at ht
    split at ht
    · next e =>
      obtain ⟨t, h, rfl⟩ := Option.map_eq_some_iff.mp ht
      exact ⟨i, t, h, (hf t).symm⟩
    · exact ⟨j, t, ht, rfl⟩
  · rintro ⟨j, t, ht, rfl⟩
    by_cases e : j = i
    · subst e
      exact ⟨j, f t, by rw [tenants_modTenant, if_pos rfl, ht]; rfl, hf t⟩
    · exact ⟨j, t, by rw [tenants_modTenant, if_neg e, ht], rfl⟩

@[simp] theorem owned_modRemote (L : Ledger) (r r' : ℕ) (f : RemoteLink → RemoteLink) :
    (L.modRemote r f).Owned r' ↔ L.Owned r' := Iff.rfl

@[simp] theorem owned_pushKeypair (L : Ledger) (r r' : ℕ) (recv : Bytes) (born : ℤ) :
    (L.pushKeypair r recv born).Owned r' ↔ L.Owned r' := Iff.rfl

theorem remote_enlist (L : Ledger) (p : Prims) (i : ℕ) (pub : Bytes) (r : ℕ) :
    (L.enlist p i pub).remote r = if r = L.links.nRemotes then
      .fresh i pub (L.links.precomputeSs p pub) else L.remote r := by
  simp only [remote, enlist, Links.pushRemote, Function.update_apply]

theorem tenants_enlist (L : Ledger) (p : Prims) (i : ℕ) (pub : Bytes) (j : ℕ) :
    (L.enlist p i pub).tenants j = if j = i then
      some ⟨L.links.nRemotes, pub, false, 0, 0, 0, false, 0⟩ else L.tenants j := by
  simp only [enlist, Function.update_apply]

theorem remote_remove (L : Ledger) (i r r' : ℕ) : (L.remove i r).remote r'
    = if r' = r then { L.remote r with enabled := false } else L.remote r' := by
  simp only [remote, remove, Links.disable, Links.modRemote, Function.update_apply]

theorem tenants_remove (L : Ledger) (i r j : ℕ) :
    (L.remove i r).tenants j = if j = i then none else L.tenants j := by
  simp only [remove, Function.update_apply]

end Ledger

/-! ## Tenancies -/

/-- A remote is enabled while it is owned, and belongs to the slot it points at. -/
structure LedgerInv (p : Prims) (L : Ledger) : Prop where
  enabledNodup : L.links.enabled.Nodup
  enabled : ∀ r, r ∈ L.links.enabled ↔ (L.remote r).enabled
  owned : ∀ r, (L.remote r).enabled ↔ L.Owned r
  owner : ∀ i t, L.tenants i = some t → i < wgsMaxPeers ∧ t.remote < L.links.nRemotes
    ∧ (L.remote t.remote).arg = i ∧ (L.remote t.remote).pub = t.pubkey
  unborn : ∀ r, L.links.nRemotes ≤ r → (L.remote r).state = .dead ∧ (L.remote r).slots = []
  shared : ∀ r < L.links.nRemotes, (L.remote r).ss = L.links.precomputeSs p (L.remote r).pub
  unread : ∀ k, (L.keypair k).received = 0

theorem LedgerInv.owner_unique (h : LedgerInv p L) {i j : ℕ} {t u : Tenant}
    (hi : L.tenants i = some t) (hj : L.tenants j = some u) (hr : t.remote = u.remote) : i = j := by
  have h1 := (h.owner i t hi).2.2.1
  have h2 := (h.owner j u hj).2.2.1
  rw [← h1, ← h2, hr]

theorem LedgerInv.modRemote (h : LedgerInv p L) {r : ℕ} {f : RemoteLink → RemoteLink}
    (hr : r < L.links.nRemotes) (hp : ∀ v, (f v).pub = v.pub) (hs : ∀ v, (f v).ss = v.ss)
    (ha : ∀ v, (f v).arg = v.arg) (he : ∀ v, (f v).enabled = v.enabled) :
    LedgerInv p (L.modRemote r f) := by
  have hfix : ∀ {α : Type} (g : RemoteLink → α), (∀ v, g (f v) = g v) →
      ∀ r', g ((L.modRemote r f).remote r') = g (L.remote r') := fun g hg r' => by
    rw [L.remote_modRemote]
    split
    · next e => rw [hg, e]
    · rfl
  refine ⟨h.enabledNodup, fun r' => ?_, fun r' => ?_, fun i t ht => ?_, fun r' hr' => ?_,
    fun r' hr' => ?_, h.unread⟩
  · rw [hfix _ he]
    exact h.enabled r'
  · rw [hfix _ he]
    exact h.owned r'
  · rw [hfix _ ha, hfix _ hp]
    exact h.owner i t ht
  · rw [L.remote_modRemote, if_neg (by rintro rfl; exact absurd hr (Nat.not_lt.mpr hr'))]
    exact h.unborn r' hr'
  · rw [hfix _ hs, hfix _ hp]
    exact h.shared r' hr'

theorem LedgerInv.modTenant (h : LedgerInv p L) {i : ℕ} {f : Tenant → Tenant}
    (hr : ∀ t, (f t).remote = t.remote) (hp : ∀ t, (f t).pubkey = t.pubkey) :
    LedgerInv p (L.modTenant i f) := by
  refine ⟨h.enabledNodup, h.enabled, fun r => ?_, fun j t ht => ?_, h.unborn, h.shared, h.unread⟩
  · rw [Ledger.owned_modTenant hr]
    exact h.owned r
  · rw [Ledger.tenants_modTenant] at ht
    split at ht
    · next e =>
      obtain ⟨t, h', rfl⟩ := Option.map_eq_some_iff.mp ht
      rw [hr, hp, e]
      exact h.owner i t h'
    · exact h.owner j t ht

theorem LedgerInv.pushKeypair (h : LedgerInv p L) (r : ℕ) (recv : Bytes) (born : ℤ) :
    LedgerInv p (L.pushKeypair r recv born) := by
  refine ⟨h.enabledNodup, h.enabled, h.owned, h.owner, h.unborn, h.shared, fun k => ?_⟩
  simp only [Ledger.keypair, Ledger.pushKeypair, Links.pushKeypair, Function.update_apply]
  split
  · rfl
  · exact h.unread k

theorem LedgerInv.enlist (h : LedgerInv p L) {i : ℕ} (pub : Bytes) (ht : L.tenants i = none)
    (hi : i < wgsMaxPeers) : LedgerInv p (L.enlist p i pub) := by
  have hrem := L.remote_enlist p i pub
  have hten := L.tenants_enlist p i pub
  set L' := L.enlist p i pub
  have hn : L'.links.nRemotes = L.links.nRemotes + 1 := rfl
  have hen : L'.links.enabled = L.links.nRemotes :: L.links.enabled := rfl
  have hlt : ∀ r, L.Owned r → r < L.links.nRemotes := by
    rintro r ⟨j, t, ht, rfl⟩
    exact (h.owner j t ht).2.1
  have hout : L.links.nRemotes ∉ L.links.enabled := fun hm =>
    (hlt _ ((h.owned _).mp ((h.enabled _).mp hm))).false
  refine ⟨?_, fun r => ?_, fun r => ?_, fun j t hj => ?_, fun r hr => ?_, fun r hr => ?_, h.unread⟩
  · rw [hen]
    exact List.nodup_cons.mpr ⟨hout, h.enabledNodup⟩
  · rw [hen, List.mem_cons, hrem, h.enabled]
    split
    · next e => simp [e, RemoteLink.fresh]
    · next e => simp [e]
  · rw [hrem]
    split
    · next e =>
      simp only [RemoteLink.fresh, true_iff]
      exact ⟨i, _, by rw [hten, if_pos rfl], e.symm⟩
    · next e =>
      rw [h.owned]
      constructor
      · rintro ⟨j, t, hj, rfl⟩
        refine ⟨j, t, ?_, rfl⟩
        rw [hten, if_neg (by rintro rfl; simp [ht] at hj), hj]
      · rintro ⟨j, t, hj, rfl⟩
        rw [hten] at hj
        split at hj
        · simp only [Option.some.injEq] at hj
          exact absurd (hj ▸ rfl) e
        · exact ⟨j, t, hj, rfl⟩
  · rw [hten] at hj
    rw [hn, hrem]
    split at hj
    · next e =>
      simp only [Option.some.injEq] at hj
      subst hj
      simp only [if_true, RemoteLink.fresh]
      exact ⟨e ▸ hi, Nat.lt_succ_self _, e.symm, trivial⟩
    · obtain ⟨h1, h2, h3, h4⟩ := h.owner j t hj
      rw [if_neg h2.ne]
      exact ⟨h1, h2.trans (Nat.lt_succ_self _), h3, h4⟩
  · rw [hn] at hr
    rw [hrem, if_neg (by omega)]
    exact h.unborn r (by omega)
  · rw [hn] at hr
    show _ = L.links.precomputeSs p _
    rw [hrem]
    split
    · rfl
    · exact h.shared r (by omega)

theorem LedgerInv.remove (h : LedgerInv p L) {i : ℕ} {t : Tenant} (ht : L.tenants i = some t) :
    LedgerInv p (L.remove i t.remote) := by
  have hrem := L.remote_remove i t.remote
  have hten := L.tenants_remove i t.remote
  set L' := L.remove i t.remote
  have hen : L'.links.enabled = L.links.enabled.erase t.remote := rfl
  refine ⟨?_, fun r => ?_, fun r => ?_, fun j u hj => ?_, fun r hr => ?_, fun r hr => ?_, h.unread⟩
  · rw [hen]
    exact h.enabledNodup.erase _
  · rw [hen, h.enabledNodup.mem_erase_iff, hrem, h.enabled]
    split
    · next e => simp [e]
    · next e => simp [e]
  · rw [hrem]
    split
    · next e =>
      simp only [Bool.false_eq_true, false_iff]
      rintro ⟨j, u, hj, hu⟩
      rw [hten] at hj
      split at hj
      · cases hj
      · next hne => exact hne (h.owner_unique hj ht (hu.trans e))
    · next e =>
      rw [h.owned]
      constructor
      · rintro ⟨j, u, hj, rfl⟩
        refine ⟨j, u, ?_, rfl⟩
        rw [hten, if_neg, hj]
        rintro rfl
        rw [hj, Option.some.injEq] at ht
        exact e (ht ▸ rfl)
      · rintro ⟨j, u, hj, rfl⟩
        rw [hten] at hj
        split at hj
        · cases hj
        · exact ⟨j, u, hj, rfl⟩
  · rw [hten] at hj
    split at hj
    · cases hj
    · obtain ⟨h1, h2, h3, h4⟩ := h.owner j u hj
      rw [hrem]
      split
      · next e => exact ⟨h1, h2, e ▸ h3, e ▸ h4⟩
      · exact ⟨h1, h2, h3, h4⟩
  · have := h.unborn r hr
    rw [hrem]
    split
    · next e => exact e ▸ this
    · exact this
  · have := h.shared r hr
    show _ = L.links.precomputeSs p _
    rw [hrem]
    split
    · next e => exact e ▸ this
    · exact this

theorem LedgerInv.step (h : LedgerInv p L) (hs : LedgerStep p rules L L') : LedgerInv p L' := by
  have born : ∀ r, (L.remote r).state = .initiator → r < L.links.nRemotes := fun r hr => by
    by_contra hlt
    simp [(h.unborn r (by omega)).1] at hr
  cases hs with
  | dial idx sent ht =>
    have := h.modRemote (h.owner _ _ ht).2.1
      (f := fun v => { v with state := .initiator, idx, lastSent := sent })
      (fun _ => rfl) (fun _ => rfl) (fun _ => rfl) (fun _ => rfl)
    exact this.modTenant (fun _ => rfl) (fun _ => rfl)
  | stall idx ht hr =>
    exact h.modRemote (h.owner _ _ ht).2.1 (fun _ => rfl) (fun _ => rfl) (fun _ => rfl) (fun _ => rfl)
  | answer idx sent recv born' birth len ht hc =>
    have := h.modRemote (h.owner _ _ ht).2.1
      (f := fun v => ({ v with idx, lastSent := sent } : RemoteLink).answered L.links.nKeypairs)
      (fun _ => rfl) (fun _ => rfl) (fun _ => rfl) (fun _ => rfl)
    exact (this.pushKeypair _ _ _).modTenant (fun _ => rfl) (fun _ => rfl)
  | complete recv born' birth ht hp hs hc =>
    have := h.modRemote (h.owner _ _ ht).2.1 (f := (·.completed L.links.nKeypairs))
      (fun _ => rfl) (fun _ => rfl) (fun _ => rfl) (fun _ => rfl)
    exact (this.pushKeypair _ _ _).modTenant (fun _ => rfl) (fun _ => rfl)
  | mismatch recv born' ht hp hi hs hr hl hu =>
    have := h.modRemote (born _ hs) (f := (·.completed L.links.nKeypairs))
      (fun _ => rfl) (fun _ => rfl) (fun _ => rfl) (fun _ => rfl)
    exact this.pushKeypair _ _ _
  | @confirm r k hk =>
    refine h.modRemote ?_ (fun _ => rfl) (fun _ => rfl) (fun _ => rfl) (fun _ => rfl)
    by_contra hlt
    have := (h.unborn r (by omega)).2
    simp [RemoteLink.slots, show (L.remote r).next = some k from hk] at this
  | roam len hk hl => exact h.modTenant (fun _ => rfl) (fun _ => rfl)
  | giveUp ht ha hr => exact h.modTenant (fun _ => rfl) (fun _ => rfl)
  | restart ht hp hb => exact h.modTenant (fun _ => rfl) (fun _ => rfl)
  | enlist pub ht hi hr => exact h.enlist pub ht hi
  | setEndpoint len ht hr => exact h.modTenant (fun _ => rfl) (fun _ => rfl)
  | remove ht hr => exact h.remove ht

/-! ## Pending handshakes -/

/-- A pending tenant's remote is in its own handshake, under the index the tenant remembers. -/
def PendingInv (L : Ledger) : Prop := ∀ i t, L.tenants i = some t → t.pending →
  (L.remote t.remote).state = .initiator ∧ (L.remote t.remote).idx = t.hsIdx

/-- Only one tenant and its remote change, together. -/
theorem PendingInv.atTenant (h : PendingInv L) (hi : LedgerInv p L) {i : ℕ} {t : Tenant}
    {f : Tenant → Tenant} (ht : L.tenants i = some t)
    (hr : ∀ r, r ≠ t.remote → L'.remote r = L.remote r)
    (hn : ∀ j, L'.tenants j = (L.modTenant i f).tenants j) (hf : (f t).remote = t.remote)
    (hp : (f t).pending → (L'.remote t.remote).state = .initiator
      ∧ (L'.remote t.remote).idx = (f t).hsIdx) : PendingInv L' := by
  intro j w hj hw
  rw [hn, Ledger.tenants_modTenant, ht, Option.map_some] at hj
  split at hj
  · simp only [Option.some.injEq] at hj
    subst hj
    rw [hf]
    exact hp hw
  · next hne =>
    rw [hr _ fun e => hne (hi.owner_unique hj ht e)]
    exact h j w hj hw

theorem PendingInv.modTenant (h : PendingInv L) {i : ℕ} {f : Tenant → Tenant}
    (hr : ∀ t, (f t).remote = t.remote) (hi : ∀ t, (f t).hsIdx = t.hsIdx)
    (hp : ∀ t, (f t).pending → t.pending) : PendingInv (L.modTenant i f) := by
  intro j w hj hw
  rw [Ledger.tenants_modTenant] at hj
  split at hj
  · obtain ⟨t, ht, rfl⟩ := Option.map_eq_some_iff.mp hj
    rw [hr, hi]
    exact h i t ht (hp t hw)
  · exact h j w hj hw

theorem PendingInv.step (h : PendingInv L) (hi : LedgerInv p L) (hstall : ¬ rules.stall)
    (hs : LedgerStep p rules L L') : PendingInv L' := by
  cases hs with
  | dial idx sent ht =>
    refine h.atTenant hi ht (fun r hne => ?_) (fun _ => rfl) rfl fun _ => ?_
    · rw [Ledger.remote_modTenant, L.remote_modRemote, if_neg hne]
    · rw [Ledger.remote_modTenant, L.remote_modRemote, if_pos rfl]
      exact ⟨rfl, rfl⟩
  | stall idx ht hr => exact absurd hr hstall
  | answer idx sent recv born birth len ht hc =>
    refine h.atTenant hi ht (fun r hne => ?_) (fun _ => rfl) rfl fun hp => by simp at hp
    rw [Ledger.remote_modTenant, Ledger.remote_pushKeypair, L.remote_modRemote, if_neg hne]
  | complete recv born birth ht hp hs hc =>
    refine h.atTenant hi ht (fun r hne => ?_) (fun _ => rfl) rfl fun hp => by simp at hp
    rw [Ledger.remote_modTenant, Ledger.remote_pushKeypair, L.remote_modRemote, if_neg hne]
  | @mismatch i r t recv born ht hp hidx hs hr hl hu =>
    -- the slot's own remote is linked under the index as well
    obtain ⟨h1, h2⟩ := h i t ht hp
    exact absurd (hu t.remote (by simp [h1]) h2).symm hr
  | @confirm r k hk =>
    intro j w hj hw
    rw [L.remote_modRemote]
    have := h j w hj hw
    split
    · next e => exact e ▸ this
    · exact this
  | roam len hk hl => exact h.modTenant (fun _ => rfl) (fun _ => rfl) fun _ h => h
  | giveUp ht ha hr => exact h.modTenant (fun _ => rfl) (fun _ => rfl) fun _ h => by simp at h
  | restart ht hp hb => exact h.modTenant (fun _ => rfl) (fun _ => rfl) fun _ h => h
  | @enlist i pub ht hlt hr =>
    intro j w hj hw
    rw [L.tenants_enlist] at hj
    split at hj
    · simp only [Option.some.injEq] at hj
      subst hj
      simp at hw
    · rw [L.remote_enlist, if_neg (hi.owner j w hj).2.1.ne]
      exact h j w hj hw
  | setEndpoint len ht hr => exact h.modTenant (fun _ => rfl) (fun _ => rfl) fun _ h => h
  | @remove i t ht hr =>
    intro j w hj hw
    rw [L.tenants_remove] at hj
    split at hj
    · cases hj
    · rw [L.remote_remove]
      have := h j w hj hw
      split
      · next e => exact e ▸ this
      · exact this

/-! ## What a step can do -/

theorem owned_of_tenant {i : ℕ} {t : Tenant} (ht : L.tenants i = some t) : L.Owned t.remote :=
  ⟨i, t, ht, rfl⟩

/-- A step that changes the places of one remote, which is owned or had keypairs. -/
theorem slots_modRemote {r r' : ℕ} {f : RemoteLink → RemoteLink}
    (hr : (L.remote r).slots ≠ [] ∨ L.Owned r) (h : ((L.modRemote r f).remote r').slots ≠ []) :
    (L.remote r').slots ≠ [] ∨ L.Owned r' := by
  rw [L.remote_modRemote] at h
  split at h
  · next e => exact e ▸ hr
  · exact .inl h

/-- Only an owned remote, or one that has keypairs, gets another. -/
theorem LedgerStep.slots (hs : LedgerStep p rules L L') {r : ℕ} (h : (L'.remote r).slots ≠ []) :
    (L.remote r).slots ≠ [] ∨ L.Owned r := by
  cases hs with
  | dial idx sent ht =>
    rw [Ledger.remote_modTenant] at h
    exact slots_modRemote (.inr (owned_of_tenant ht)) h
  | stall idx ht hr => exact slots_modRemote (.inr (owned_of_tenant ht)) h
  | answer idx sent recv born birth len ht hc =>
    rw [Ledger.remote_modTenant, Ledger.remote_pushKeypair] at h
    exact slots_modRemote (.inr (owned_of_tenant ht)) h
  | complete recv born birth ht hp hs hc =>
    rw [Ledger.remote_modTenant, Ledger.remote_pushKeypair] at h
    exact slots_modRemote (.inr (owned_of_tenant ht)) h
  | mismatch recv born ht hp hidx hs hr hl hu =>
    rw [Ledger.remote_pushKeypair] at h
    exact slots_modRemote hl.symm h
  | confirm hk => exact slots_modRemote (.inl (by simp [RemoteLink.slots, hk])) h
  | enlist pub ht hlt hr =>
    rw [L.remote_enlist] at h
    split at h
    · exact absurd rfl h
    · exact .inl h
  | remove ht hr =>
    rw [L.remote_remove] at h
    split at h
    · next e => exact .inl (e ▸ h)
    · exact .inl h
  | _ => exact .inl h

theorem arg_modRemote {r r' : ℕ} {f : RemoteLink → RemoteLink} (hf : ∀ v, (f v).arg = v.arg) :
    ((L.modRemote r f).remote r').arg = (L.remote r').arg := by
  rw [L.remote_modRemote]
  split
  · next e => rw [hf, e]
  · rfl

/-- A remote points at the same slot for good. -/
theorem LedgerStep.arg (hs : LedgerStep p rules L L') {r : ℕ} (h : r < L.links.nRemotes) :
    (L'.remote r).arg = (L.remote r).arg := by
  cases hs with
  | dial idx sent ht =>
    rw [Ledger.remote_modTenant]
    exact arg_modRemote fun _ => rfl
  | stall idx ht hr => exact arg_modRemote fun _ => rfl
  | answer idx sent recv born birth len ht hc =>
    rw [Ledger.remote_modTenant, Ledger.remote_pushKeypair]
    exact arg_modRemote fun _ => rfl
  | complete recv born birth ht hp hs hc =>
    rw [Ledger.remote_modTenant, Ledger.remote_pushKeypair]
    exact arg_modRemote fun _ => rfl
  | mismatch recv born ht hp hidx hs hr hl hu =>
    rw [Ledger.remote_pushKeypair]
    exact arg_modRemote fun _ => rfl
  | confirm hk => exact arg_modRemote fun _ => rfl
  | enlist pub ht hlt hr => rw [L.remote_enlist, if_neg h.ne]
  | remove ht hr =>
    rw [L.remote_remove]
    split
    · next e => rw [e]
    · rfl
  | _ => rfl

/-- A tenant keeps its remote. -/
theorem tenant_modTenant {i j : ℕ} {f : Tenant → Tenant} {u : Tenant}
    (hu : (L.modTenant i f).tenants j = some u) (hf : ∀ t, (f t).remote = t.remote) :
    ∃ t, L.tenants j = some t ∧ t.remote = u.remote := by
  rw [Ledger.tenants_modTenant] at hu
  split at hu
  · next e =>
    obtain ⟨t, ht, rfl⟩ := Option.map_eq_some_iff.mp hu
    exact ⟨t, e ▸ ht, (hf t).symm⟩
  · exact ⟨u, hu, rfl⟩

/-- A tenant was there before, with its remote, or is new. -/
theorem LedgerStep.tenant (hs : LedgerStep p rules L L') {j : ℕ} {u : Tenant}
    (hu : L'.tenants j = some u) : (∃ t, L.tenants j = some t ∧ t.remote = u.remote)
      ∨ (L.tenants j = none ∧ rules.addition L j ∧ u.remote = L.links.nRemotes) := by
  cases hs with
  | dial idx sent ht => exact .inl (tenant_modTenant hu fun _ => rfl)
  | answer idx sent recv born birth len ht hc => exact .inl (tenant_modTenant hu fun _ => rfl)
  | complete recv born birth ht hp hs hc => exact .inl (tenant_modTenant hu fun _ => rfl)
  | roam len hk hl => exact .inl (tenant_modTenant hu fun _ => rfl)
  | giveUp ht ha hr => exact .inl (tenant_modTenant hu fun _ => rfl)
  | restart ht hp hb => exact .inl (tenant_modTenant hu fun _ => rfl)
  | setEndpoint len ht hr => exact .inl (tenant_modTenant hu fun _ => rfl)
  | enlist pub ht hlt hr =>
    rw [L.tenants_enlist] at hu
    split at hu
    · next e =>
      rw [← Option.some.inj hu, e]
      exact .inr ⟨ht, hr, rfl⟩
    · exact .inl ⟨u, hu, rfl⟩
  | remove ht hr =>
    rw [L.tenants_remove] at hu
    split at hu
    · cases hu
    · exact .inl ⟨u, hu, rfl⟩
  | _ => exact .inl ⟨u, hu, rfl⟩

/-- A remote stays owned until its slot is emptied. -/
theorem LedgerStep.owned (hs : LedgerStep p rules L L') {r : ℕ} (h : L.Owned r) : L'.Owned r
    ∨ ∃ i t, L.tenants i = some t ∧ t.remote = r ∧ rules.removal L i ∧ L' = L.remove i r := by
  cases hs with
  | @enlist i pub ht hlt hr =>
    obtain ⟨j, t, hj, rfl⟩ := h
    refine .inl ⟨j, t, ?_, rfl⟩
    rw [L.tenants_enlist, if_neg (by rintro rfl; simp [ht] at hj), hj]
  | @remove i t ht hr =>
    by_cases e : r = t.remote
    · subst e
      exact .inr ⟨i, t, ht, rfl, hr, rfl⟩
    · obtain ⟨j, u, hj, rfl⟩ := h
      refine .inl ⟨j, u, ?_, rfl⟩
      rw [L.tenants_remove, if_neg, hj]
      rintro rfl
      rw [hj, Option.some.injEq] at ht
      exact e (ht ▸ rfl)
  | _ => exact .inl (by simpa using h)

/-- A keypair stays as it was made. -/
theorem LedgerStep.keypair (hs : LedgerStep p rules L L') {k : ℕ} (h : k < L.links.nKeypairs) :
    L'.keypair k = L.keypair k ∧ k < L'.links.nKeypairs := by
  have push : ∀ (L₁ : Ledger) (r : ℕ) (recv : Bytes) (born : ℤ), k < L₁.links.nKeypairs →
      (L₁.pushKeypair r recv born).keypair k = L₁.keypair k
        ∧ k < (L₁.pushKeypair r recv born).links.nKeypairs := fun L₁ r recv born hk =>
    ⟨Function.update_of_ne hk.ne _ _, hk.trans (Nat.lt_succ_self _)⟩
  cases hs with
  | answer idx sent recv born birth len ht hc => exact push (L.modRemote _ _) _ recv born h
  | complete recv born birth ht hp hs hc => exact push (L.modRemote _ _) _ recv born h
  | mismatch recv born ht hp hidx hs hr hl hu => exact push (L.modRemote _ _) _ recv born h
  | _ => exact ⟨rfl, h⟩

/-! ## Keypairs of removed peers -/

/-- Every remote with a keypair is some slot's. -/
def TenantedInv (L : Ledger) : Prop := ∀ r, (L.remote r).slots ≠ [] → L.Owned r

theorem TenantedInv.remove (h : TenantedInv L) {i : ℕ} {t : Tenant} (ht : L.tenants i = some t)
    (hno : (L.remote t.remote).slots = []) : TenantedInv (L.remove i t.remote) := by
  intro r hslots
  have hne : r ≠ t.remote := by
    rintro rfl
    rw [L.remote_remove, if_pos rfl] at hslots
    exact hslots hno
  rw [L.remote_remove, if_neg hne] at hslots
  obtain ⟨j, u, hj, rfl⟩ := h r hslots
  refine ⟨j, u, ?_, rfl⟩
  rw [L.tenants_remove, if_neg, hj]
  rintro rfl
  rw [hj, Option.some.injEq] at ht
  exact hne (ht ▸ rfl)

theorem TenantedInv.step (h : TenantedInv L) (hs : LedgerStep p rules L L')
    (hrule : ∀ i t, rules.removal L i → L.tenants i = some t → (L.remote t.remote).slots = []) :
    TenantedInv L' := by
  intro r hr
  rcases hs.owned ((hs.slots hr).elim (h r) id) with hown | ⟨i, t, ht, rfl, hrem, rfl⟩
  · exact hown
  · exact h.remove ht (hrule i t hrem ht) _ hr

/-! ## Slots given to new peers -/

/-- The slot a remote with a keypair points at is no other remote's. -/
def SoleInv (L : Ledger) : Prop := ∀ r, (L.remote r).slots ≠ [] →
  ∀ t, L.tenants (L.remote r).arg = some t → t.remote = r

theorem SoleInv.step (h : SoleInv L) (hi : LedgerInv p L) (hs : LedgerStep p rules L L')
    (hrule : ∀ i, rules.addition L i → ∀ r, (L.remote r).arg = i → (L.remote r).slots = []) :
    SoleInv L' := by
  intro r hr u hu
  have hold := hs.slots hr
  have hlt : r < L.links.nRemotes := by
    by_contra hge
    rcases hold with hslots | ⟨i, t, ht, rfl⟩
    · exact hslots (hi.unborn r (by omega)).2
    · exact hge (hi.owner i t ht).2.1
  rw [hs.arg hlt] at hu
  rcases hs.tenant hu with ⟨t, ht, hru⟩ | ⟨hnone, hadd, -⟩
  · rw [← hru]
    rcases hold with hslots | ⟨j, w, hj, rfl⟩
    · exact h r hslots t ht
    · rw [(hi.owner j w hj).2.2.1, hj] at ht
      rw [Option.some.inj ht]
  · rcases hold with hslots | ⟨j, w, hj, rfl⟩
    · exact absurd (hrule _ hadd r rfl) hslots
    · rw [(hi.owner j w hj).2.2.1, hj] at hnone
      cases hnone

/-! ## Handshakes of removed peers -/

/-- Every remote with a handshake is some slot's or has a keypair. -/
def HandshakeInv (L : Ledger) : Prop :=
  ∀ r, (L.remote r).state ≠ .dead → L.Owned r ∨ (L.remote r).slots ≠ []

theorem HandshakeInv.mono (h : HandshakeInv L) (ho : ∀ r, L.Owned r → L'.Owned r)
    (hs : ∀ r, (L.remote r).slots ≠ [] → (L'.remote r).slots ≠ [])
    (hd : ∀ r, (L'.remote r).state ≠ .dead → (L.remote r).state ≠ .dead ∨ L.Owned r) :
    HandshakeInv L' := fun r hr => by
  rcases hd r hr with hd | hd
  · exact (h r hd).imp (ho r) (hs r)
  · exact .inl (ho r hd)

theorem state_modRemote {r r' : ℕ} {f : RemoteLink → RemoteLink}
    (hr : (f (L.remote r)).state ≠ .dead → (L.remote r).state ≠ .dead ∨ L.Owned r)
    (h : ((L.modRemote r f).remote r').state ≠ .dead) :
    (L.remote r').state ≠ .dead ∨ L.Owned r' := by
  rw [L.remote_modRemote] at h
  split at h
  · next e => exact e ▸ hr h
  · exact .inl h

theorem slots_modRemote_mono {r r' : ℕ} {f : RemoteLink → RemoteLink}
    (hr : (L.remote r).slots ≠ [] → (f (L.remote r)).slots ≠ []) (h : (L.remote r').slots ≠ []) :
    ((L.modRemote r f).remote r').slots ≠ [] := by
  rw [L.remote_modRemote]
  split
  · next e => exact hr (e ▸ h)
  · exact h

theorem HandshakeInv.remove (h : HandshakeInv L) {i : ℕ} {t : Tenant}
    (ht : L.tenants i = some t)
    (hkept : (L.remote t.remote).state = .dead ∨ (L.remote t.remote).slots ≠ []) :
    HandshakeInv (L.remove i t.remote) := by
  intro r hd
  by_cases e : r = t.remote
  · subst e
    rw [L.remote_remove, if_pos rfl] at hd ⊢
    exact .inr (hkept.resolve_left hd)
  · rw [L.remote_remove, if_neg e] at hd ⊢
    refine (h r hd).imp_left ?_
    rintro ⟨j, u, hj, rfl⟩
    refine ⟨j, u, ?_, rfl⟩
    rw [L.tenants_remove, if_neg, hj]
    rintro rfl
    rw [hj, Option.some.injEq] at ht
    exact e (ht ▸ rfl)

theorem HandshakeInv.step (h : HandshakeInv L) (hi : LedgerInv p L) (hs : LedgerStep p rules L L')
    (hrule : ∀ i t, rules.removal L i → L.tenants i = some t →
      (L.remote t.remote).state = .dead ∨ (L.remote t.remote).slots ≠ []) : HandshakeInv L' := by
  cases hs with
  | dial idx sent ht =>
    refine h.mono (by simp) (fun r hr => ?_) fun r hd => ?_
    · rw [Ledger.remote_modTenant]
      exact slots_modRemote_mono (fun h => h) hr
    · rw [Ledger.remote_modTenant] at hd
      exact state_modRemote (fun _ => .inr (owned_of_tenant ht)) hd
  | stall idx ht hr =>
    exact h.mono (fun r => id) (fun r => slots_modRemote_mono fun h => h)
      fun r => state_modRemote fun _ => .inr (owned_of_tenant ht)
  | answer idx sent recv born birth len ht hc =>
    refine h.mono (by simp) (fun r hr => ?_) fun r hd => ?_
    · rw [Ledger.remote_modTenant, Ledger.remote_pushKeypair]
      exact slots_modRemote_mono (by simp [RemoteLink.answered, RemoteLink.slots]) hr
    · rw [Ledger.remote_modTenant, Ledger.remote_pushKeypair] at hd
      exact state_modRemote (fun _ => .inr (owned_of_tenant ht)) hd
  | complete recv born birth ht hp hs hc =>
    refine h.mono (by simp) (fun r hr => ?_) fun r hd => ?_
    · rw [Ledger.remote_modTenant, Ledger.remote_pushKeypair]
      exact slots_modRemote_mono (by simp [RemoteLink.completed, RemoteLink.slots]) hr
    · rw [Ledger.remote_modTenant, Ledger.remote_pushKeypair] at hd
      exact state_modRemote (fun _ => .inr (owned_of_tenant ht)) hd
  | mismatch recv born ht hp hidx hs hr hl hu =>
    exact h.mono (fun r => id)
      (fun r => slots_modRemote_mono fun _ => by simp [RemoteLink.completed, RemoteLink.slots])
      fun r => state_modRemote fun hd => absurd rfl hd
  | confirm hk =>
    exact h.mono (fun r => id)
      (fun r => slots_modRemote_mono fun _ => by simp [RemoteLink.confirmed, RemoteLink.slots])
      fun r => state_modRemote .inl
  | roam len hk hl =>
    exact h.mono (by simp) (fun r => id) fun r => .inl
  | giveUp ht ha hr =>
    exact h.mono (by simp) (fun r => id) fun r => .inl
  | restart ht hp hb =>
    exact h.mono (by simp) (fun r => id) fun r => .inl
  | @enlist i pub ht hlt hr =>
    refine h.mono ?_ (fun r hr => ?_) fun r hd => ?_
    · rintro r ⟨j, t, hj, rfl⟩
      refine ⟨j, t, ?_, rfl⟩
      rw [L.tenants_enlist, if_neg (by rintro rfl; simp [ht] at hj), hj]
    · rw [L.remote_enlist, if_neg]
      · exact hr
      · rintro rfl
        exact hr (hi.unborn _ le_rfl).2
    · rw [L.remote_enlist] at hd
      split at hd
      · exact absurd rfl hd
      · exact .inl hd
  | setEndpoint len ht hr =>
    exact h.mono (by simp) (fun r => id) fun r => .inl
  | @remove i t ht hr => exact h.remove ht (hrule i t hr ht)

end PolarWG
