import PolarWG.Proofs.Frame
import PolarWG.Proofs.Restore

/-!
# Requests as edits of the slots

What the lines of a request do to the peers, apart from remotes and tries: a line selects a peer,
which may be a new one in a slot not in use, empties the selected slot or edits its
configuration. What becomes of a peer that is not removed is its record under the edits the lines
make of it, and edits that replace the allowed list before they add to it make the same of their
own result.
-/

namespace PolarWG

/-! ## Edits made twice -/

section Settles

variable {α ε : Type*} {f : α → α} {step : α → ε → α}

/-- Leaves every value as it is, or makes the same of all. -/
def Settles (f : α → α) : Prop := (∀ a, f a = a) ∨ ∀ a b, f a = f b

theorem Settles.twice (h : Settles f) (a : α) : f (f a) = f a := by
  rcases h with h | h
  · rw [h]
  · exact h _ _

theorem Settles.foldl : ∀ {es : List ε}, (∀ e ∈ es, Settles fun a => step a e) →
    Settles fun a => es.foldl step a
  | [], _ => .inl fun _ => rfl
  | e :: es, h => by
    have hes := Settles.foldl fun e' he => h e' (List.mem_cons_of_mem e he)
    rcases h e List.mem_cons_self with he | he
    · simpa only [List.foldl_cons, he] using hes
    · exact .inr fun a b => congrArg (es.foldl step) (he a b)

end Settles

/-- What a line makes of the selected peer. -/
inductive PeerEdit where
  | psk (key : Bytes)
  | endpoint (host : Text) (port : ℕ) (addr : Sockaddr) (len : ℕ)
  | interval (n : ℤ)
  | clear
  | allow (c : WgsAllowedCidr)

def PeerEdit.psks (v : Bytes × Bool) : PeerEdit → Bytes × Bool
  | .psk key => (key, ¬ key.all (· = 0))
  | _ => v

def PeerEdit.endpoints (v : Sockaddr × ℕ × Bool × Text × ℕ) :
    PeerEdit → Sockaddr × ℕ × Bool × Text × ℕ
  | .endpoint host port addr len => (addr, len, true, host, port)
  | _ => v

def PeerEdit.intervals (v : ℤ) : PeerEdit → ℤ
  | .interval n => n
  | _ => v

def PeerEdit.lists (v : List WgsAllowedCidr) : PeerEdit → List WgsAllowedCidr
  | .clear => []
  | .allow c => v ++ [c]
  | _ => v

def WgsPeer.edit (peer : WgsPeer) : PeerEdit → WgsPeer
  | .psk key => { peer with psk := key, hasPsk := ¬ key.all (· = 0) }
  | .endpoint host port addr len => { peer with
      endpoint := addr, endpointLen := len, hasEndpoint := true
      endpointHost := host, endpointPort := port }
  | .interval n => { peer with pkSec := n }
  | .clear => { peer with allowed := [] }
  | .allow c => { peer with allowed := peer.allowed ++ [c] }

/-- The list is emptied before anything is added to it. -/
def Replaced : List PeerEdit → Prop
  | [] => True
  | .clear :: _ => True
  | .allow _ :: _ => False
  | _ :: es => Replaced es

instance Replaced.decidable : DecidablePred Replaced
  | [] => .isTrue trivial
  | .clear :: _ => .isTrue trivial
  | .allow _ :: _ => .isFalse id
  | .psk _ :: es => Replaced.decidable es
  | .endpoint _ _ _ _ :: es => Replaced.decidable es
  | .interval _ :: es => Replaced.decidable es

theorem Replaced.settles : ∀ (es : List PeerEdit), Replaced es →
    Settles fun v => es.foldl PeerEdit.lists v
  | [], _ => .inl fun _ => rfl
  | .clear :: _, _ => .inr fun _ _ => rfl
  | .psk _ :: es, h => Replaced.settles es h
  | .endpoint _ _ _ _ :: es, h => Replaced.settles es h
  | .interval _ :: es, h => Replaced.settles es h

theorem edits_eq (es : List PeerEdit) (peer : WgsPeer) : es.foldl .edit peer = { peer with
    psk := (es.foldl PeerEdit.psks (peer.psk, peer.hasPsk)).1
    hasPsk := (es.foldl PeerEdit.psks (peer.psk, peer.hasPsk)).2
    endpoint := (es.foldl PeerEdit.endpoints (peer.endpoint, peer.endpointLen, peer.hasEndpoint,
      peer.endpointHost, peer.endpointPort)).1
    endpointLen := (es.foldl PeerEdit.endpoints (peer.endpoint, peer.endpointLen,
      peer.hasEndpoint, peer.endpointHost, peer.endpointPort)).2.1
    hasEndpoint := (es.foldl PeerEdit.endpoints (peer.endpoint, peer.endpointLen,
      peer.hasEndpoint, peer.endpointHost, peer.endpointPort)).2.2.1
    endpointHost := (es.foldl PeerEdit.endpoints (peer.endpoint, peer.endpointLen,
      peer.hasEndpoint, peer.endpointHost, peer.endpointPort)).2.2.2.1
    endpointPort := (es.foldl PeerEdit.endpoints (peer.endpoint, peer.endpointLen,
      peer.hasEndpoint, peer.endpointHost, peer.endpointPort)).2.2.2.2
    pkSec := es.foldl PeerEdit.intervals peer.pkSec
    allowed := es.foldl PeerEdit.lists peer.allowed } := by
  induction es generalizing peer with
  | nil => rfl
  | cons e es ih =>
    rw [List.foldl_cons, ih]
    cases e <;> rfl

theorem edits_twice {es : List PeerEdit} (h : Replaced es) (peer : WgsPeer) :
    es.foldl .edit (es.foldl .edit peer) = es.foldl .edit peer := by
  have hpsk : Settles fun v => es.foldl PeerEdit.psks v := .foldl fun e _ => by
    cases e
    case psk => exact .inr fun _ _ => rfl
    all_goals exact .inl fun _ => rfl
  have hend : Settles fun v => es.foldl PeerEdit.endpoints v := .foldl fun e _ => by
    cases e
    case endpoint => exact .inr fun _ _ => rfl
    all_goals exact .inl fun _ => rfl
  have hint : Settles fun v => es.foldl PeerEdit.intervals v := .foldl fun e _ => by
    cases e
    case interval => exact .inr fun _ _ => rfl
    all_goals exact .inl fun _ => rfl
  rw [edits_eq es (es.foldl .edit peer), edits_eq es peer]
  simp only [Prod.mk.eta, hpsk.twice (peer.psk, peer.hasPsk), hint.twice peer.pkSec,
    (Replaced.settles es h).twice peer.allowed, hend.twice (peer.endpoint, peer.endpointLen, peer.hasEndpoint,
      peer.endpointHost, peer.endpointPort)]

@[simp] theorem edit_active (peer : WgsPeer) (e : PeerEdit) :
    (peer.edit e).active = peer.active := by
  cases e <;> rfl

@[simp] theorem edit_pubkey (peer : WgsPeer) (e : PeerEdit) :
    (peer.edit e).pubkey = peer.pubkey := by
  cases e <;> rfl

theorem edits_same (es : List PeerEdit) (peer : WgsPeer) :
    (es.foldl .edit peer).active = peer.active ∧ (es.foldl .edit peer).pubkey = peer.pubkey := by
  rw [edits_eq]
  exact ⟨rfl, rfl⟩

/-- Lists edited alike do not come to differ more, and one that is replaced first needs no
other. -/
theorem edits_shorter : ∀ (es : List PeerEdit) {es' : List PeerEdit} {peer peer' : WgsPeer},
    Replaced (es ++ es') ∨ peer'.allowed.length ≤ peer.allowed.length →
    Replaced es' ∨ (es.foldl .edit peer').allowed.length ≤ (es.foldl .edit peer).allowed.length
  | [], _, _, _, h => h
  | e :: es, es', peer, peer', h => by
    refine edits_shorter es ?_
    cases e with
    | clear => exact .inr le_rfl
    | allow c =>
      refine .inr ?_
      rcases h with h | h
      · exact h.elim
      · simpa [WgsPeer.edit] using h
    | psk => exact h
    | endpoint => exact h
    | interval => exact h

/-! ## Lines -/

/-- What a line asks for. One that is malformed fails when a peer is selected. -/
inductive Request where
  | select (key : Bytes)
  | remove
  | edit (e : PeerEdit)
  | other
  | malformed

namespace Request

def named : Request → List Bytes
  | .select key => [key]
  | _ => []

/-- The key of the peer that is selected after it. -/
def after (cur : Option Bytes) : Request → Option Bytes
  | .select key => some key
  | .remove => none
  | _ => cur

def removed (cur : Option Bytes) : Request → List Bytes
  | .remove => cur.toList
  | _ => []

def editsOf (key : Bytes) (cur : Option Bytes) : Request → List PeerEdit
  | .edit e => if cur = some key then [e] else []
  | _ => []

end Request

/-- The keys that are selected. -/
def named (rs : List Request) : List Bytes := rs.flatMap Request.named

/-- The keys of the peers that are removed. -/
def removed : Option Bytes → List Request → List Bytes
  | _, [] => []
  | cur, r :: rs => r.removed cur ++ removed (r.after cur) rs

/-- The edits of one peer. -/
def editsOf (key : Bytes) : Option Bytes → List Request → List PeerEdit
  | _, [] => []
  | cur, r :: rs => r.editsOf key cur ++ editsOf key (r.after cur) rs

/-- No peer is selected again after it was removed. -/
def NoReturn : Option Bytes → List Request → Prop
  | _, [] => True
  | cur, r :: rs => (∀ key ∈ r.removed cur, key ∉ named rs) ∧ NoReturn (r.after cur) rs

instance NoReturn.decidable : ∀ cur rs, Decidable (NoReturn cur rs)
  | _, [] => .isTrue trivial
  | cur, r :: rs =>
    have : Decidable (NoReturn (r.after cur) rs) := NoReturn.decidable (r.after cur) rs
    inferInstanceAs (Decidable ((∀ key ∈ r.removed cur, key ∉ named rs) ∧ _))

theorem editsOf_unnamed {key : Bytes} : ∀ {rs : List Request} {cur : Option Bytes},
    cur ≠ some key → key ∉ named rs → editsOf key cur rs = []
  | [], _, _, _ => rfl
  | r :: rs, cur, hcur, hn => by
    rw [named, List.flatMap_cons, List.mem_append, not_or] at hn
    have hafter : r.after cur ≠ some key := by
      cases r with
      | select k => simpa [Request.after, Request.named, eq_comm] using hn.1
      | remove => simp [Request.after]
      | _ => exact hcur
    rw [editsOf, editsOf_unnamed hafter hn.2]
    cases r <;> simp [Request.editsOf, hcur]

/-! ## Slots -/

variable {f f' f'' : ℕ → WgsPeer} {c c' c'' : Option ℕ} {r : Request} {rs : List Request}

/-- What a line does to the slots and to the selection. -/
inductive SlotStep (f : ℕ → WgsPeer) : Option ℕ → Request → (ℕ → WgsPeer) → Option ℕ → Prop where
  | found {c : Option ℕ} {i : ℕ} (ha : (f i).active) : SlotStep f c (.select (f i).pubkey) f (some i)
  | added {c : Option ℕ} {i : ℕ} {peer : WgsPeer}
      (hnew : ∀ j, (f j).active → (f j).pubkey ≠ peer.pubkey) (hi : ¬ (f i).active)
      (ha : peer.active) (hl : peer.allowed = []) :
      SlotStep f c (.select peer.pubkey) (Function.update f i peer) (some i)
  | removed {i : ℕ} : SlotStep f (some i) .remove (Function.update f i .blank) none
  | edited {i : ℕ} {e : PeerEdit} :
      SlotStep f (some i) (.edit e) (Function.update f i ((f i).edit e)) (some i)
  | unselected {r : Request} (hr : ∀ key, r ≠ .select key) : SlotStep f none r f none
  | other {c : Option ℕ} : SlotStep f c .other f c

inductive SlotSteps : (ℕ → WgsPeer) → Option ℕ → List Request → (ℕ → WgsPeer) → Option ℕ → Prop where
  | nil (f : ℕ → WgsPeer) (c : Option ℕ) : SlotSteps f c [] f c
  | cons {f f' f'' : ℕ → WgsPeer} {c c' c'' : Option ℕ} {r : Request} {rs : List Request}
      (h : SlotStep f c r f' c') (hs : SlotSteps f' c' rs f'' c'') : SlotSteps f c (r :: rs) f'' c''

/-- The key of the selected peer. -/
def keyAt (f : ℕ → WgsPeer) (c : Option ℕ) : Option Bytes := c.map fun i => (f i).pubkey

/-- No two peers in use have the same key, and the selected one is in use. -/
structure Sane (f : ℕ → WgsPeer) (c : Option ℕ) : Prop where
  distinct : ∀ i j, (f i).active → (f j).active → (f i).pubkey = (f j).pubkey → i = j
  selected : ∀ i, c = some i → (f i).active

/-- The peers after a line were there before and not removed, or are new. -/
theorem SlotStep.origin (h : SlotStep f c r f' c') (hf : Sane f c) {j : ℕ} (hj : (f' j).active) :
    ((f j).active ∧ (f' j).pubkey = (f j).pubkey ∧ (f j).pubkey ∉ r.removed (keyAt f c))
      ∨ (¬ (f j).active ∧ r = .select (f' j).pubkey ∧ (f' j).allowed = []
        ∧ ∀ i, (f i).active → (f i).pubkey ≠ (f' j).pubkey) := by
  cases h with
  | found ha => exact .inl ⟨hj, rfl, by simp [Request.removed]⟩
  | @added c i peer hnew hi ha hl =>
    by_cases e : j = i
    · subst e
      rw [Function.update_self]
      exact .inr ⟨hi, rfl, hl, hnew⟩
    · rw [Function.update_of_ne e] at hj ⊢
      exact .inl ⟨hj, rfl, by simp [Request.removed]⟩
  | @removed i =>
    by_cases e : j = i
    · subst e
      rw [Function.update_self] at hj
      cases hj
    · rw [Function.update_of_ne e] at hj ⊢
      refine .inl ⟨hj, rfl, fun hm => e ?_⟩
      have hm : (f j).pubkey = (f i).pubkey := by simpa [Request.removed, keyAt] using hm
      exact hf.distinct j i hj (hf.selected i rfl) hm
  | @edited i e =>
    refine .inl ?_
    by_cases hji : j = i
    · subst hji
      rw [Function.update_self] at hj ⊢
      exact ⟨by simpa using hj, by simp, by simp [Request.removed]⟩
    · rw [Function.update_of_ne hji] at hj ⊢
      exact ⟨hj, rfl, by simp [Request.removed]⟩
  | unselected hr =>
    refine .inl ⟨hj, rfl, ?_⟩
    cases r <;> simp [Request.removed, keyAt]
  | other => exact .inl ⟨hj, rfl, by simp [Request.removed]⟩

theorem SlotStep.sane (h : SlotStep f c r f' c') (hf : Sane f c) : Sane f' c' := by
  refine ⟨fun i j hi hj e => ?_, ?_⟩
  · rcases h.origin hf hi with ⟨hi', ei, -⟩ | ⟨hi', ri, -, ni⟩ <;>
      rcases h.origin hf hj with ⟨hj', ej, -⟩ | ⟨hj', rj, -, nj⟩
    · exact hf.distinct i j hi' hj' (ei.symm.trans (e.trans ej))
    · exact absurd (ei.symm.trans e) (nj i hi')
    · exact absurd (ej.symm.trans e.symm) (ni j hj')
    · -- only one slot is taken
      cases h with
      | @added c k peer hnew hk ha hl =>
        have hslot : ∀ l, (Function.update f k peer l).active → ¬ (f l).active → l = k :=
          fun l hl hl' => by_contra fun hne => hl' (by rwa [Function.update_of_ne hne] at hl)
        rw [hslot i hi hi', hslot j hj hj']
      | found => exact absurd hi hi'
      | removed => cases ri
      | edited => cases ri
      | unselected => exact absurd hi hi'
      | other => cases ri
  · intro i hc
    cases h with
    | found ha => exact Option.some.inj hc ▸ ha
    | added hnew hi ha hl =>
      rw [← Option.some.inj hc, Function.update_self]
      exact ha
    | removed => cases hc
    | edited =>
      rw [← Option.some.inj hc, Function.update_self, edit_active]
      exact hf.selected _ rfl
    | unselected hr => cases hc
    | other => exact hf.selected i hc

theorem SlotStep.key (h : SlotStep f c r f' c') : keyAt f' c' = r.after (keyAt f c) := by
  cases h with
  | found ha => rfl
  | added hnew hi ha hl => simp [keyAt, Request.after]
  | removed => rfl
  | edited => simp [keyAt, Request.after]
  | unselected hr =>
    cases r with
    | select key => exact absurd rfl (hr key)
    | _ => rfl
  | other => rfl

/-- A peer that is not removed is edited in its place. -/
theorem SlotStep.kept (h : SlotStep f c r f' c') (hf : Sane f c) {j : ℕ} (hj : (f j).active)
    (hr : (f j).pubkey ∉ r.removed (keyAt f c)) :
    f' j = (r.editsOf (f j).pubkey (keyAt f c)).foldl .edit (f j) := by
  cases h with
  | found ha => rfl
  | added hnew hi ha hl =>
    rw [Function.update_of_ne (by rintro rfl; exact hi hj)]
    rfl
  | removed =>
    rw [Function.update_of_ne fun e => hr (by simp [Request.removed, keyAt, e])]
    rfl
  | @edited i e =>
    by_cases hji : j = i
    · subst hji
      simp [Request.editsOf, keyAt]
    · have hne : (f i).pubkey ≠ (f j).pubkey := fun he =>
        hji (hf.distinct i j (hf.selected i rfl) hj he).symm
      rw [Function.update_of_ne hji]
      simp [Request.editsOf, keyAt, hne]
  | unselected _ => cases r <;> rfl
  | other => rfl

theorem SlotStep.selects (h : SlotStep f c r f' c') {key : Bytes} (hk : key ∈ r.named) :
    ∃ i, (f' i).active ∧ (f' i).pubkey = key := by
  cases h with
  | @found c i ha => exact ⟨i, ha, (List.mem_singleton.mp hk).symm⟩
  | @added c i peer hnew hi ha hl =>
    refine ⟨i, ?_⟩
    rw [Function.update_self]
    exact ⟨ha, (List.mem_singleton.mp hk).symm⟩
  | removed => cases hk
  | edited => cases hk
  | unselected hr =>
    cases r with
    | select key => exact absurd rfl (hr key)
    | _ => cases hk
  | other => cases hk

theorem SlotSteps.sane (h : SlotSteps f c rs f' c') (hf : Sane f c) : Sane f' c' := by
  induction h with
  | nil => exact hf
  | cons h _ ih => exact ih (h.sane hf)

theorem SlotSteps.kept (h : SlotSteps f c rs f' c') (hf : Sane f c) {j : ℕ} (hj : (f j).active)
    (hr : (f j).pubkey ∉ removed (keyAt f c) rs) :
    f' j = (editsOf (f j).pubkey (keyAt f c) rs).foldl .edit (f j) := by
  induction h with
  | nil => rfl
  | @cons f _ _ c _ _ r _ h _ ih =>
    obtain ⟨hr₁, hr₂⟩ := not_or.mp (List.mem_append.not.mp hr)
    have hstep := h.kept hf hj hr₁
    obtain ⟨hact, hkey⟩ := edits_same (r.editsOf (f j).pubkey (keyAt f c)) (f j)
    rw [← hstep] at hact hkey
    rw [ih (h.sane hf) (hact ▸ hj) (by rw [hkey, h.key]; exact hr₂), hkey, h.key, hstep, editsOf,
      List.foldl_append]

/-- A key that no peer has and no line names. -/
theorem SlotSteps.absent (h : SlotSteps f c rs f' c') (hf : Sane f c) {key : Bytes}
    (habs : ∀ i, (f i).active → (f i).pubkey ≠ key) (hk : key ∉ named rs) :
    ∀ i, (f' i).active → (f' i).pubkey ≠ key := by
  induction h with
  | nil => exact habs
  | cons h _ ih =>
    rw [named, List.flatMap_cons, List.mem_append, not_or] at hk
    refine ih (h.sane hf) (fun i hi e => ?_) hk.2
    rcases h.origin hf hi with ⟨hi', e', -⟩ | ⟨-, rfl, -⟩
    · exact habs i hi' (e'.symm.trans e)
    · exact hk.1 (by simp [Request.named, e])

/-- A removed peer stays away. -/
theorem SlotSteps.gone (h : SlotSteps f c rs f' c') (hf : Sane f c) (hno : NoReturn (keyAt f c) rs)
    {key : Bytes} (hk : key ∈ removed (keyAt f c) rs) :
    ∀ i, (f' i).active → (f' i).pubkey ≠ key := by
  induction h with
  | nil => cases hk
  | cons h hs ih =>
    rcases List.mem_append.mp hk with hk | hk
    · refine hs.absent (h.sane hf) (fun i hi e => ?_) (hno.1 key hk)
      rcases h.origin hf hi with ⟨-, e', hr⟩ | ⟨-, rfl, -⟩
      · exact hr (e' ▸ e ▸ hk)
      · cases hk
    · exact ih (h.sane hf) (h.key ▸ hno.2) (h.key ▸ hk)

/-- A peer named and not removed is there. -/
theorem SlotSteps.present (h : SlotSteps f c rs f' c') (hf : Sane f c) {key : Bytes}
    (hr : key ∉ removed (keyAt f c) rs) (hk : key ∈ named rs) :
    ∃ i, (f' i).active ∧ (f' i).pubkey = key := by
  induction h with
  | nil => cases hk
  | cons h hs ih =>
    obtain ⟨-, hr₂⟩ := not_or.mp (List.mem_append.not.mp hr)
    rw [← h.key] at hr₂
    rw [named, List.flatMap_cons, List.mem_append] at hk
    rcases hk with hk | hk
    · obtain ⟨i, ha, rfl⟩ := h.selects hk
      refine ⟨i, ?_⟩
      rw [hs.kept (h.sane hf) ha hr₂, (edits_same _ _).1, (edits_same _ _).2]
      exact ⟨ha, rfl⟩
    · exact ih (h.sane hf) hr₂ hk

/-- Every peer is what the edits of it made of some record. -/
theorem SlotSteps.edited (h : SlotSteps f c rs f' c') (hf : Sane f c) (hno : NoReturn (keyAt f c) rs)
    {j : ℕ} (hj : (f' j).active) :
    ∃ peer : WgsPeer, f' j = (editsOf (f' j).pubkey (keyAt f c) rs).foldl .edit peer := by
  induction h with
  | nil => exact ⟨_, rfl⟩
  | @cons f f₁ f' c c₁ c' r rs h hs ih =>
    by_cases hold : ∃ i, (f i).active ∧ (f i).pubkey = (f' j).pubkey
    · obtain ⟨i, hi, e⟩ := hold
      have hall : SlotSteps f c (r :: rs) f' c' := .cons h hs
      have hr : (f i).pubkey ∉ removed (keyAt f c) (r :: rs) := fun hm =>
        hall.gone hf hno hm j hj e.symm
      have hkept := hall.kept hf hi hr
      have hij : i = j := by
        refine (hall.sane hf).distinct i j ?_ hj ?_
        · rw [hkept, (edits_same _ _).1]
          exact hi
        · rw [hkept, (edits_same _ _).2]
          exact e
      exact ⟨f i, by rw [← e, ← hkept, hij]⟩
    · have hcur : keyAt f c ≠ some (f' j).pubkey := fun hc => by
        obtain ⟨i, hi, e⟩ := Option.map_eq_some_iff.mp hc
        exact hold ⟨i, hf.selected i hi, e⟩
      have hnil : r.editsOf (f' j).pubkey (keyAt f c) = [] := by
        cases r <;> simp [Request.editsOf, hcur]
      obtain ⟨peer, hpeer⟩ := ih (h.sane hf) (h.key ▸ hno.2) hj
      refine ⟨peer, ?_⟩
      rw [editsOf, hnil, List.nil_append, ← h.key]
      exact hpeer

/-- Of a peer that is there in the end, no list was added to that was not replaced. -/
theorem SlotSteps.replaced (h : SlotSteps f none rs f' c') (hf : Sane f none)
    (hno : NoReturn none rs)
    (hrep : ∀ key ∈ named rs, key ∉ removed none rs → Replaced (editsOf key none rs)) {j : ℕ}
    (hj : (f' j).active) : Replaced (editsOf (f' j).pubkey none rs) := by
  by_cases hn : (f' j).pubkey ∈ named rs
  · exact hrep _ hn fun hm => h.gone hf hno hm j hj rfl
  · rw [editsOf_unnamed (Option.some_ne_none _).symm hn]
    trivial

/-- The lines of a request read again, when no peer returns and every list is replaced. -/
theorem SlotSteps.again (h : SlotSteps f none rs f' c') (h' : SlotSteps f' none rs f'' c'') (hf : Sane f none)
    (hno : NoReturn none rs)
    (hrep : ∀ key ∈ named rs, key ∉ removed none rs → Replaced (editsOf key none rs)) (i : ℕ)
    (hi : (f' i).active ∨ (f'' i).active) : f'' i = f' i := by
  have hf' : Sane f' none := ⟨(h.sane hf).distinct, fun _ hc => nomatch hc⟩
  have hstay : ∀ j, (f' j).active → f'' j = f' j := fun j hj => by
    have hr : (f' j).pubkey ∉ removed none rs := fun hm => h.gone hf hno hm j hj rfl
    obtain ⟨peer, hpeer⟩ := h.edited hf hno hj
    calc f'' j = (editsOf (f' j).pubkey none rs).foldl .edit (f' j) := h'.kept hf' hj hr
      _ = (editsOf (f' j).pubkey none rs).foldl .edit
            ((editsOf (f' j).pubkey none rs).foldl .edit peer) :=
          congrArg (fun peer => (editsOf (f' j).pubkey none rs).foldl WgsPeer.edit peer) hpeer
      _ = (editsOf (f' j).pubkey none rs).foldl .edit peer := 
          edits_twice (h.replaced hf hno hrep hj) peer
      _ = f' j := hpeer.symm
  rcases hi with hi | hi
  · exact hstay i hi
  by_cases hold : (f' i).active
  · exact hstay i hold
  refine absurd ?_ hold
  have hr : (f'' i).pubkey ∉ removed none rs := fun hm => h'.gone hf' hno hm i hi rfl
  have hthere : ∃ j, (f' j).active ∧ (f' j).pubkey = (f'' i).pubkey := by
    by_contra habs
    have habs' : ∀ j, (f' j).active → (f' j).pubkey ≠ (f'' i).pubkey := fun j hj e =>
      habs ⟨j, hj, e⟩
    by_cases hn : (f'' i).pubkey ∈ named rs
    · exact habs (h.present hf hr hn)
    · exact h'.absent hf' habs' hn i hi rfl
  obtain ⟨j, hj, e⟩ := hthere
  obtain rfl := (h'.sane hf').distinct j i (by rw [hstay j hj]; exact hj) hi
    (by rw [hstay j hj]; exact e)
  exact hj

/-! ## Two sessions, one request -/

variable {g g' : ℕ → WgsPeer} {d d' : Option ℕ} {cur : Option Bytes}

/-- The lists of the second that are not replaced are no longer than those of the first. -/
def Shorter (f g : ℕ → WgsPeer) (cur : Option Bytes) (rs : List Request) : Prop :=
  ∀ j, (g j).active → Replaced (editsOf (g j).pubkey cur rs) ∨ ∃ i, (f i).active
    ∧ (f i).pubkey = (g j).pubkey ∧ (g j).allowed.length ≤ (f i).allowed.length

theorem Shorter.step (h : Shorter f g (keyAt g d) (r :: rs)) (hs : SlotStep f c r f' c')
    (hs' : SlotStep g d r g' d') (hf : Sane f c) (hg : Sane g d) (hkey : keyAt f c = keyAt g d) :
    Shorter f' g' (keyAt g' d') rs := fun j hj => by
  rcases hs'.origin hg hj with ⟨hj', hpub, hr⟩ | ⟨-, rfl, hnil, -⟩
  · have hkept := hs'.kept hg hj' hr
    rw [hpub, hs'.key]
    by_cases hthere : ∃ i, (f i).active ∧ (f i).pubkey = (g j).pubkey
    · obtain ⟨i, hi, e⟩ := hthere
      have hkept₁ := hs.kept hf hi (by rw [e, hkey]; exact hr)
      rw [hkey, e] at hkept₁
      have hold : Replaced (editsOf (g j).pubkey (keyAt g d) (r :: rs))
          ∨ (g j).allowed.length ≤ (f i).allowed.length := by
        refine (h j hj').imp_right fun ⟨i', hi', e', hle⟩ => ?_
        rw [hf.distinct i i' hi hi' (e.trans e'.symm)]
        exact hle
      refine (edits_shorter _ hold).imp_right fun hle => ⟨i, ?_, ?_, ?_⟩
      · rw [hkept₁, (edits_same _ _).1]
        exact hi
      · rw [hkept₁, (edits_same _ _).2, e]
      · rw [hkept, hkept₁]
        exact hle
    · -- the first session has no such peer, so the line is not about it
      have hrep := (h j hj').resolve_right fun ⟨i, hi, e, _⟩ => hthere ⟨i, hi, e⟩
      have hcur : keyAt g d ≠ some (g j).pubkey := fun hc => by
        rw [← hkey] at hc
        obtain ⟨i, hi, e⟩ := Option.map_eq_some_iff.mp hc
        exact hthere ⟨i, hf.selected i hi, e⟩
      have hnil : r.editsOf (g j).pubkey (keyAt g d) = [] := by
        cases r <;> simp [Request.editsOf, hcur]
      rw [editsOf, hnil, List.nil_append] at hrep
      exact .inl hrep
  · obtain ⟨i, hi, e⟩ := hs.selects (List.mem_singleton_self (g' j).pubkey)
    exact .inr ⟨i, hi, e, by rw [hnil]; exact Nat.zero_le _⟩

/-- A slot is left for every peer that is named: no peer is removed and all are there, or they
are not too many with those that are there. -/
def Room (f : ℕ → WgsPeer) (cur : Option Bytes) (rs : List Request) : Prop :=
  (removed cur rs = [] ∧ ∀ key ∈ named rs, ∃ i, (f i).active ∧ (f i).pubkey = key)
    ∨ ∃ keys : Finset Bytes, keys.card ≤ wgsMaxPeers ∧ (∀ i, (f i).active → (f i).pubkey ∈ keys)
      ∧ ∀ key ∈ named rs, key ∈ keys

/-- Room for the same lines again. -/
theorem SlotSteps.room (h : SlotSteps f none rs f' c') (hf : Sane f none)
    (hroom : removed none rs = [] ∨ ∃ keys : Finset Bytes, keys.card ≤ wgsMaxPeers
      ∧ (∀ i, (f i).active → (f i).pubkey ∈ keys) ∧ ∀ key ∈ named rs, key ∈ keys) :
    Room f' none rs := by
  rcases hroom with hr | ⟨keys, hcard, hin, hk⟩
  · exact .inl ⟨hr, fun key hm => h.present hf (by rw [keyAt, Option.map_none, hr]; simp) hm⟩
  · refine .inr ⟨keys, hcard, fun i hi => by_contra fun hn => ?_, hk⟩
    have habs : ∀ j, (f j).active → (f j).pubkey ≠ (f' i).pubkey := fun j hj e => by
      have := hin j hj
      rw [e] at this
      exact hn this
    exact h.absent hf habs (fun hm => hn (hk _ hm)) i hi rfl

theorem Room.step (h : Room f (keyAt f c) (r :: rs)) (hs : SlotStep f c r f' c') (hf : Sane f c) :
    Room f' (keyAt f' c') rs := by
  rcases h with ⟨hr, hk⟩ | ⟨keys, hcard, hin, hk⟩
  · obtain ⟨hr₁, hr₂⟩ := List.append_eq_nil_iff.mp hr
    refine .inl ⟨hs.key ▸ hr₂, fun key hm => ?_⟩
    obtain ⟨i, hi, e⟩ := hk key (List.mem_append_right _ hm)
    refine ⟨i, ?_⟩
    rw [hs.kept hf hi (by rw [hr₁]; exact List.not_mem_nil), (edits_same _ _).1,
      (edits_same _ _).2]
    exact ⟨hi, e⟩
  · refine .inr ⟨keys, hcard, fun i hi => ?_, fun key hm => hk key (List.mem_append_right _ hm)⟩
    rcases hs.origin hf hi with ⟨hi', e, -⟩ | ⟨-, rfl, -⟩
    · exact e ▸ hin i hi'
    · exact hk _ (List.mem_append_left _ (List.mem_singleton_self _))

theorem Room.free {key : Bytes} (h : Room f cur (.select key :: rs)) (hf : Sane f c)
    (hnew : ∀ i, (f i).active → (f i).pubkey ≠ key) : ∃ i < wgsMaxPeers, ¬ (f i).active := by
  have hkey : key ∈ named (.select key :: rs) :=
    List.mem_append_left _ (List.mem_singleton_self key)
  rcases h with ⟨-, hk⟩ | ⟨keys, hcard, hin, hk⟩
  · obtain ⟨i, hi, e⟩ := hk key hkey
    exact absurd e (hnew i hi)
  · by_contra hfull
    have hact : ∀ i < wgsMaxPeers, (f i).active := fun i hi => by_contra fun hn => hfull ⟨i, hi, hn⟩
    have hle : (Finset.range wgsMaxPeers).card ≤ (keys.erase key).card := by
      refine Finset.card_le_card_of_injOn (fun i => (f i).pubkey) (fun i hi => ?_) ?_
      · have ha := hact i (Finset.mem_range.mp hi)
        exact Finset.mem_erase.mpr ⟨hnew i ha, hin i ha⟩
      · intro i hi j hj e
        exact hf.distinct i j (hact i (Finset.mem_range.mp hi)) (hact j (Finset.mem_range.mp hj)) e
    have hlt := Finset.card_erase_lt_of_mem (hk key hkey)
    rw [Finset.card_range] at hle
    omega

end PolarWG
