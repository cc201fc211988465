import PolarWG.Proofs.Edits
import PolarWG.Proofs.Removal

/-!
# A request made twice

Allowed lists are added to unless a request replaces them, and a peer that is removed and added
again may take another slot. A request that replaces every list it adds to, returns to no peer it
removed, and has room for the peers it removes, succeeds again and changes nothing more.
-/

namespace PolarWG

open Specimen

variable {p : Prims} {resolve : Resolver} {s s' t : WgSession}

def endpointEdit (resolve : Resolver) (val : Text) : Option PeerEdit := do
  let (host, port) ← splitEndpointSpec val
  let (addr, len) ← resolve host port
  pure (.endpoint host port addr len)

/-- What a line about the selected peer asks for. -/
def peerRequest (p : Prims) (resolve : Resolver) (key val : Text) : Request :=
  if key = "remove".toList then
    if val = "true".toList then .remove else .other
  else if key = "preshared_key".toList then
    match hexDecode val 32 with
    | none => .malformed
    | some psk => .edit (.psk psk)
  else if key = "endpoint".toList then
    match endpointEdit resolve val with
    | none => .malformed
    | some e => .edit e
  else if key = "persistent_keepalive_interval".toList then
    if atoi val < 0 ∨ 65535 < atoi val then .malformed else .edit (.interval (atoi val))
  else if key = "replace_allowed_ips".toList then
    if val = "true".toList then .edit .clear else .other
  else if key = "allowed_ip".toList then
    match parseCidr p val with
    | none => .malformed
    | some c => .edit (.allow c)
  else .other

def request (p : Prims) (resolve : Resolver) (line : Text) : Request :=
  match uapiLine line with
  | none => .other
  | some (key, val) =>
    if key = "public_key".toList then
      match hexDecode val 32 with
      | none => .malformed
      | some pk => .select pk
    else peerRequest p resolve key val

def requests (p : Prims) (resolve : Resolver) (text : Text) : List Request :=
  (strtok '\n' (cstr text)).map (request p resolve)

/-! ## One line -/

theorem peerSetEndpointStr_eq (resolve : Resolver) (peer : WgsPeer) (val : Text) :
    peerSetEndpointStr resolve peer val = (endpointEdit resolve val).map peer.edit := by
  unfold peerSetEndpointStr endpointEdit
  rcases splitEndpointSpec val with _ | ⟨host, port⟩
  · rfl
  simp only [Option.bind_eq_bind, Option.bind_some]
  rcases resolve host port with _ | ⟨addr, len⟩ <;> rfl

/-- A line that succeeds: what it does to the slots, and what it leaves. -/
theorem setPeerKey_slots {i : ℕ} {key val : Text} {cur : Option ℕ}
    (h : setPeerKey p resolve s i key val = .next s' cur) :
    SlotStep s.peers (some i) (peerRequest p resolve key val) s'.peers cur
      ∧ s'.nPeers = s.nPeers ∧ s'.listenPort = s.listenPort := by
  unfold setPeerKey at h
  unfold peerRequest
  split at h
  · next hk =>
    rw [if_pos hk]
    split at h
    · next hv =>
      cases h
      rw [if_pos hv]
      obtain ⟨h1, h2, h3⟩ := peerTombstone_same s i
      exact ⟨h1 ▸ .removed, h2, h3⟩
    · next hv =>
      cases h
      rw [if_neg hv]
      exact ⟨.other, rfl, rfl⟩
  next hk =>
  rw [if_neg hk]
  split at h
  · next hk =>
    rw [if_pos hk]
    rcases hpsk : hexDecode val 32 with _ | psk <;> rw [hpsk] at h
    · cases h
    · simp only [] at h
      split at h
      all_goals
        cases h
        exact ⟨.edited (e := .psk psk), rfl, rfl⟩
  next hk =>
  rw [if_neg hk]
  split at h
  · next hk =>
    rw [if_pos hk]
    rw [peerSetEndpointStr_eq] at h
    rcases he : endpointEdit resolve val with _ | e <;> rw [he] at h <;> cases h
    exact ⟨.edited (e := e), rfl, rfl⟩
  next hk =>
  rw [if_neg hk]
  split at h
  · next hk =>
    rw [if_pos hk]
    simp only [] at h
    split at h
    · cases h
    · next hv =>
      cases h
      rw [if_neg hv]
      exact ⟨.edited (e := .interval (atoi val)), rfl, rfl⟩
  next hk =>
  rw [if_neg hk]
  split at h
  · next hk =>
    rw [if_pos hk]
    split at h
    · next hv =>
      cases h
      rw [if_pos hv]
      exact ⟨.edited (e := .clear), rfl, rfl⟩
    · next hv =>
      cases h
      rw [if_neg hv]
      exact ⟨.other, rfl, rfl⟩
  next hk =>
  rw [if_neg hk]
  split at h
  · next hk =>
    rw [if_pos hk]
    split at h
    · cases h
    rcases hc : parseCidr p val with _ | c <;> rw [hc] at h <;> cases h
    exact ⟨.edited (e := .allow c), rfl, rfl⟩
  next hk =>
  rw [if_neg hk]
  cases h
  exact ⟨.other, rfl, rfl⟩

/-- A line that succeeds for one peer does for another whose list is no longer. -/
theorem setPeerKey_again {i j : ℕ} {key val : Text} {cur : Option ℕ}
    (h : setPeerKey p resolve s i key val = .next s' cur)
    (hlist : ∀ c, peerRequest p resolve key val = .edit (.allow c) →
      (t.peers j).allowed.length ≤ (s.peers i).allowed.length) :
    ∃ t' cur', setPeerKey p resolve t j key val = .next t' cur' := by
  unfold setPeerKey at h ⊢
  unfold peerRequest at hlist
  split at h
  · next hk =>
    rw [if_pos hk]
    split <;> exact ⟨_, _, rfl⟩
  next hk₁ =>
  rw [if_neg hk₁] at hlist ⊢
  split at h
  · next hk =>
    rw [if_pos hk]
    rcases hpsk : hexDecode val 32 with _ | psk <;> rw [hpsk] at h
    · cases h
    · simp only []
      split <;> exact ⟨_, _, rfl⟩
  next hk₂ =>
  rw [if_neg hk₂] at hlist ⊢
  split at h
  · next hk =>
    rw [if_pos hk]
    rw [peerSetEndpointStr_eq] at h ⊢
    rcases he : endpointEdit resolve val with _ | e <;> rw [he] at h
    · cases h
    · exact ⟨_, _, rfl⟩
  next hk₃ =>
  rw [if_neg hk₃] at hlist ⊢
  split at h
  · next hk =>
    rw [if_pos hk]
    simp only [] at h ⊢
    split at h
    · cases h
    · next hv => exact ⟨_, _, if_neg hv⟩
  next hk₄ =>
  rw [if_neg hk₄] at hlist ⊢
  split at h
  · next hk =>
    rw [if_pos hk]
    split <;> exact ⟨_, _, rfl⟩
  next hk₅ =>
  rw [if_neg hk₅] at hlist ⊢
  split at h
  · next hk =>
    rw [if_pos hk] at hlist ⊢
    split at h
    · cases h
    next hfull =>
    rcases hc : parseCidr p val with _ | c <;> rw [hc] at h hlist
    · cases h
    · have := hlist c rfl
      rw [if_neg (by omega)]
      exact ⟨_, _, rfl⟩
  next hk₆ =>
  rw [if_neg hk₆]
  exact ⟨_, _, rfl⟩

theorem peerRequest_ne_select (key val : Text) (pk : Bytes) :
    peerRequest p resolve key val ≠ .select pk := by
  unfold peerRequest
  split_ifs
  any_goals simp
  · rcases hexDecode val 32 with _ | psk <;> simp
  · rcases endpointEdit resolve val with _ | e <;> simp
  · rcases parseCidr p val with _ | c <;> simp

theorem findPeerByPubkey_none (h : Accounted p s) {pk : Bytes}
    (hnone : findPeerByPubkey s pk = none) (i : ℕ) (ha : (s.peers i).active) :
    (s.peers i).pubkey ≠ pk := fun hpk =>
  List.find?_eq_none.mp hnone i (List.mem_range.mpr (h.range i ha)) (decide_eq_true ⟨ha, hpk⟩)

theorem setPublicKey_slots (h : Accounted p s) {val : Text} {cur : Option ℕ} (c : Option ℕ)
    (hs : setPublicKey p s val = .next s' cur) : ∃ pk, hexDecode val 32 = some pk
      ∧ SlotStep s.peers c (.select pk) s'.peers cur
      ∧ s.nPeers ≤ s'.nPeers ∧ s'.listenPort = s.listenPort := by
  unfold setPublicKey at hs
  rcases hpk : hexDecode val 32 with _ | pk <;> rw [hpk] at hs
  · cases hs
  refine ⟨pk, rfl, ?_⟩
  simp only [] at hs
  rcases hfind : findPeerByPubkey s pk with _ | i <;> rw [hfind] at hs
  · simp only [] at hs
    rcases halloc : allocPeerSlot s with ⟨s₁, _ | i⟩ <;> rw [halloc] at hs
    · cases hs
    simp only [] at hs
    rcases hinit : peerInitRuntime p s₁ i pk with ⟨s₂, _ | _⟩ <;> rw [hinit] at hs <;> cases hs
    obtain ⟨-, -, hout, -⟩ := allocPeerSlot_some .all h halloc
    obtain ⟨hp₁, -⟩ := allocPeerSlot_outside halloc
    obtain ⟨hn₁, hl₁⟩ := allocPeerSlot_same halloc
    obtain ⟨peer, hpeers, hn₂, ha, hinfo⟩ := peerInitRuntime_slot hinit
    obtain rfl : peer.pubkey = pk := congrArg PeerInfo.pubkey hinfo
    refine ⟨?_, hn₂ ▸ hn₁, (peerInitRuntime_port hinit).trans hl₁⟩
    rw [hp₁] at hpeers hout
    rw [hpeers]
    exact .added (findPeerByPubkey_none h hfind) hout ha (congrArg PeerInfo.allowed hinfo)
  · cases hs
    obtain ⟨-, ha, rfl⟩ := findPeerByPubkey_some hfind
    exact ⟨.found ha, le_rfl, rfl⟩

theorem setPublicKey_next (h : Accounted p s) {val : Text} {pk : Bytes}
    (hpk : hexDecode val 32 = some pk)
    (hroom : (∀ i, (s.peers i).active → (s.peers i).pubkey ≠ pk) →
      ∃ i < wgsMaxPeers, ¬ (s.peers i).active) :
    ∃ s' cur, setPublicKey p s val = .next s' cur := by
  unfold setPublicKey
  rw [hpk]
  simp only []
  rcases hfind : findPeerByPubkey s pk with _ | i
  · obtain ⟨i, hi, hfree⟩ := hroom (findPeerByPubkey_none h hfind)
    simp only []
    rcases halloc : allocPeerSlot s with ⟨s₁, _ | j⟩
    · exact absurd ((allocPeerSlot_eq_none h).mp (congrArg Prod.snd halloc) i hi) hfree
    simp only []
    obtain ⟨hr₁, hi₁, hout₁, -⟩ := allocPeerSlot_some .all h halloc
    rcases hinit : peerInitRuntime p s₁ j pk with ⟨s₂, ok⟩
    have hr₂ : Refines p .all s₁ s₂ ∧ ok = true ∧ (s₂.peers j).active :=
      peerInitRuntime_refines hr₁.1 hi₁ hout₁ trivial hinit
    obtain ⟨-, rfl, -⟩ := hr₂
    exact ⟨_, _, rfl⟩
  · exact ⟨_, _, rfl⟩

/-- The listening port after a line that succeeds. -/
def portAfter (port : ℕ) (line : Text) : ℕ :=
  match uapiLine line with
  | none => port
  | some (key, val) => if key = "listen_port".toList then (atoi val).toNat else port

theorem portAfter_settles (line : Text) : Settles fun port => portAfter port line := by
  unfold portAfter
  rcases uapiLine line with _ | ⟨key, val⟩
  · exact .inl fun _ => rfl
  by_cases hk : key = "listen_port".toList
  · exact .inr fun _ _ => by rw [hk]; rfl
  · exact .inl fun _ => if_neg hk

theorem setLine_slots (h : Accounted p s) {c c' : Option ℕ} {line : Text}
    (hs : setLine p resolve s c line = .next s' c') :
    SlotStep s.peers c (request p resolve line) s'.peers c' ∧ s.nPeers ≤ s'.nPeers
      ∧ s'.listenPort = portAfter s.listenPort line := by
  unfold setLine at hs
  unfold request portAfter
  rcases hline : uapiLine line with _ | ⟨key, val⟩ <;> rw [hline] at hs
  · cases hs
    exact ⟨.other, le_rfl, rfl⟩
  simp only [setKey] at hs ⊢
  split at hs
  · next hk =>
    subst hk
    cases hs
    rw [if_neg (by decide), if_neg (by decide)]
    exact ⟨.other, le_rfl, rfl⟩
  split at hs
  · cases hs
  split at hs
  · next hk =>
    subst hk
    split at hs
    · cases hs
    · cases hs
      rw [if_neg (by decide), if_pos rfl]
      exact ⟨.other, le_rfl, rfl⟩
  next hport =>
  rw [if_neg hport]
  split at hs
  · next hk =>
    rw [if_pos hk]
    obtain ⟨pk, hpk, hslots, hn, hl⟩ := setPublicKey_slots h c hs
    rw [hpk]
    exact ⟨hslots, hn, hl⟩
  · next hk =>
    rw [if_neg hk]
    rcases c with _ | i
    · cases hs
      exact ⟨.unselected (peerRequest_ne_select key val), le_rfl, rfl⟩
    · obtain ⟨hslots, hn, hl⟩ := setPeerKey_slots hs
      exact ⟨hslots, hn.ge, hl⟩

theorem setLine_again (h : Accounted p t) {c c' d : Option ℕ} {line : Text}
    (hs : setLine p resolve s c line = .next s' c') (hsel : c = none ↔ d = none)
    (hroom : ∀ pk, request p resolve line = .select pk →
      (∀ i, (t.peers i).active → (t.peers i).pubkey ≠ pk) →
      ∃ i < wgsMaxPeers, ¬ (t.peers i).active)
    (hlist : ∀ cidr i j, request p resolve line = .edit (.allow cidr) → c = some i → d = some j →
      (t.peers j).allowed.length ≤ (s.peers i).allowed.length) :
    ∃ t' d', setLine p resolve t d line = .next t' d' := by
  unfold setLine at hs ⊢
  unfold request at hroom hlist
  rcases hline : uapiLine line with _ | ⟨key, val⟩ <;> rw [hline] at hs hroom hlist
  · exact ⟨_, _, rfl⟩
  simp only [setKey] at hs hroom hlist ⊢
  split at hs
  · next hk => exact ⟨_, _, if_pos hk⟩
  next hk₁ =>
  rw [if_neg hk₁]
  split at hs
  · cases hs
  next hk₂ =>
  rw [if_neg hk₂]
  split at hs
  · next hk =>
    rw [if_pos hk]
    split at hs
    · cases hs
    · next hv => exact ⟨_, _, if_neg hv⟩
  next hk₃ =>
  rw [if_neg hk₃]
  split at hs
  · next hk =>
    rw [if_pos hk] at hroom ⊢
    rcases hpk : hexDecode val 32 with _ | pk
    · simp only [setPublicKey, hpk] at hs
      cases hs
    · exact setPublicKey_next h hpk (hroom pk (by rw [hpk]))
  · next hk =>
    rw [if_neg hk] at hlist ⊢
    rcases c with _ | i
    · rw [hsel.mp rfl]
      exact ⟨_, _, rfl⟩
    · rcases d with _ | j
      · exact absurd (hsel.mpr rfl) (Option.some_ne_none i)
      · exact setPeerKey_again hs fun cidr hc => hlist cidr i j hc rfl rfl

/-! ## All lines -/

theorem setLines_slots (resolve : Resolver) : ∀ (lines : List Text) {s : WgSession} {c : Option ℕ},
    Accounted p s → Sane s.peers c → (setLines p resolve lines s c).1 = 0 →
    Accounted p (setLines p resolve lines s c).2
      ∧ (∃ c', SlotSteps s.peers c (lines.map (request p resolve))
        (setLines p resolve lines s c).2.peers c')
      ∧ s.nPeers ≤ (setLines p resolve lines s c).2.nPeers
      ∧ (setLines p resolve lines s c).2.listenPort = lines.foldl portAfter s.listenPort
  | [], _, c, h, _, _ => ⟨h, ⟨c, .nil _ c⟩, le_rfl, rfl⟩
  | line :: lines, s, c, h, hsane, hz => by
    unfold setLines at hz ⊢
    rcases hl : setLine p resolve s c line with ⟨s₁, c₁⟩ | s₁ <;> rw [hl] at hz
    · obtain ⟨hstep, hn, hport⟩ := setLine_slots h hl
      obtain ⟨hacc, ⟨c', hsteps⟩, hn', hport'⟩ := setLines_slots resolve lines
        (setLine_next h hsane.selected hl).1 (hstep.sane hsane) hz
      exact ⟨hacc, ⟨c', .cons hstep hsteps⟩, hn.trans hn', by rw [hport', hport, List.foldl_cons]⟩
    · exact absurd (show (-1 : Int) = 0 from hz) (by decide)

/-- Each line that succeeds in one session does in another with shorter lists and room. -/
theorem setLines_again (resolve : Resolver) : ∀ (lines : List Text) {s t : WgSession}
    {c d : Option ℕ}, Accounted p s → Accounted p t → Sane s.peers c → Sane t.peers d →
    keyAt s.peers c = keyAt t.peers d →
    Shorter s.peers t.peers (keyAt t.peers d) (lines.map (request p resolve)) →
    Room t.peers (keyAt t.peers d) (lines.map (request p resolve)) →
    (setLines p resolve lines s c).1 = 0 → (setLines p resolve lines t d).1 = 0
  | [], _, _, _, _, _, _, _, _, _, _, _, _ => rfl
  | line :: lines, s, t, c, d, hs, ht, hsane, tsane, hkey, hshort, hroom, hz => by
    unfold setLines at hz ⊢
    rcases hl : setLine p resolve s c line with ⟨s₁, c₁⟩ | s₁ <;> rw [hl] at hz
    · have hsel : c = none ↔ d = none := by
        rw [← Option.map_eq_none_iff (f := fun i => (s.peers i).pubkey),
          ← Option.map_eq_none_iff (f := fun i => (t.peers i).pubkey)]
        exact iff_of_eq (congrArg (· = none) hkey)
      obtain ⟨t₁, d₁, hl'⟩ : ∃ t' d', setLine p resolve t d line = .next t' d' := by
        refine setLine_again ht hl hsel (fun pk hpk hnew => ?_) fun cidr i j he hc hd => ?_
        · rw [List.map_cons, hpk] at hroom
          exact hroom.free tsane hnew
        · subst hc hd
          rw [List.map_cons, he] at hshort
          rcases hshort j (tsane.selected j rfl) with hrep | ⟨i', hi', e, hle⟩
          · exact absurd hrep (by simp [editsOf, Request.editsOf, keyAt, Replaced])
          · have hii : i' = i := hsane.distinct i' i hi' (hsane.selected i rfl)
              (e.trans (Option.some.inj hkey).symm)
            exact hii ▸ hle
      rw [hl']
      obtain ⟨hstep, -⟩ := setLine_slots hs hl
      obtain ⟨hstep', -⟩ := setLine_slots ht hl'
      exact setLines_again resolve lines (setLine_next hs hsane.selected hl).1
        (setLine_next ht tsane.selected hl').1 (hstep.sane hsane) (hstep'.sane tsane)
        (by rw [hstep.key, hstep'.key, hkey]) (hshort.step hstep hstep' hsane tsane hkey)
        (hroom.step hstep' tsane) hz
    · exact absurd (show (-1 : Int) = 0 from hz) (by decide)

/-! ## The request again -/

/-- Every list the request adds to is one it emptied before, unless it removes the peer; it names
no peer after removing it, and a table holds those it removes beside the others. -/
structure Repeatable (p : Prims) (resolve : Resolver) (s : WgSession) (text : Text) : Prop where
  replaced : ∀ key ∈ named (requests p resolve text), key ∉ removed none (requests p resolve text) →
    Replaced (editsOf key none (requests p resolve text))
  noReturn : NoReturn none (requests p resolve text)
  room : removed none (requests p resolve text) = []
    ∨ ((activePeers s).map WgsPeer.pubkey ++ named (requests p resolve text)).toFinset.card
      ≤ wgsMaxPeers

instance (text : Text) : Decidable (Repeatable p resolve s text) :=
  decidable_of_iff ((∀ key ∈ named (requests p resolve text),
      key ∉ removed none (requests p resolve text) →
        Replaced (editsOf key none (requests p resolve text)))
      ∧ NoReturn none (requests p resolve text)
      ∧ (removed none (requests p resolve text) = []
        ∨ ((activePeers s).map WgsPeer.pubkey ++ named (requests p resolve text)).toFinset.card
          ≤ wgsMaxPeers))
    ⟨fun h => ⟨h.1, h.2.1, h.2.2⟩, fun h => ⟨h.replaced, h.noReturn, h.room⟩⟩

/-- Where no startup key is shared, such a request succeeds again and changes nothing more. -/
theorem set_again (h : ReachableIf p (fun _ _ => True) s) (hd : Distinct s) (resolve : Resolver)
    (ntop : ℕ → Bytes → Text) {text : Text} (hrep : Repeatable p resolve s text)
    (hzero : (wgSessionSetUapi p resolve s text).1 = 0) :
    (wgSessionSetUapi p resolve (wgSessionSetUapi p resolve s text).2 text).1 = 0
      ∧ Unmoved ntop (wgSessionSetUapi p resolve s text).2
        (wgSessionSetUapi p resolve (wgSessionSetUapi p resolve s text).2 text).2 := by
  have hacc := reachable_accounted h
  have hsane : Sane s.peers none := ⟨hd, fun _ hc => nomatch hc⟩
  have hmatch := (routes_match h).2 resolve text
  have hsound : Sound p (wgSessionSetUapi p resolve s text).2 :=
    setUapi_sound (reachable_sound h)
  have hmatch' := (setUapi_tabled hsound resolve text).routesMatch
  have hset : ∀ s, wgSessionSetUapi p resolve s text
      = ((setLines p resolve (strtok '\n' (cstr text)) s none).1,
        rebuildAips (setLines p resolve (strtok '\n' (cstr text)) s none).2) := fun _ => rfl
  obtain ⟨hacc₁, ⟨c₁, hsteps⟩, -, hport⟩ :=
    setLines_slots resolve (strtok '\n' (cstr text)) hacc hsane hzero
  obtain ⟨hnoise, hpeers, hn⟩ :=
    rebuildAips_outside (setLines p resolve (strtok '\n' (cstr text)) s none).2
  have hdev := (rebuildAips_device (setLines p resolve (strtok '\n' (cstr text)) s none).2).2.2
  rw [hset s] at hmatch hmatch' ⊢
  generalize (setLines p resolve (strtok '\n' (cstr text)) s none).2 = σ at *
  -- the session the second time starts from
  have hrefines : Refines p .all σ (rebuildAips σ) := hacc₁.outside hnoise hpeers hn
  have hacc' := hrefines.1
  have hsane' : Sane (rebuildAips σ).peers none :=
    ⟨hpeers ▸ (hsteps.sane hsane).distinct, fun _ hc => nomatch hc⟩
  rw [← hpeers] at hsteps
  have hshort : Shorter s.peers (rebuildAips σ).peers none (requests p resolve text) :=
    fun j hj => .inl (hsteps.replaced hsane hrep.noReturn hrep.replaced hj)
  have hroom : Room (rebuildAips σ).peers none (requests p resolve text) := by
    refine hsteps.room hsane (hrep.room.imp_right fun hcard => ⟨_, hcard, fun i hi => ?_, ?_⟩)
    · refine List.mem_toFinset.mpr (List.mem_append_left _ (List.mem_map_of_mem ?_))
      exact List.mem_map_of_mem (List.mem_filter.mpr ⟨List.mem_range.mpr (hacc.range i hi), hi⟩)
    · exact fun key hm => List.mem_toFinset.mpr (List.mem_append_right _ hm)
  have hzero' := setLines_again resolve (strtok '\n' (cstr text)) hacc hacc' hsane hsane' rfl
    hshort hroom hzero
  obtain ⟨-, ⟨c₂, hsteps'⟩, hn', hport'⟩ :=
    setLines_slots resolve (strtok '\n' (cstr text)) hacc' hsane' hzero'
  obtain ⟨-, hpeers₂, hn₂⟩ :=
    rebuildAips_outside (setLines p resolve (strtok '\n' (cstr text)) (rebuildAips σ) none).2
  have hdev₂ :=
    (rebuildAips_device (setLines p resolve (strtok '\n' (cstr text)) (rebuildAips σ) none).2).2.2
  rw [← hpeers₂] at hsteps'
  have hports : Settles fun port => (strtok '\n' (cstr text)).foldl portAfter port :=
    .foldl fun line _ => portAfter_settles line
  have hports' : (strtok '\n' (cstr text)).foldl portAfter (rebuildAips σ).listenPort
      = (rebuildAips σ).listenPort := by
    rw [hdev, hport]
    exact hports.twice s.listenPort
  exact ⟨hzero', unmoved_of_kept ntop hmatch hmatch'
    (hsteps.again hsteps' hsane hrep.noReturn hrep.replaced) (hn'.trans hn₂.ge) hacc'.range
    ((hdev₂.trans hport').trans hports')⟩

/-- Replaces the list of B, and has C added and removed. -/
def settling : Text :=
  ("public_key=" ++ hexB ++ "\nreplace_allowed_ips=true\nallowed_ip=10.0.0.9/32\npublic_key="
    ++ hexC ++ "\nallowed_ip=10.0.0.3/32\nremove=true\n").toList

theorem set_again_settling : ∃ s, sessionA = some s ∧ (wgSessionSetUapi specimen (names hostB)
      (wgSessionSetUapi specimen (names hostB) s settling).2 settling).1 = 0
    ∧ Unmoved numericNtop (wgSessionSetUapi specimen (names hostB) s settling).2
      (wgSessionSetUapi specimen (names hostB)
        (wgSessionSetUapi specimen (names hostB) s settling).2 settling).2 := by
  have hrun : sessionA.any (fun s => decide (s.nPeers = 1)
      && decide (Repeatable specimen (names hostB) s settling)
      && decide ((wgSessionSetUapi specimen (names hostB) s settling).1 = 0)) = true := by
    decide +kernel
  obtain ⟨s, hs, h⟩ := (Option.any_eq_true _ _).mp hrun
  simp only [Bool.and_eq_true, decide_eq_true_eq] at h
  obtain ⟨⟨hn, hrep⟩, hzero⟩ := h
  have hreach : ReachableIf specimen (fun _ _ => True) s := ⟨s, [], ⟨_, _, hs⟩, .nil s⟩
  have hrange := (reachable_accounted hreach).range
  refine ⟨s, hs, set_again hreach (fun i j hi hj _ => ?_) (names hostB) numericNtop hrep hzero⟩
  have h1 := hrange i hi
  have h2 := hrange j hj
  omega

/-- An entry that is only added is there twice. -/
theorem set_not_again : ¬ ∀ resolve s text, ReachableIf specimen (fun _ _ => True) s →
    (wgSessionSetUapi specimen resolve s text).1 = 0 →
    (wgSessionSetUapi specimen resolve (wgSessionSetUapi specimen resolve s text).2 text).1 = 0
      ∧ (activePeers (wgSessionSetUapi specimen resolve
          (wgSessionSetUapi specimen resolve s text).2 text).2).map WgsPeer.info
        = (activePeers (wgSessionSetUapi specimen resolve s text).2).map WgsPeer.info
      ∧ (∀ addr : Bytes, addr.length = 4 →
        aipsLookup (wgSessionSetUapi specimen resolve
            (wgSessionSetUapi specimen resolve s text).2 text).2.aipsV4 addr
          = aipsLookup (wgSessionSetUapi specimen resolve s text).2.aipsV4 addr)
      ∧ ∀ addr : Bytes, addr.length = 16 →
        aipsLookup (wgSessionSetUapi specimen resolve
            (wgSessionSetUapi specimen resolve s text).2 text).2.aipsV6 addr
          = aipsLookup (wgSessionSetUapi specimen resolve s text).2.aipsV6 addr := by
  intro hall
  have hrun : sessionA.any (fun s =>
      let text := ("public_key=" ++ hexB ++ "\nallowed_ip=10.0.0.9/32\n").toList
      let r := wgSessionSetUapi specimen (names hostB) s text
      decide (r.1 = 0) && decide ((activePeers (wgSessionSetUapi specimen (names hostB) r.2 text).2).map
        WgsPeer.info ≠ (activePeers r.2).map WgsPeer.info)) = true := by
    decide +kernel
  obtain ⟨s, hs, h⟩ := (Option.any_eq_true _ _).mp hrun
  simp only [Bool.and_eq_true, decide_eq_true_eq] at h
  exact h.2 (hall (names hostB) s _ ⟨s, [], ⟨_, _, hs⟩, .nil s⟩ h.1).2.1

end PolarWG
