import PolarWG.Proofs.Identity
import PolarWG.Proofs.Frame

/-!
# Listed and routed

A peer's list is its own, and a prefix belongs to one slot: of the peers that list it, to the last.
So every peer has what it lists exactly as long as no two list the same, and an `allowed_ip` line is
the only one that can bring that about.
-/

namespace PolarWG

open Specimen

variable {p : Prims} {s s' : WgSession} {resolve : Resolver}

/-- What identifies an entry: the family, the masked address and the prefix length. -/
def WgsAllowedCidr.net (c : WgsAllowedCidr) : ℕ × ℕ × ℕ :=
  (c.family, c.masked (if c.family = afInet then 32 else 128))

/-- The slot that the entry for exactly the prefix of `c` leads to. -/
def routeOf (s : WgSession) (c : WgsAllowedCidr) : Option ℕ :=
  (if c.family = afInet then s.aipsV4 else s.aipsV6).root.find (addrBits c.addr 0 c.prefixLen)

/-- What a peer lists is routed to it. -/
def Owning (s : WgSession) : Prop :=
  ∀ i, (s.peers i).active → ∀ c ∈ (s.peers i).allowed, routeOf s c = some i

/-- No two peers in use list the same prefix. -/
def OwnLists (peers : ℕ → WgsPeer) : Prop :=
  ∀ i j, (peers i).active → (peers j).active → ∀ c ∈ (peers i).allowed, ∀ d ∈ (peers j).allowed,
    c.net = d.net → i = j

/-- No two sections of a configuration text, as it is parsed, list the same prefix. -/
def SectionsApart (p : Prims) (text : Text) : Prop :=
  ∀ s, parseConfigText p text = some s → ∀ i < s.nPeers, ∀ j < s.nPeers,
    ∀ c ∈ (s.peers i).allowed, ∀ d ∈ (s.peers j).allowed, c.net = d.net → i = j

/-- A guard on `allowed_ip` lines: no other peer in use lists the prefix. -/
def OnNewPrefix (p : Prims) (s : WgSession) (cur : Option ℕ) (key val : Text) : Prop :=
  key = "allowed_ip".toList → ∀ i c, cur = some i → parseCidr p val = some c →
    ∀ j ≠ i, (s.peers j).active → ∀ d ∈ (s.peers j).allowed, d.net ≠ c.net

/-! ## Exact entries -/

theorem mem_activeEntries {c : WgsAllowedCidr} {i : ℕ} : (c, i) ∈ activeEntries s
    ↔ i < s.nPeers ∧ (s.peers i).active ∧ c ∈ (s.peers i).allowed := by
  unfold activeEntries slotEntries
  rw [List.mem_flatMap]
  constructor
  · rintro ⟨j, hj, hc⟩
    split at hc
    · next ha =>
      obtain ⟨d, hd, he⟩ := List.mem_map.mp hc
      obtain ⟨rfl, rfl⟩ := Prod.mk.inj he
      exact ⟨List.mem_range.mp hj, ha, hd⟩
    · cases hc
  · rintro ⟨hi, ha, hc⟩
    refine ⟨i, List.mem_range.mpr hi, ?_⟩
    rw [if_pos ha]
    exact List.mem_map.mpr ⟨c, hc, rfl⟩

theorem addrBits_take {addr : Bytes} {k n : ℕ} (h : n ≤ 8 * k) :
    addrBits (addr.take k) 0 n = addrBits addr 0 n := by
  have := addrBits_slice addr 0 k
  rw [List.drop_zero, slice, List.drop_zero] at this
  rw [← take_addrBits _ h, this, take_addrBits _ h]

theorem Represents.find_entry {t : AipsTrie ℕ} {m : ℕ × ℕ → Option ℕ} {k : ℕ}
    (h : Represents t m (8 * k)) {c : WgsAllowedCidr} (ha : k ≤ c.addr.length)
    (hn : c.prefixLen ≤ 8 * k) :
    t.root.find (addrBits c.addr 0 c.prefixLen) = m (c.masked (8 * k)) := by
  have hk : 8 * k / 8 = k := by omega
  have hlen : 8 * (c.addr.take k).length = 8 * k := by
    rw [List.length_take, min_eq_left ha]
  rw [← addrBits_take hn, h.find _ (by rw [length_addrBits]; exact hn), prefixKey_addrBits hlen hn,
    WgsAllowedCidr.masked, hk]

theorem Tabled.routeOf {l : List (WgsAllowedCidr × ℕ)} (h : Tabled s l) {c : WgsAllowedCidr}
    (hc : c.Formed) : routeOf s c
      = (l.reverse.find? fun e => e.1.net = c.net).map Prod.snd := by
  have hnet : ∀ {w : ℕ}, w = (if c.family = afInet then 32 else 128) → ∀ e : WgsAllowedCidr × ℕ,
      (e.1.family = c.family ∧ e.1.masked w = c.masked w) ↔ e.1.net = c.net := fun hw e => by
    unfold WgsAllowedCidr.net
    constructor
    · rintro ⟨hf, hm⟩
      rw [hf, ← hw, hm]
    · intro he
      obtain ⟨hf, hm⟩ := Prod.mk.inj he
      rw [hf, ← hw] at hm
      exact ⟨hf, hm⟩
  unfold PolarWG.routeOf
  by_cases hf : c.family = afInet
  · rw [if_pos hf, Represents.find_entry (k := 4) h.v4 (by rw [hc.addr]; omega) (hc.v4 hf),
      lastEntry]
    simp only [← hf, hnet (w := 8 * 4) (by rw [if_pos hf])]
  · obtain ⟨hf', hn⟩ := hc.v6 hf
    rw [if_neg hf, Represents.find_entry (k := 16) h.v6 hc.addr.ge hn, lastEntry]
    simp only [← hf', hnet (w := 8 * 16) (by rw [if_neg hf])]

/-- Of the peers that list a prefix, it is routed to the last. -/
theorem owning_iff_apart (hacc : Accounted p s) (hs : Sound p s) (ht : Tabled s (activeEntries s)) :
    Owning s ↔ OwnLists s.peers := by
  constructor
  · intro hown i j hi hj c hc d hd hnet
    have h1 := hown i hi c hc
    have h2 := hown j hj d hd
    rw [ht.routeOf (hs.formed i c hc), hnet, ← ht.routeOf (hs.formed j d hd), h2] at h1
    exact (Option.some.inj h1).symm
  · intro hap i hi c hc
    have hmem : (c, i) ∈ (activeEntries s).reverse :=
      List.mem_reverse.mpr (mem_activeEntries.mpr ⟨hacc.range i hi, hi, hc⟩)
    rw [ht.routeOf (hs.formed i c hc)]
    rcases hf : (activeEntries s).reverse.find? fun e => e.1.net = c.net with _ | ⟨d, j⟩
    · exact absurd (decide_eq_true rfl) (List.find?_eq_none.mp hf (c, i) hmem)
    · have hnet : d.net = c.net := by simpa using List.find?_some hf
      obtain ⟨-, hj, hd⟩ := mem_activeEntries.mp (List.mem_reverse.mp (List.mem_of_find?_eq_some hf))
      rw [hf, Option.map_some, hap j i hj hi d hd c hc hnet]

/-! ## Lines -/

theorem OwnLists.modPeer (h : OwnLists s.peers) {i : ℕ} {f : WgsPeer → WgsPeer}
    (hf : (f (s.peers i)).active → ∀ c ∈ (f (s.peers i)).allowed,
      ((s.peers i).active ∧ c ∈ (s.peers i).allowed)
        ∨ ∀ j ≠ i, (s.peers j).active → ∀ d ∈ (s.peers j).allowed, d.net ≠ c.net) :
    OwnLists (s.modPeer i f).peers := by
  intro j k hj hk c hc d hd hnet
  rw [modPeer_peers] at hj hk hc hd
  split_ifs at hj hk hc hd with hji hki hki
  · rw [hji, hki]
  · rcases hf hj c hc with ⟨ha, hc'⟩ | hno
    · rw [hji]
      exact h i k ha hk c hc' d hd hnet
    · exact absurd hnet.symm (hno k hki hk d hd)
  · rcases hf hk d hd with ⟨ha, hd'⟩ | hno
    · rw [hki]
      exact h j i hj ha c hc d hd' hnet
    · exact absurd hnet (hno j hji hj c hc)
  · exact h j k hj hk c hc d hd hnet

theorem setPeerKey_apart {i : ℕ} {key val : Text} (ha : (s.peers i).active) (h : OwnLists s.peers)
    (hok : OnNewPrefix p s (some i) key val) :
    OwnLists (setPeerKey p resolve s i key val).session.peers := by
  have edit : ∀ {f : WgsPeer → WgsPeer}, (f (s.peers i)).allowed = (s.peers i).allowed →
      OwnLists (s.modPeer i f).peers := fun hl => h.modPeer fun _ c hc => .inl ⟨ha, hl ▸ hc⟩
  unfold setPeerKey
  split
  · split
    · simp only [SetResult.session, peerTombstone]
      split <;> exact OwnLists.modPeer (f := fun _ => .blank) h fun hb => by cases hb
    · exact h
  split
  · split
    · exact h
    · next psk _ =>
      have h1 : OwnLists (s.modPeer i fun peer =>
          { peer with psk, hasPsk := ¬ psk.all (· = 0) }).peers := edit rfl
      simp only []
      split <;> exact h1
  split
  · split
    · exact h
    · next peer hpeer =>
      obtain ⟨host, port, addr, len, rfl⟩ := peerSetEndpointStr_some hpeer
      simp only [SetResult.session]
      exact edit rfl
  split
  · simp only []
    split
    · exact h
    · simp only [SetResult.session]
      exact edit rfl
  split
  · split
    · exact OwnLists.modPeer (f := fun peer => { peer with allowed := [] }) h
        fun _ _ hc => absurd hc List.not_mem_nil
    · exact h
  split
  · next hkey =>
    split
    · exact h
    split
    · exact h
    · next c hc =>
      refine OwnLists.modPeer (f := fun peer => { peer with allowed := peer.allowed ++ [c] }) h
        fun _ d hd => ?_
      rcases List.mem_append.mp hd with hd | hd
      · exact .inl ⟨ha, hd⟩
      · obtain rfl := List.mem_singleton.mp hd
        exact .inr (hok hkey i d rfl hc)
  · exact h

theorem setPublicKey_apart {val : Text} (h : OwnLists s.peers) :
    OwnLists (setPublicKey p s val).session.peers := by
  unfold setPublicKey
  split
  · exact h
  next pk _ =>
  split
  · exact h
  split
  · next h₁ =>
    rw [SetResult.session, allocPeerSlot_none h₁]
    exact h
  next s₁ i h₁ =>
  obtain ⟨hp₁, -⟩ := allocPeerSlot_outside h₁
  have hinit : ∀ {s' ok}, peerInitRuntime p s₁ i pk = (s', ok) → OwnLists s'.peers := fun {s' ok} hs => by
    obtain ⟨peer, hpeers, -, -, hinfo⟩ := peerInitRuntime_slot hs
    have hnone : peer.allowed = [] := congrArg PeerInfo.allowed hinfo
    rw [hpeers, hp₁]
    exact OwnLists.modPeer (f := fun _ => peer) h fun _ c hc => by
      rw [hnone] at hc
      cases hc
  split
  · next h₂ => exact hinit h₂
  · next h₂ => exact hinit h₂

theorem setLine_apart {cur : Option ℕ} {line : Text} (hcur : ∀ i, cur = some i → (s.peers i).active)
    (h : OwnLists s.peers)
    (hok : ∀ key val, uapiLine line = some (key, val) → OnNewPrefix p s cur key val) :
    OwnLists (setLine p resolve s cur line).session.peers := by
  unfold setLine
  split
  · exact h
  next key val hline =>
  unfold setKey
  split
  · exact h
  split
  · exact h
  split
  · simp only []
    split <;> exact h
  split
  · exact setPublicKey_apart h
  split
  · exact h
  · next i => exact setPeerKey_apart (hcur i rfl) h (hok key val hline)

theorem setLines_apart : ∀ (lines : List Text) {s : WgSession} {cur : Option ℕ}, Accounted p s →
    (∀ i, cur = some i → (s.peers i).active) → OwnLists s.peers →
    SetAllowed p resolve (OnNewPrefix p) lines s cur → OwnLists (setLines p resolve lines s cur).2.peers
  | [], _, _, _, _, h, _ => h
  | line :: lines, s, cur, hacc, hcur, h, hok => by
    obtain ⟨hline, hrest⟩ := hok
    have hd : OwnLists (setLine p resolve s cur line).session.peers := setLine_apart hcur h hline
    unfold setLines
    split
    · next e =>
      rw [e] at hd
      exact hd
    · next e =>
      obtain ⟨hacc', hcur'⟩ := setLine_next hacc hcur e
      rw [e] at hd hrest
      exact setLines_apart lines hacc' hcur' hd hrest

/-! ## Runs -/

theorem OwnLists.of_same (h : OwnLists s.peers) (hs : SameConfig s s') : OwnLists s'.peers := by
  obtain ⟨-, hcfg⟩ := hs
  have ha : ∀ i, (s'.peers i).active = (s.peers i).active := fun i =>
    congrArg PeerConfig.active (hcfg i)
  have hl : ∀ i, (s'.peers i).allowed = (s.peers i).allowed := fun i =>
    congrArg PeerConfig.allowed (hcfg i)
  intro i j hi hj c hc d hd
  exact h i j (ha i ▸ hi) (ha j ▸ hj) c (hl i ▸ hc) d (hl j ▸ hd)

theorem sessionStep_apart (hacc : Accounted p s) (h : OwnLists s.peers) {call : Call}
    {out : List Upcall} (hok : Guarded p (OnNewPrefix p) s call)
    (hs : sessionStep p s call = some (s', out)) : OwnLists s'.peers := by
  by_cases hc : call.isRequest
  · cases call with
    | setUapi resolve text =>
      simp only [sessionStep, Option.some.injEq, Prod.mk.injEq] at hs
      have hd := setLines_apart (strtok '\n' (cstr text)) hacc (fun _ hc => by cases hc) h hok
      obtain ⟨-, hpeers, -⟩ := rebuildAips_outside
        (setLines p resolve (strtok '\n' (cstr text)) s none).2
      rw [← hs.1, show (wgSessionSetUapi p resolve s text).2.peers = _ from hpeers]
      exact hd
    | _ => cases hc
  · exact h.of_same (sessionStep_sameConfig hc hs)

/-- A created session's lists are those of the sections. -/
theorem created_apart_iff {text : Text} (h : wgSessionCreate p resolve text = some s) :
    OwnLists s.peers ↔ SectionsApart p text := by
  obtain ⟨-, hact⟩ := created_keys h
  obtain ⟨hacc, -⟩ := created_accounted ⟨resolve, text, h⟩
  obtain ⟨s₀, s₁, hparse, hs₁, -, hpeers, hN⟩ := created_slots h
  obtain ⟨-, -, hn, -⟩ := createPeers_tries hs₁
  have hlist : ∀ i, (s₁.peers i).allowed = (s₀.peers i).allowed :=
    foldlM_inv (f := createPeer p resolve)
      (fun s => ∀ i, (s.peers i).allowed = (s₀.peers i).allowed)
      (fun _ _ _ hs h j => (congrArg PeerConfig.allowed (createPeer_config h j)).trans (hs j))
      (by exact fun _ => rfl) hs₁
  have hrange := hacc.range
  rw [hpeers] at hact hrange ⊢
  rw [hN, hn] at hact hrange
  constructor
  · intro hap s hs i hi j hj c hc d hd
    obtain rfl : s₀ = s := Option.some.inj (hparse.symm.trans hs)
    exact hap i j (hact i hi) (hact j hj) c (by rw [hlist]; exact hc) d (by rw [hlist]; exact hd)
  · intro hsec i j hi hj c hc d hd
    rw [hlist] at hc hd
    exact hsec s₀ hparse i (hrange i hi) j (hrange j hj) c hc d hd

/-- As long as the sections list prefixes of their own and requests add to a peer only prefixes
that no other peer in use lists, what a peer lists is routed to it. -/
theorem listed_routed {text : Text} {s₀ : WgSession} {calls : List Call}
    (h : wgSessionCreate p resolve text = some s₀) (hsec : SectionsApart p text)
    (hrun : Run (sessionStep p) (Guarded p (OnNewPrefix p)) s₀ calls s) :
    Owning s ∧ OwnLists s.peers := by
  have hcreated : Created p s₀ := ⟨resolve, text, h⟩
  have hinv := hrun.invariant (fun s => Accounted p s ∧ OwnLists s.peers)
    ⟨(created_accounted hcreated).1, (created_apart_iff h).mpr hsec⟩
    fun s call s' o hs hok hst =>
      ⟨sessionStep_accounted hs.1 hst, sessionStep_apart hs.1 hs.2 hok hst⟩
  have hreach : ReachableIf p (Guarded p (OnNewPrefix p)) s := ⟨s₀, calls, hcreated, hrun⟩
  exact ⟨(owning_iff_apart hinv.1 (reachable_sound hreach) (reachable_tabled hreach)).mpr hinv.2,
    hinv.2⟩

theorem listed_routed_two : ∃ s₀, wgSessionCreate specimen (names hostB) (twoSections keyC) = some s₀
    ∧ Owning s₀ ∧ OwnLists s₀.peers := by
  have hrun : (wgSessionCreate specimen (names hostB) (twoSections keyC)).isSome
      ∧ (parseConfigText specimen (twoSections keyC)).all (fun s => (List.range s.nPeers).all fun i =>
        (List.range s.nPeers).all fun j => decide (i = j) || (s.peers i).allowed.all fun c =>
          (s.peers j).allowed.all fun d => decide (c.net ≠ d.net)) = true := by
    decide +kernel
  obtain ⟨s₀, hs⟩ := Option.isSome_iff_exists.mp hrun.1
  refine ⟨s₀, hs, listed_routed hs (fun s hparse i hi j hj c hc d hd hnet => ?_) (.nil s₀)⟩
  have h := hrun.2
  rw [hparse, Option.all_some] at h
  simp only [List.all_eq_true, List.mem_range, Bool.or_eq_true, decide_eq_true_eq] at h
  rcases h i hi j hj with hij | hno
  · exact hij
  · exact absurd hnet (hno c hc d hd)

/-- The request that gives the peer B the address that C lists. -/
def moving : Text := ("public_key=" ++ hexB ++ "\nallowed_ip=10.0.0.3/32\n").toList

/-- B lists what it was given, and the address stays C's. -/
theorem listed_not_routed :
    ¬ ∀ s, ReachableIf specimen (fun _ _ => True) s → Owning s := by
  intro hall
  have hrun : (wgSessionCreate specimen (names hostB) (twoSections keyC)).any (fun s =>
      let s' := (wgSessionSetUapi specimen (names hostB) s moving).2
      (s'.peers 0).active && (s'.peers 0).allowed.any fun c => decide (routeOf s' c = some 1))
        = true := by
    decide +kernel
  obtain ⟨s, hs, h⟩ := (Option.any_eq_true _ _).mp hrun
  simp only [Bool.and_eq_true, List.any_eq_true, decide_eq_true_eq] at h
  obtain ⟨ha, c, hc, hroute⟩ := h
  have hreach : ReachableIf specimen (fun _ _ => True)
      (wgSessionSetUapi specimen (names hostB) s moving).2 :=
    ⟨s, [.setUapi (names hostB) moving], ⟨_, _, hs⟩, .cons trivial rfl (.nil _)⟩
  have := hall _ hreach 0 ha c hc
  rw [hroute] at this
  simp at this

end PolarWG
