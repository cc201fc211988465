import PolarWG.Proofs.Nonces
import PolarWG.Proofs.Restore
import PolarWG.Proofs.Routes

/-!
# A key and its peer

Requests look a key up before they add it; the parser of configuration texts does not. As long as
no two peers have one key, the slot found for a key, the remote found for it and the slot its
addresses are routed to are the same. With two sections of one key they are not from the start.
-/

namespace PolarWG

open Specimen

variable {p : Prims} {s s' : WgSession}

/-- The keys read so far, one for each `[Peer]` section, and whether the line is in one. -/
def scanKeys (k : Bool × List Bytes) (line : Text) : Bool × List Bytes :=
  match wgsTrim line with
  | [] => k
  | t@(ch :: _) =>
    if ch = '#' ∨ ch = ';' then k
    else if ch = '[' then
      if startsWith t "[Peer]".toList then (true, k.2 ++ [zeros 32]) else (false, k.2)
    else match strchr '=' t with
    | none => k
    | some (key, val) =>
      if k.1 ∧ wgsTrim key = "PublicKey".toList then
        match decodeBase64 (wgsTrim val) with
        | some pubkey => (true, k.2.dropLast ++ [pubkey])
        | none => k
      else k

/-- The key of each `[Peer]` section of a configuration text, the last one it gives. -/
def sectionKeys (text : Text) : List Bytes :=
  ((strtok '\n' (cstr text)).foldl scanKeys (false, [])).2

/-- A key stands for one peer: the slot found for it is the slot of the remote found for it and the
slot its addresses are routed to. -/
structure Identified (s : WgSession) : Prop where
  distinct : Distinct s
  slot : ∀ i, (s.peers i).active → findPeerByPubkey s (s.peers i).pubkey = some i
  remote : ∀ i, (s.peers i).active → ∃ r, (s.peers i).remote = some r
    ∧ (noiseRemoteLookup s.noise (s.peers i).pubkey).2 = some r ∧ (s.noise.remotes r).rArg = i
  routes : ∀ addr i, aipsLookup s.aipsV4 addr = some i ∨ aipsLookup s.aipsV6 addr = some i →
    (s.peers i).active ∧ findPeerByPubkey s (s.peers i).pubkey = some i

/-! ## Peers with keys of their own -/

theorem Distinct.slot (h : Distinct s) (hacc : Accounted p s) {i : ℕ} (ha : (s.peers i).active) :
    findPeerByPubkey s (s.peers i).pubkey = some i := by
  rcases hf : findPeerByPubkey s (s.peers i).pubkey with _ | j
  · exact absurd (decide_eq_true ⟨ha, rfl⟩)
      (List.find?_eq_none.mp hf i (List.mem_range.mpr (hacc.range i ha)))
  · obtain ⟨-, hj, hk⟩ := findPeerByPubkey_some hf
    rw [h j i hj ha hk]

/-- The remotes found by key are those of the peers in use, each under its peer's key. -/
theorem Distinct.remote (h : Distinct s) (hacc : Accounted p s) {i : ℕ}
    (ha : (s.peers i).active) : ∃ r, (s.peers i).remote = some r
      ∧ (noiseRemoteLookup s.noise (s.peers i).pubkey).2 = some r
      ∧ (s.noise.remotes r).rArg = i := by
  obtain ⟨_, t, hr, ht, rfl, -, -, -, -, hpub, -⟩ := tenant_of_active hacc ha
  obtain ⟨-, -, harg, htp⟩ := hacc.ledger.owner i t ht
  have hen : (s.noise.remotes t.remote).rEntryInserted := (hacc.ledger.owned _).mpr ⟨i, t, ht, rfl⟩
  refine ⟨t.remote, hr, ?_, harg⟩
  have hmem : t.remote ∈ s.noise.lRemoteHash := (hacc.ledger.enabled _).mpr hen
  have hkey : (s.noise.remotes t.remote).rPublic = (s.peers i).pubkey := htp.trans hpub
  unfold noiseRemoteLookup
  rcases hf : s.noise.lRemoteHash.find?
    fun r => (s.noise.remotes r).rPublic = (s.peers i).pubkey with _ | r
  · exact absurd (decide_eq_true hkey) (List.find?_eq_none.mp hf _ hmem)
  have hrk : (s.noise.remotes r).rPublic = (s.peers i).pubkey := by
    simpa using List.find?_some hf
  obtain ⟨j, u, hu, rfl⟩ := (hacc.ledger.owned r).mp
    ((hacc.ledger.enabled r).mp (List.mem_of_find?_eq_some hf))
  obtain ⟨haj, -⟩ := active_of_tenant hu
  obtain ⟨_, u', -, hu', -, -, -, -, -, hpub', -⟩ := tenant_of_active hacc haj
  obtain rfl : u = u' := Option.some.inj (hu.symm.trans hu')
  obtain rfl : j = i :=
    h j i haj ha (hpub'.symm.trans ((hacc.ledger.owner j u hu).2.2.2.symm.trans hrk))
  obtain rfl : u = t := Option.some.inj (hu.symm.trans ht)
  -- the slot holds a reference, so the remote has not been freed
  have hcount := hacc.counted.remoteCount u.remote
  simp only [Links.refs] at hcount
  rw [show (s.noise.links.remotes u.remote).enabled = true from hen] at hcount
  have hlive : (s.noise.remotes u.remote).rRefcnt ≠ 0 := by
    simp only [Bool.toNat_true] at hcount
    omega
  simp only [noiseRemoteAcquire, if_neg hlive]

theorem Distinct.identified (h : Distinct s) (hacc : Accounted p s) (hr : RoutesMatch s) :
    Identified s where
  distinct := h
  slot := fun _ ha => h.slot hacc ha
  remote := fun _ ha => h.remote hacc ha
  routes := fun addr i hl => ⟨(hr.active addr i hl).2, h.slot hacc (hr.active addr i hl).2⟩

theorem sessionStep_distinct (hacc : Accounted p s) (h : Distinct s) {call : Call}
    {out : List Upcall} (hs : sessionStep p s call = some (s', out)) : Distinct s' := by
  by_cases hc : call.isRequest
  · cases call with
    | setUapi resolve text =>
      simp only [sessionStep, Option.some.injEq, Prod.mk.injEq] at hs
      have hcur : ∀ i, (none : Option ℕ) = some i → (s.peers i).active := by simp
      have hd := setLines_distinct (p := p) resolve (strtok '\n' (cstr text)) hacc hcur h
      obtain ⟨-, hpeers, -⟩ := rebuildAips_outside
        (setLines p resolve (strtok '\n' (cstr text)) s none).2
      rw [← hs.1]
      exact hd.of_same fun i hi => by
        rw [show (wgSessionSetUapi p resolve s text).2.peers = _ from hpeers] at hi ⊢
        exact ⟨hi, rfl⟩
    | _ => cases hc
  · obtain ⟨-, hcfg⟩ := sessionStep_sameConfig hc hs
    exact h.of_same fun i hi => ⟨(congrArg PeerConfig.active (hcfg i)).symm.trans hi,
      (congrArg PeerConfig.pubkey (hcfg i)).symm⟩

/-! ## Sections -/

/-- The parser and the scan at one line. -/
structure Scans (c : ConfigState) (k : Bool × List Bytes) : Prop where
  inPeer : k.1 = c.inPeer
  keys : k.2 = (List.range c.session.nPeers).map fun i => (c.session.peers i).pubkey
  last : c.inPeer → ∃ n, c.session.nPeers = n + 1 ∧ c.curPeer = some n
  rest : ∀ i, c.session.nPeers ≤ i → (c.session.peers i).pubkey = zeros 32

/-- The keys after a line that leaves the parser where it is. -/
theorem Scans.same {c c' : ConfigState} {k : Bool × List Bytes} (h : Scans c k)
    (hi : c'.inPeer = c.inPeer) (hp : c'.curPeer = c.curPeer)
    (hn : c'.session.nPeers = c.session.nPeers)
    (hk : ∀ i, (c'.session.peers i).pubkey = (c.session.peers i).pubkey) : Scans c' k where
  inPeer := h.inPeer.trans hi.symm
  keys := by simp only [hn, hk, h.keys]
  last := by rw [hi, hn, hp]; exact h.last
  rest := fun i hle => (hk i).trans (h.rest i (hn ▸ hle))

theorem configPeerKey_pubkey {key val : Text} {peer peer' : WgsPeer}
    (h : configPeerKey p key val peer = some peer') : if key = "PublicKey".toList then
      decodeBase64 val = some peer'.pubkey else peer'.pubkey = peer.pubkey := by
  unfold configPeerKey parseListCidrs at h
  split at h
  · next hk =>
    rw [if_pos hk]
    obtain ⟨pubkey, hd, rfl⟩ := Option.map_eq_some_iff.mp h
    exact hd
  next hk =>
  rw [if_neg hk]
  repeat' split at h
  all_goals
    simp only [Option.map_eq_some_iff, Option.some.injEq, Prod.exists, reduceCtorEq] at h
  all_goals first
    | (obtain ⟨_, -, rfl⟩ := h; rfl)
    | (obtain ⟨_, _, -, rfl⟩ := h; rfl)

theorem configKey_scans {c c' : ConfigState} {k : Bool × List Bytes} {key val : Text}
    (h : Scans c k) (hc : configKey p c key val = some c') :
    Scans c' (if k.1 ∧ key = "PublicKey".toList then
      match decodeBase64 val with
      | some pubkey => (true, k.2.dropLast ++ [pubkey])
      | none => k
    else k) := by
  have other : ∀ key' : Text, key' ≠ "PublicKey".toList → c.inInterface ∧ key = key' →
      ¬ (k.1 ∧ key = "PublicKey".toList) := fun key' hne hk hpk => hne (hk.2.symm.trans hpk.2)
  unfold configKey at hc
  simp only [] at hc
  split at hc
  · next hk =>
    rw [if_neg (other _ (by decide) hk)]
    obtain ⟨_, -, rfl⟩ := Option.map_eq_some_iff.mp hc
    exact h.same rfl rfl rfl fun _ => rfl
  split at hc
  · next hk =>
    rw [if_neg (other _ (by decide) hk)]
    split at hc
    · cases hc
    · exact Option.some.inj hc ▸ h.same rfl rfl rfl fun _ => rfl
  split at hc
  · next hk =>
    rw [if_neg (other _ (by decide) hk)]
    obtain ⟨_, -, rfl⟩ := Option.map_eq_some_iff.mp hc
    exact h.same rfl rfl rfl fun _ => rfl
  split at hc
  · next i hin hcur =>
    obtain ⟨n, hn, hlast⟩ := h.last hin
    obtain rfl : i = n := Option.some.inj (hcur.symm.trans hlast)
    obtain ⟨peer, hpeer, rfl⟩ := Option.map_eq_some_iff.mp hc
    have hpk := configPeerKey_pubkey hpeer
    have hpub : ∀ j, ((c.session.modPeer i fun _ => peer).peers j).pubkey
        = if j = i then peer.pubkey else (c.session.peers j).pubkey := fun j => by
      rw [modPeer_peers]
      split <;> rfl
    by_cases hkey : key = "PublicKey".toList
    · rw [if_pos hkey] at hpk
      rw [if_pos ⟨h.inPeer.trans hin, hkey⟩, hpk]
      refine ⟨hin.symm, ?_, fun _ => ⟨i, hn, hcur⟩, fun j hj => ?_⟩
      · show _ = (List.range c.session.nPeers).map _
        simp only [h.keys, hn, List.range_succ, List.map_append, List.map_cons, List.map_nil,
          List.dropLast_concat, hpub, if_true]
        congr 1
        refine List.map_congr_left fun j hj => ?_
        rw [if_neg (List.mem_range.mp hj).ne]
      · have hle : c.session.nPeers ≤ j := hj
        rw [hpub, if_neg (by omega)]
        exact h.rest j hj
    · rw [if_neg hkey] at hpk
      rw [if_neg fun h => hkey h.2]
      refine h.same rfl rfl rfl fun j => ?_
      rw [hpub, hpk]
      split
      · next e => rw [e]
      · rfl
  · next hno =>
    obtain rfl := Option.some.inj hc
    rw [if_neg]
    · exact h
    · rintro ⟨hin, -⟩
      obtain ⟨n, -, hlast⟩ := h.last (h.inPeer.symm.trans hin)
      exact hno n (h.inPeer.symm.trans hin) hlast

theorem configLine_scans {c c' : ConfigState} {k : Bool × List Bytes} {line : Text}
    (h : Scans c k) (hc : configLine p c line = some c') : Scans c' (scanKeys k line) := by
  unfold configLine at hc
  unfold scanKeys
  generalize wgsTrim line = t at hc ⊢
  rcases t with _ | ⟨ch, rest⟩
  · exact Option.some.inj hc ▸ h
  simp only [] at hc ⊢
  split at hc
  · next hch =>
    rw [if_pos hch]
    exact Option.some.inj hc ▸ h
  next hch =>
  rw [if_neg hch]
  split at hc
  · next hb =>
    rw [if_pos hb]
    split at hc
    · next hpeer =>
      rw [if_pos hpeer]
      split at hc
      · cases hc
      · obtain rfl := Option.some.inj hc
        refine ⟨hpeer.symm, ?_, fun _ => ⟨_, rfl, rfl⟩, fun i hi => h.rest i ?_⟩
        · simp only [List.range_succ, List.map_append, List.map_cons, List.map_nil, h.keys,
            h.rest _ le_rfl]
        · exact (Nat.le_succ _).trans hi
    · next hpeer =>
      rw [if_neg hpeer]
      obtain rfl := Option.some.inj hc
      exact ⟨by simpa using hpeer, h.keys, fun hin => absurd hin hpeer, h.rest⟩
  next hb =>
  rw [if_neg hb]
  rcases hkv : strchr '=' (ch :: rest) with _ | ⟨key, val⟩ <;> rw [hkv] at hc
  · exact Option.some.inj hc ▸ h
  · exact configKey_scans h hc

theorem configLines_scan : ∀ (lines : List Text) {c c' : ConfigState} {k : Bool × List Bytes},
    Scans c k → lines.foldlM (configLine p) c = some c' → Scans c' (lines.foldl scanKeys k)
  | [], c, c', k, h, hc => by
    simp only [List.foldlM_nil, Option.pure_def, Option.some.injEq] at hc
    exact hc ▸ h
  | line :: lines, c, c', k, h, hc => by
    simp only [List.foldlM_cons, Option.bind_eq_bind, Option.bind_eq_some_iff] at hc
    obtain ⟨c₁, h1, h2⟩ := hc
    exact configLines_scan lines (configLine_scans h h1) h2

/-- The slots of a created session are the sections of its text, in order. -/
theorem created_keys {resolve : Resolver} {text : Text}
    (h : wgSessionCreate p resolve text = some s) :
    sectionKeys text = (List.range s.nPeers).map (fun i => (s.peers i).pubkey)
      ∧ ∀ i < s.nPeers, (s.peers i).active := by
  obtain ⟨s₀, s₁, hparse, hs₁, -, hpeers, hN⟩ := created_slots h
  have hkeys : sectionKeys text = (List.range s₀.nPeers).map fun i => (s₀.peers i).pubkey := by
    unfold parseConfigText at hparse
    obtain ⟨c, hc, hparse⟩ := Option.bind_eq_some_iff.mp hparse
    have hsc : Scans c ((strtok '\n' (cstr text)).foldl scanKeys (false, [])) :=
      configLines_scan _ ⟨rfl, rfl, (fun h => by cases h), fun _ _ => rfl⟩ hc
    repeat' split at hparse
    all_goals simp only [Option.some.injEq, reduceCtorEq] at hparse
    exact hparse ▸ hsc.keys
  obtain ⟨-, -, hn, ha⟩ := createPeers_tries hs₁
  have hpub : ∀ i, (s₁.peers i).pubkey = (s₀.peers i).pubkey :=
    foldlM_inv (f := createPeer p resolve)
      (fun s => ∀ i, (s.peers i).pubkey = (s₀.peers i).pubkey)
      (fun _ _ _ hs h j => (congrArg PeerConfig.pubkey (createPeer_config h j)).trans (hs j))
      (by exact fun _ => rfl) hs₁
  rw [hpeers, hN, hn]
  refine ⟨?_, fun i hi => ha i (.inr (List.mem_range.mpr hi))⟩
  simp only [hpub]
  exact hkeys

theorem created_distinct_iff {resolve : Resolver} {text : Text}
    (h : wgSessionCreate p resolve text = some s) : Distinct s ↔ (sectionKeys text).Nodup := by
  obtain ⟨hkeys, hact⟩ := created_keys h
  obtain ⟨hacc, -⟩ := created_accounted ⟨resolve, text, h⟩
  rw [hkeys, List.nodup_map_iff_inj_on List.nodup_range]
  constructor
  · intro hd i hi j hj e
    exact hd i j (hact i (List.mem_range.mp hi)) (hact j (List.mem_range.mp hj)) e
  · intro hn i j hi hj e
    exact hn i (List.mem_range.mpr (hacc.range i hi)) j (List.mem_range.mpr (hacc.range j hj)) e

/-- A key stands for one peer in every state of every run if and only if no two sections of the
configuration text have one key. -/
theorem keys_identify_iff {resolve : Resolver} {text : Text} {s₀ : WgSession}
    (h : wgSessionCreate p resolve text = some s₀) :
    (∀ calls s, Run (sessionStep p) (fun _ _ => True) s₀ calls s → Identified s)
      ↔ (sectionKeys text).Nodup := by
  have hcreated : Created p s₀ := ⟨resolve, text, h⟩
  constructor
  · intro hall
    exact (created_distinct_iff h).mp (hall [] s₀ (.nil s₀)).distinct
  · intro hn calls s hrun
    have hinv := hrun.invariant (fun s => Accounted p s ∧ Distinct s)
      ⟨(created_accounted hcreated).1, (created_distinct_iff h).mpr hn⟩
      fun s call s' o hs _ hst =>
        ⟨sessionStep_accounted hs.1 hst, sessionStep_distinct hs.1 hs.2 hst⟩
    have hreach : ReachableIf p (fun _ _ => True) s := ⟨s₀, calls, hcreated, hrun⟩
    exact hinv.2.identified hinv.1 (routes_match hreach).1

/-- A configuration text with two sections. -/
def twoSections (pub : String) : Text :=
  conf keyA keyB ("AllowedIPs=10.0.0.2/32\n[Peer]\nPublicKey=" ++ pub ++ "\nAllowedIPs=10.0.0.3/32\n")

theorem keys_identify_two : ∃ s₀, wgSessionCreate specimen (names hostB) (twoSections keyC) = some s₀
    ∧ ∀ calls s, Run (sessionStep specimen) (fun _ _ => True) s₀ calls s → Identified s := by
  have hrun : (wgSessionCreate specimen (names hostB) (twoSections keyC)).isSome = true
      ∧ (sectionKeys (twoSections keyC)).Nodup := by
    decide +kernel
  obtain ⟨s₀, hs⟩ := Option.isSome_iff_exists.mp hrun.1
  exact ⟨s₀, hs, (keys_identify_iff hs).mpr hrun.2⟩

/-- Two sections with one key: the second peer's key finds the first slot. -/
theorem keys_not_identifying : ¬ ∀ resolve text s₀, wgSessionCreate specimen resolve text = some s₀ →
    ∀ calls s, Run (sessionStep specimen) (fun _ _ => True) s₀ calls s → Identified s := by
  intro hall
  have hrun : (wgSessionCreate specimen (names hostB) (twoSections keyB)).any (fun s =>
      (s.peers 1).active && decide (findPeerByPubkey s (s.peers 1).pubkey = some 0)) = true := by
    decide +kernel
  obtain ⟨s₀, hs, h⟩ := (Option.any_eq_true _ _).mp hrun
  simp only [Bool.and_eq_true, decide_eq_true_eq] at h
  have hslot := (hall _ _ s₀ hs [] s₀ (.nil s₀)).slot 1 h.1
  rw [h.2] at hslot
  simp at hslot

end PolarWG
