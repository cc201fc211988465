import PolarWG.Proofs.Renderers
import PolarWG.Proofs.Endpoints
import PolarWG.Proofs.Parsers

/-!
# What equal configurations share

Configurations are compared by sets of texts. As long as no bar and no comma is where the texts have
theirs, equal texts come from the same extras but for the case of their keys, and from the same
peers but for the order of their networks.
-/

namespace PolarWG

/-! ## Separators -/

theorem cut_inj {c : Char} {t t' u u' : Text} (ht : c ∉ t) (ht' : c ∉ t')
    (h : t ++ c :: u = t' ++ c :: u') : t = t' ∧ u = u' := by
  have h1 := @strchr_append c t u ht
  rw [h, strchr_append ht'] at h1
  obtain ⟨rfl, rfl⟩ := Prod.mk.inj (Option.some.inj h1)
  exact ⟨rfl, rfl⟩

/-- The same at the last separator. -/
theorem rcut_inj {c : Char} {t t' u u' : Text} (hu : c ∉ u) (hu' : c ∉ u')
    (h : t ++ c :: u = t' ++ c :: u') : t = t' ∧ u = u' := by
  have hrev := congrArg List.reverse h
  simp only [List.reverse_append, List.reverse_cons, List.append_assoc, List.singleton_append] at hrev
  obtain ⟨h1, h2⟩ := cut_inj (by simpa using hu) (by simpa using hu') hrev
  exact ⟨List.reverse_injective h2, List.reverse_injective h1⟩

theorem joined_inj {c : Char} {ts us : List Text} (ht : ∀ t ∈ ts, c ∉ t) (hu : ∀ u ∈ us, c ∉ u)
    (hts : ts ≠ [[]]) (hus : us ≠ [[]]) (h : joined [c] ts = joined [c] us) : ts = us := by
  have hsplit : ∀ {vs : List Text}, (∀ v ∈ vs, c ∉ v) → vs ≠ [] →
      (joined [c] vs).splitOn c = vs := fun hv hne => List.splitOn_intercalate c hv hne
  have hempty : ([] : Text).splitOn c = [[]] := rfl
  rcases ts with _ | ⟨t, ts⟩
  · rcases us with _ | ⟨u, us⟩
    · rfl
    · have := hsplit hu (by simp)
      rw [← h] at this
      exact absurd (this.symm.trans hempty) hus
  · rcases us with _ | ⟨u, us⟩
    · have := hsplit ht (by simp)
      rw [h] at this
      exact absurd (this.symm.trans hempty) hts
    · rw [← hsplit ht (by simp), h, hsplit hu (by simp)]

theorem fmtUnsigned_inj {m n : ℕ} (h : fmtUnsigned m = fmtUnsigned n) : m = n := by
  rw [← digitsNat_fmtUnsigned m, h, digitsNat_fmtUnsigned]

theorem fmtSigned_inj : ∀ {m n : ℤ}, fmtSigned m = fmtSigned n → m = n
  | .ofNat _, .ofNat _, h => congrArg Int.ofNat (fmtUnsigned_inj h)
  | .negSucc _, .negSucc _, h => by
    have := fmtUnsigned_inj (List.cons.inj h).2
    exact congrArg Int.negSucc (Nat.succ_injective this)
  | .ofNat m, .negSucc _, h =>
    absurd ((congrArg ('-' ∈ ·) h).mpr List.mem_cons_self) (not_mem_fmtUnsigned (n := m) (by decide))
  | .negSucc _, .ofNat n, h =>
    absurd ((congrArg ('-' ∈ ·) h).mp List.mem_cons_self) (not_mem_fmtUnsigned (n := n) (by decide))

theorem not_bar_fmtSigned : ∀ n : ℤ, '|' ∉ fmtSigned n
  | .ofNat n => not_mem_fmtUnsigned (n := n) (by decide)
  | .negSucc n => fun h => by
    rcases List.mem_cons.mp h with h | h
    · cases h
    · exact not_mem_fmtUnsigned (by decide) h

/-! ## Keys -/

/-- The separators of a peer's key are in none of its parts. -/
structure WGPeerSection.Plain (peer : WGPeerSection) : Prop where
  publicKey : '|' ∉ peer.publicKey
  endpoint : '|' ∉ peer.endpoint.getD []
  networks : ∀ t ∈ peer.allowedIPs, ',' ∉ t
  notEmpty : peer.allowedIPs ≠ [[]]

/-- The same peer, an interval of zero being none. -/
structure WGPeerSection.Same (peer other : WGPeerSection) : Prop where
  publicKey : peer.publicKey = other.publicKey
  endpoint : peer.endpoint.getD [] = other.endpoint.getD []
  networks : peer.allowedIPs.Perm other.allowedIPs
  keepalive : peer.keepalive.getD 0 = other.keepalive.getD 0

theorem sortedTexts_perm (ts : List Text) : (sortedTexts ts).Perm ts := List.perm_insertionSort _ ts

theorem semanticKey_inj {peer other : WGPeerSection} (hp : peer.Plain) (ho : other.Plain)
    (h : peer.semanticKey = other.semanticKey) : peer.Same other := by
  unfold WGPeerSection.semanticKey at h
  obtain ⟨hkey, h⟩ := cut_inj hp.publicKey ho.publicKey h
  obtain ⟨hend, h⟩ := cut_inj hp.endpoint ho.endpoint h
  obtain ⟨hips, hnum⟩ := rcut_inj (not_bar_fmtSigned _) (not_bar_fmtSigned _) h
  have hsorted : sortedTexts peer.allowedIPs = sortedTexts other.allowedIPs := by
    refine joined_inj (fun t ht => hp.networks t ((sortedTexts_perm _).mem_iff.mp ht))
      (fun t ht => ho.networks t ((sortedTexts_perm _).mem_iff.mp ht)) (fun hs => ?_) (fun hs => ?_)
      hips
    · exact hp.notEmpty (List.perm_singleton.mp (hs ▸ (sortedTexts_perm peer.allowedIPs).symm))
    · exact ho.notEmpty (List.perm_singleton.mp (hs ▸ (sortedTexts_perm other.allowedIPs).symm))
  exact ⟨hkey, hend, (sortedTexts_perm _).symm.trans (hsorted ▸ sortedTexts_perm _),
    fmtSigned_inj hnum⟩

/-! ## What is read and what is built -/

/-- Whatever the agent has for a configuration. -/
inductive Obtained : WGConfig → Prop where
  | parse {text : Text} {config : WGConfig} (h : WGConfig.parse text = some config) :
    Obtained config
  | build {existing config : WGConfig} {response : PeersResponse} {fallbackDeviceIP : Option Text}
    {fallbackListenPort : ℤ} (he : Obtained existing)
    (h : WGConfig.build (some existing) response fallbackDeviceIP fallbackListenPort
      = some config) : Obtained config

/-- What the parser and the builder keep of the parts they cut. -/
structure WGConfig.Cut (config : WGConfig) : Prop where
  extras : ∀ kv ∈ config.interface.extras, '=' ∉ kv.key
  endpoints : ∀ peer ∈ config.peers, peer.endpoint ≠ some []

structure ConfState.Cut (c : ConfState) : Prop where
  extras : ∀ kv ∈ c.interface.extras, '=' ∉ kv.key
  peers : ∀ peer ∈ c.peers, peer.endpoint ≠ some []
  cur : ∀ peer, c.cur = some peer → peer.endpoint ≠ some []

theorem ConfState.Cut.flushPeer {c : ConfState} (h : c.Cut) : c.flushPeer.Cut := by
  refine ⟨h.extras, fun peer hp => ?_, fun _ hsome => by cases hsome⟩
  unfold ConfState.flushPeer at hp
  simp only [] at hp
  split at hp
  · next cur hcur =>
    split_ifs at hp
    · rcases List.mem_append.mp hp with hp | hp
      · exact h.peers peer hp
      · rw [List.mem_singleton.mp hp]
        exact h.cur cur hcur
    · exact h.peers peer hp
  · exact h.peers peer hp

theorem peerKey_cut {p : WGPeerSection} (h : p.endpoint ≠ some []) (key value : Text) :
    (peerKey p key value).endpoint ≠ some [] := by
  unfold peerKey
  split_ifs with h1 h2 hv
  · exact h
  · exact fun he => by cases he
  · exact fun he => hv (Option.some.inj he)
  · exact h
  · exact h
  · exact h

theorem confKey_cut {c : ConfState} (h : c.Cut) {key : Text} (hkey : '=' ∉ key) (value : Text) :
    (confKey c key value).Cut := by
  unfold confKey
  split
  · refine ⟨fun kv hkv => ?_, h.peers, h.cur⟩
    unfold interfaceKey at hkv
    split_ifs at hkv
    · exact h.extras kv hkv
    · exact h.extras kv hkv
    · exact h.extras kv hkv
    · rcases List.mem_append.mp hkv with hkv | hkv
      · exact h.extras kv hkv
      · rw [List.mem_singleton.mp hkv]
        exact hkey
  · refine ⟨h.extras, h.peers, fun peer hp => ?_⟩
    obtain ⟨p, hcur, rfl⟩ := Option.map_eq_some_iff.mp hp
    exact peerKey_cut (h.cur p hcur) key value
  · exact h

theorem mem_of_mem_trimmed {c : Char} {t : Text} (h : c ∈ trimmed t) : c ∈ t :=
  (List.dropWhile_sublist _).mem ((List.rdropWhile_prefix _ _).mem h)

theorem confLine_cut {c : ConfState} (h : c.Cut) (rawLine : Text) : (confLine c rawLine).Cut := by
  unfold confLine
  split
  · exact h
  · split_ifs
    · exact h
    · simp only []
      split_ifs
      · exact ⟨h.flushPeer.extras, h.flushPeer.peers, h.flushPeer.cur⟩
      · refine ⟨h.flushPeer.extras, h.flushPeer.peers, fun peer hp => ?_⟩
        cases hp
        exact fun he => by cases he
      · exact ⟨h.flushPeer.extras, h.flushPeer.peers, h.flushPeer.cur⟩
    · split
      · exact h
      · next key value hcut =>
        exact confKey_cut h (fun hmem => (strchr_some hcut).2 (mem_of_mem_trimmed hmem)) _

theorem foldl_confLine_cut : ∀ (lines : List Text) {c : ConfState}, c.Cut →
    (lines.foldl confLine c).Cut
  | [], _, h => h
  | l :: lines, _, h => foldl_confLine_cut lines (confLine_cut h l)

theorem Obtained.cut {config : WGConfig} (h : Obtained config) : config.Cut := by
  induction h with
  | @parse text config h =>
    have hc : ((splitLines text).foldl confLine .start).flushPeer.Cut :=
      (foldl_confLine_cut (splitLines text) ⟨fun _ hkv => (List.not_mem_nil hkv).elim,
        fun _ hp => (List.not_mem_nil hp).elim, fun _ hsome => by cases hsome⟩).flushPeer
    unfold WGConfig.parse at h
    simp only [] at h
    split_ifs at h
    cases h
    exact ⟨hc.extras, hc.peers⟩
  | build he h ih =>
    simp only [WGConfig.build, Option.bind_some] at h
    split_ifs at h
    cases h
    refine ⟨ih.extras, fun peer hp => ?_⟩
    obtain ⟨entry, -, hentry⟩ := List.mem_filterMap.mp hp
    unfold PeerEntry.peerSection at hentry
    split_ifs at hentry
    all_goals
      cases hentry
      simp [*]

/-! ## Equal meanings -/

/-- The same extras but for the case of their keys, and the same peers, either how often so ever. -/
structure SameMeaning (config other : WGConfig) : Prop where
  privateKey : config.interface.privateKey = other.interface.privateKey
  address : config.interface.address = other.interface.address
  listenPort : config.interface.listenPort = other.interface.listenPort
  extras : ∀ kv ∈ config.interface.extras, ∃ kv' ∈ other.interface.extras,
    lowercased kv.key = lowercased kv'.key ∧ kv.value = kv'.value
  peers : ∀ peer ∈ config.peers, ∃ peer' ∈ other.peers,
    peer.publicKey = peer'.publicKey ∧ peer.endpoint = peer'.endpoint
      ∧ peer.allowedIPs.Perm peer'.allowedIPs ∧ peer.keepalive.getD 0 = peer'.keepalive.getD 0

theorem not_mem_lowercased {t : Text} (h : '=' ∉ t) : '=' ∉ lowercased t := by
  intro hmem
  obtain ⟨c, hc, hlow⟩ := List.mem_map.mp hmem
  split_ifs at hlow with hkelvin
  · revert hlow
    decide
  have halpha : c.isAlpha = false := by
    rw [← Char.isAlpha_toLower_eq_isAlpha, hlow]
    decide
  have hupper : ¬ c.isUpper := fun hu => by
    rw [Char.isAlpha, hu] at halpha
    cases halpha
  rw [Char.toLower_eq_of_not_isUpper hupper] at hlow
  exact h (hlow ▸ hc)

/-- The keys of extras are cut where the values begin. -/
theorem extraKey_inj {kv kv' : WGKeyValue} (h : '=' ∉ kv.key) (h' : '=' ∉ kv'.key)
    (hkey : lowercased kv.key ++ '=' :: kv.value = lowercased kv'.key ++ '=' :: kv'.value) :
    lowercased kv.key = lowercased kv'.key ∧ kv.value = kv'.value :=
  cut_inj (not_mem_lowercased h) (not_mem_lowercased h') hkey

theorem extras_of_sameSet {i i' : WGInterfaceSection} (h : ∀ kv ∈ i.extras, '=' ∉ kv.key)
    (h' : ∀ kv ∈ i'.extras, '=' ∉ kv.key) (hsame : SameSet (extraKeys i) (extraKeys i')) :
    ∀ kv ∈ i.extras, ∃ kv' ∈ i'.extras,
      lowercased kv.key = lowercased kv'.key ∧ kv.value = kv'.value := by
  intro kv hkv
  obtain ⟨kv', hkv', hkey⟩ := List.mem_map.mp ((hsame _).mp (List.mem_map_of_mem hkv))
  exact ⟨kv', hkv', extraKey_inj (h kv hkv) (h' kv' hkv') hkey.symm⟩

def WGConfig.Plain (config : WGConfig) : Prop := ∀ peer ∈ config.peers, peer.Plain

theorem peers_of_sameSet {config other : WGConfig} (hp : config.Plain) (ho : other.Plain)
    (hsame : SameSet (config.peers.map (·.semanticKey)) (other.peers.map (·.semanticKey))) :
    ∀ peer ∈ config.peers, ∃ peer' ∈ other.peers, peer.Same peer' := by
  intro peer hpeer
  obtain ⟨peer', hpeer', hkey⟩ := List.mem_map.mp ((hsame _).mp (List.mem_map_of_mem hpeer))
  exact ⟨peer', hpeer', semanticKey_inj (hp peer hpeer) (ho peer' hpeer') hkey.symm⟩

theorem routes_of_same {config other : WGConfig}
    (h : ∀ peer ∈ config.peers, ∃ peer' ∈ other.peers, peer.Same peer') :
    ∀ t ∈ config.routeSet, t ∈ other.routeSet := by
  intro t ht
  obtain ⟨peer, hpeer, hmem⟩ := List.mem_flatMap.mp ht
  obtain ⟨peer', hpeer', hsame⟩ := h peer hpeer
  exact List.mem_flatMap.mpr ⟨peer', hpeer', hsame.networks.mem_iff.mp hmem⟩

theorem endpoint_eq {e e' : Option Text} (he : e ≠ some []) (he' : e' ≠ some [])
    (h : e.getD [] = e'.getD []) : e = e' := by
  rcases e with _ | t <;> rcases e' with _ | t'
  · rfl
  · exact absurd (congrArg some h.symm) he'
  · exact absurd (congrArg some h) he
  · exact congrArg some h

theorem sameMeaning_of_equal {config other : WGConfig} (hc : config.Cut) (ho : other.Cut)
    (hp : config.Plain) (hp' : other.Plain) (h : config.semanticallyEquals other) :
    SameMeaning config other := by
  obtain ⟨hkey, haddress, hport, hextras, hpeers⟩ := h
  refine ⟨hkey, haddress, hport, extras_of_sameSet hc.extras ho.extras hextras, ?_⟩
  intro peer hpeer
  obtain ⟨peer', hpeer', hsame⟩ := peers_of_sameSet hp hp' hpeers peer hpeer
  exact ⟨peer', hpeer', hsame.publicKey,
    endpoint_eq (hc.endpoints peer hpeer) (ho.endpoints peer' hpeer') hsame.endpoint,
    hsame.networks, hsame.keepalive⟩

theorem SameSet.symm {ts us : List Text} (h : SameSet ts us) : SameSet us ts := fun t => (h t).symm

theorem semanticallyEquals_symm {config other : WGConfig} (h : config.semanticallyEquals other) :
    other.semanticallyEquals config := by
  obtain ⟨hkey, haddress, hport, hextras, hpeers⟩ := h
  exact ⟨hkey.symm, haddress.symm, hport.symm, hextras.symm, hpeers.symm⟩

namespace Specimen

def onePeer : Text := "[Interface]\nPrivateKey = k\n[Peer]\nPublicKey = a\n".toList

def onePeerTwice : Text := onePeer ++ "[Peer]\nPublicKey = a\n".toList

def peerA : WGPeerSection := ⟨['a'], none, [], none⟩

def onePeerConfig : WGConfig := ⟨⟨['k'], [], [], []⟩, [peerA]⟩

def onePeerTwiceConfig : WGConfig := ⟨⟨['k'], [], [], []⟩, [peerA, peerA]⟩

end Specimen

open Specimen

end PolarWG
