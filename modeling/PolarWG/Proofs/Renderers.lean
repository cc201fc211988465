import PolarWG.Proofs.WGConf

/-!
# Three renderers

The texts that the two applications and the agent make of one answer of the server, as the agent
reads them. They differ in what they take for an absent field.
-/

namespace PolarWG

/-! ## The claim -/

/-- What the agent decodes of the same answer. -/
def MeshRegisterResponse.peersResponse (response : MeshRegisterResponse) : PeersResponse where
  peers := response.peers.map fun r => ⟨r.pubkey, r.wgIp, r.endpoint, r.allowedExtra.getD []⟩
  keepaliveSec := response.keepaliveSec
  deviceIP := some response.deviceIp

def SamePeers (c c' : WGConfig) : Prop :=
  SameSet (c.peers.map (·.semanticKey)) (c'.peers.map (·.semanticKey))

/-- The agent reads the same peers in the three texts. -/
def RenderersAgree (response : MeshRegisterResponse) (existing : WGConfig)
    (fallbackDeviceIP : Option Text) (privateKeyB64 : Text) (listenPort : ℤ) : Prop :=
  ∃ ios android agent,
    WGConfig.parse (meshConfRender response privateKeyB64 listenPort) = some ios ∧
    WGConfig.parse (meshConfRenderAndroid response privateKeyB64 listenPort) = some android ∧
    ((WGConfig.build (some existing) response.peersResponse fallbackDeviceIP listenPort).bind
      fun c => WGConfig.parse c.render) = some agent ∧
    SamePeers ios android ∧ SamePeers ios agent

/-- What is blank on Android is trimmed by the agent; no line breaks then. -/
def Tame (t : Text) : Prop := ∀ c ∈ t, isWhitespace c → isWhitespaces c

structure MeshPeer.Tame (r : MeshPeer) : Prop where
  pubkey : PolarWG.Tame r.pubkey
  wgIp : ∀ ip, r.wgIp = some ip → PolarWG.Tame ip
  endpoint : ∀ e, r.endpoint = some e → PolarWG.Tame e
  allowedExtra : ∀ t ∈ r.allowedExtra.getD [], PolarWG.Tame t

structure MeshRegisterResponse.Tame (response : MeshRegisterResponse) : Prop where
  deviceIp : PolarWG.Tame response.deviceIp
  peers : ∀ r ∈ response.peers, r.Tame

/-- No peer with a key has an empty address. -/
def MeshRegisterResponse.Addressed (response : MeshRegisterResponse) : Prop :=
  ∀ r ∈ response.peers, r.wgIp = some [] → isBlank r.pubkey

/-- Keys tell peers apart, also within a semantic key. -/
structure MeshRegisterResponse.Keyed (response : MeshRegisterResponse) : Prop where
  bar : ∀ r ∈ response.peers, '|' ∉ r.pubkey
  eq : ∀ r ∈ response.peers, ∀ r' ∈ response.peers, trimmed r.pubkey = trimmed r'.pubkey → r = r'

/-! ## Blanks -/

theorem Tame.oneLine {t : Text} (h : Tame t) : OneLine t := fun c hc => by
  refine ⟨?_, ?_⟩
  all_goals
    rintro rfl
    exact absurd (h _ hc (by decide)) (by decide)

theorem isWhitespace_of_isWhitespaces {c : Char} (h : isWhitespaces c) : isWhitespace c := by
  simp only [isWhitespaces, isSpaceSeparator, Bool.decide_or, Bool.or_eq_true, decide_eq_true_eq,
    Bool.decide_and, Bool.and_eq_true] at h
  simp only [isWhitespace, Bool.decide_or, Bool.or_eq_true, decide_eq_true_eq, Bool.decide_and,
    Bool.and_eq_true]
  rcases h with rfl | h
  · decide
  · omega

theorem Tame.isBlank_iff {t : Text} (h : Tame t) : isBlank t ↔ trimmed t = [] := by
  unfold isBlank
  rw [trimmed_eq_nil, List.all_eq_true]
  exact ⟨fun hb c hc => h c hc (hb c hc), fun hb c hc => isWhitespace_of_isWhitespaces (hb c hc)⟩

/-! ## The blocks of a text -/

def MeshPeer.block (keepalive : ℤ) (r : MeshPeer) : Option Block :=
  if r.pubkey = [] ∨ r.aips = [] then none else some ⟨r.pubkey, r.dials, r.aips, keepalive⟩

def MeshPeer.blockAndroid (keepalive : ℤ) (r : MeshPeer) : Option Block :=
  if isBlank r.pubkey ∨ r.aipsAndroid = [] then none
  else some ⟨r.pubkey, r.endpoint.filter fun e => !isBlank e, r.aipsAndroid, keepalive⟩

theorem lines_block (keepalive : ℤ) (r : MeshPeer) :
    r.lines keepalive = (r.block keepalive).toList.flatMap Block.lines := by
  unfold MeshPeer.block
  by_cases hpub : r.pubkey = []
  · rw [if_pos (.inl hpub)]
    unfold MeshPeer.lines
    rw [if_pos hpub]
    rfl
  by_cases haips : r.aips = []
  · rw [if_pos (.inr haips)]
    unfold MeshPeer.lines
    rw [if_pos haips, ite_self]
    rfl
  · rw [if_neg (not_or.mpr ⟨hpub, haips⟩), lines_listed hpub haips, Option.toList_some,
      List.flatMap_singleton]
    rfl

theorem endpoint_lineAndroid (endpoint : Option Text) : (match endpoint with
    | some endpoint => if isBlank endpoint then [] else ["Endpoint   = ".toList ++ endpoint]
    | none => [])
    = (endpoint.filter fun e => !isBlank e).toList.map ("Endpoint   = ".toList ++ ·) := by
  rcases endpoint with _ | e
  · rfl
  · by_cases he : isBlank e
    · simp [he, Option.filter]
    · simp [he, Option.filter]

theorem linesAndroid_block (keepalive : ℤ) (r : MeshPeer) :
    r.linesAndroid keepalive = (r.blockAndroid keepalive).toList.flatMap Block.lines := by
  unfold MeshPeer.blockAndroid MeshPeer.linesAndroid
  by_cases hpub : isBlank r.pubkey
  · rw [if_pos hpub, if_pos (show _ ∨ _ from .inl hpub)]
    rfl
  by_cases haips : r.aipsAndroid = []
  · rw [if_pos haips, ite_self, if_pos (show _ ∨ _ from .inr haips)]
    rfl
  · rw [if_neg hpub, if_neg haips, if_neg (not_or.mpr ⟨hpub, haips⟩), Option.toList_some,
      List.flatMap_singleton]
    unfold Block.lines
    exact congrArg (fun l => _ ++ l ++ _ ++ _ ++ _) (endpoint_lineAndroid _)

/-! ## What the agent reads -/

theorem flatMap_blocks {α : Type*} {f : α → Option Block} {g : α → List Text}
    (h : ∀ a, g a = (f a).toList.flatMap Block.lines) (as : List α) :
    as.flatMap g = (as.filterMap f).flatMap Block.lines := by
  rw [List.filterMap_eq_flatMap_toList, List.flatMap_assoc]
  exact congrArg (List.flatMap · as) (funext h)

theorem MeshPeer.Tame.aips {r : MeshPeer} (h : r.Tame) : ∀ t ∈ r.aips, OneLine t := by
  intro t ht
  unfold MeshPeer.aips at ht
  rcases List.mem_append.mp ht with ht | ht
  · split at ht
    · next ip hip =>
      have hline := (h.wgIp ip hip).oneLine
      split at ht
      · rw [List.mem_singleton.mp ht]
        split
        · exact hline
        · exact hline.append (.const rfl)
      · simp at ht
    · simp at ht
  · exact (h.allowedExtra t ht).oneLine

theorem MeshPeer.Tame.aipsAndroid {r : MeshPeer} (h : r.Tame) :
    ∀ t ∈ r.aipsAndroid, OneLine t := by
  intro t ht
  unfold MeshPeer.aipsAndroid at ht
  rcases List.mem_append.mp ht with ht | ht
  · split at ht
    · next ip hip =>
      have hline := (h.wgIp ip hip).oneLine
      rw [List.mem_singleton.mp ht]
      split
      · exact hline
      · exact hline.append (.const rfl)
    · simp at ht
  · exact (h.allowedExtra t ht).oneLine

theorem MeshPeer.Tame.block {r : MeshPeer} (h : r.Tame) {keepalive : ℤ} {b : Block}
    (hb : r.block keepalive = some b) : b.OneLine := by
  unfold MeshPeer.block at hb
  split at hb
  · cases hb
  · obtain rfl := Option.some.inj hb
    exact ⟨h.pubkey.oneLine, fun e he => (h.endpoint e (Option.filter_eq_some_iff.mp he).1).oneLine,
      h.aips⟩

theorem MeshPeer.Tame.blockAndroid {r : MeshPeer} (h : r.Tame) {keepalive : ℤ} {b : Block}
    (hb : r.blockAndroid keepalive = some b) : b.OneLine := by
  unfold MeshPeer.blockAndroid at hb
  split at hb
  · cases hb
  · obtain rfl := Option.some.inj hb
    exact ⟨h.pubkey.oneLine, fun e he => (h.endpoint e (Option.filter_eq_some_iff.mp he).1).oneLine,
      h.aipsAndroid⟩

variable {response : MeshRegisterResponse} {privateKeyB64 : Text} {listenPort : ℤ}

/-- The interface of both applications. -/
def appInterface (response : MeshRegisterResponse) (privateKeyB64 : Text) (listenPort : ℤ) :
    WGInterfaceSection :=
  ⟨privateKeyB64, response.deviceIp ++ "/24".toList, fmtSigned listenPort, []⟩

theorem appInterface_tidy (hr : response.Tame) (hk : OneLine privateKeyB64) (listenPort : ℤ) :
    (appInterface response privateKeyB64 listenPort).Tidy where
  privateKey := hk
  address := hr.deviceIp.oneLine.append (.const rfl)
  listenPort := oneLine_fmtSigned _
  extras kv hkv := by simp [appInterface] at hkv

theorem parse_ios (hr : response.Tame) (hk : OneLine privateKeyB64)
    (hne : trimmed privateKeyB64 ≠ []) :
    WGConfig.parse (meshConfRender response privateKeyB64 listenPort)
      = some ⟨(appInterface response privateKeyB64 listenPort).read,
          keptPeers (response.peers.filterMap (MeshPeer.block response.keepalive))⟩ := by
  have htidy := appInterface_tidy hr hk listenPort
  have hb : ∀ b ∈ response.peers.filterMap (MeshPeer.block response.keepalive), b.OneLine :=
    fun b hmem => by
      obtain ⟨r, hr', hb⟩ := List.mem_filterMap.mp hmem
      exact (hr.peers r hr').block hb
  have htext : meshConfRender response privateKeyB64 listenPort
      = joined ['\n'] ((appInterface response privateKeyB64 listenPort).lines
        ++ (response.peers.filterMap (MeshPeer.block response.keepalive)).flatMap Block.lines) := by
    unfold meshConfRender
    rw [flatMap_blocks (lines_block response.keepalive)]
    simp only [ite_self]
    unfold appInterface WGInterfaceSection.lines
    simp only [List.map_nil, List.append_nil, List.append_assoc]
    rfl
  refine parse_lines htidy hne ?_
  rw [htext, splitLines_joined (oneLine_of_blocks htidy hb) (by simp [WGInterfaceSection.lines])]

theorem parse_android (hr : response.Tame) (hk : OneLine privateKeyB64)
    (hne : trimmed privateKeyB64 ≠ []) :
    WGConfig.parse (meshConfRenderAndroid response privateKeyB64 listenPort)
      = some ⟨(appInterface response privateKeyB64 listenPort).read,
          keptPeers (response.peers.filterMap (MeshPeer.blockAndroid response.keepalive))⟩ := by
  have htidy := appInterface_tidy hr hk listenPort
  have hb : ∀ b ∈ response.peers.filterMap (MeshPeer.blockAndroid response.keepalive), b.OneLine :=
    fun b hmem => by
      obtain ⟨r, hr', hb⟩ := List.mem_filterMap.mp hmem
      exact (hr.peers r hr').blockAndroid hb
  have htext : meshConfRenderAndroid response privateKeyB64 listenPort
      = appendLines ((appInterface response privateKeyB64 listenPort).lines
        ++ (response.peers.filterMap (MeshPeer.blockAndroid response.keepalive)).flatMap
          Block.lines) := by
    unfold meshConfRenderAndroid
    rw [flatMap_blocks (linesAndroid_block response.keepalive)]
    unfold appInterface WGInterfaceSection.lines
    simp only [List.map_nil, List.append_nil, List.append_assoc]
    rfl
  refine parse_lines htidy hne ?_
  rw [htext, splitLines_appendLines (oneLine_of_blocks htidy hb), foldl_end]

/-- The peers that the agent builds are rendered to the same blocks as on iOS. -/
theorem block_peerSection (keepalive : ℤ) (r : MeshPeer) :
    ((PeerEntry.peerSection keepalive ⟨r.pubkey, r.wgIp, r.endpoint, r.allowedExtra.getD []⟩).map
      WGPeerSection.block).map Block.peer = (r.block keepalive).map Block.peer := by
  have haips : PeerEntry.allowedIPs ⟨r.pubkey, r.wgIp, r.endpoint, r.allowedExtra.getD []⟩
      = r.aips := rfl
  unfold PeerEntry.peerSection MeshPeer.block
  simp only [haips]
  by_cases hpub : r.pubkey = []
  · rw [if_pos hpub, if_pos (.inl hpub)]
    rfl
  by_cases ha : r.aips = []
  · rw [if_neg hpub, if_pos ha, if_pos (.inr ha)]
    rfl
  rw [if_neg hpub, if_neg ha, if_neg (not_or.mpr ⟨hpub, ha⟩)]
  have hend : (if r.endpoint = some [] then none else r.endpoint).filter (· ≠ []) = r.dials := by
    unfold MeshPeer.dials
    rcases r.endpoint with _ | _ | ⟨c, e⟩ <;> rfl
  simp only [Option.map_some, WGPeerSection.block, hend, Block.peer]
  by_cases hk : 0 < keepalive
  · simp [hk]
  · simp [hk]

variable {existing : WGConfig} {fallbackDeviceIP : Option Text}

theorem MeshPeer.Tame.peerSection {r : MeshPeer} (h : r.Tame) {keepalive : ℤ} {s : WGPeerSection}
    (hs : PeerEntry.peerSection keepalive ⟨r.pubkey, r.wgIp, r.endpoint, r.allowedExtra.getD []⟩
      = some s) : s.block.OneLine := by
  unfold PeerEntry.peerSection at hs
  split at hs
  · cases hs
  split at hs
  · cases hs
  obtain rfl := Option.some.inj hs
  refine ⟨h.pubkey.oneLine, fun e he => ?_, h.aips⟩
  have hend := (Option.filter_eq_some_iff.mp he).1
  simp only [] at hend
  split at hend
  · cases hend
  · exact (h.endpoint e hend).oneLine

theorem parse_agent (hr : response.Tame) (he : existing.interface.Tidy)
    (hne : trimmed existing.interface.privateKey ≠ [])
    (hf : ∀ ip, fallbackDeviceIP = some ip → OneLine ip) (listenPort : ℤ) : ∃ agent,
    ((WGConfig.build (some existing) response.peersResponse fallbackDeviceIP listenPort).bind
      fun c => WGConfig.parse c.render) = some agent ∧
    agent.peers.Perm (keptPeers (response.peers.filterMap (MeshPeer.block response.keepalive))) := by
  have hkey : existing.interface.privateKey ≠ [] := fun h => hne (by rw [h]; rfl)
  have hd : ∀ ip, (fallbackDeviceIP <|> some response.deviceIp) = some ip → OneLine ip := by
    rcases fallbackDeviceIP with _ | ip'
    · rintro ip ⟨⟩
      exact hr.deviceIp.oneLine
    · rintro ip ⟨⟩
      exact hf _ rfl
  obtain ⟨c, hc, hi, hpeers⟩ : ∃ c, WGConfig.build (some existing) response.peersResponse
      fallbackDeviceIP listenPort = some c ∧
      c.interface = existing.interface.filled (fallbackDeviceIP <|> some response.deviceIp)
        listenPort ∧
      c.peers = response.peersResponse.peers.filterMap
        (PeerEntry.peerSection response.keepalive) := by
    unfold WGConfig.build
    rw [Option.bind_some, if_neg hkey]
    exact ⟨_, rfl, rfl, rfl⟩
  have hline : ∀ s ∈ c.peers, s.block.OneLine := fun s hs => by
    rw [hpeers] at hs
    obtain ⟨entry, hentry, hs⟩ := List.mem_filterMap.mp hs
    obtain ⟨r, hr', rfl⟩ := List.mem_map.mp hentry
    exact (hr.peers r hr').peerSection hs
  have hparse := parse_render_config (hi ▸ he.filled hd _) (by rw [hi]; exact hne) hline
  rw [hc, Option.bind_some]
  refine ⟨_, hparse, ?_⟩
  have hsame : (c.peers.map WGPeerSection.block).map Block.peer
      = (response.peers.filterMap (MeshPeer.block response.keepalive)).map Block.peer := by
    rw [hpeers]
    unfold MeshRegisterResponse.peersResponse
    simp only [List.filterMap_map, List.map_filterMap]
    refine congrArg (List.filterMap · response.peers) (funext fun r => ?_)
    exact block_peerSection response.keepalive r
  have hperm := keptPeers_perm ((sortedPeers_perm c.peers).map WGPeerSection.block)
  refine hperm.trans (List.Perm.of_eq ?_)
  unfold keptPeers
  rw [hsame]

/-! ## Android and iOS -/

/-- The peer that the agent keeps of a block. -/
def kept (b : Option Block) : Option WGPeerSection :=
  (b.map Block.peer).filter (·.publicKey ≠ [])

theorem keptPeers_filterMap {α : Type*} (f : α → Option Block) (as : List α) :
    keptPeers (as.filterMap f) = as.filterMap fun a => kept (f a) := by
  unfold keptPeers kept
  rw [List.map_filterMap, ← List.filterMap_eq_filter, List.filterMap_filterMap]
  refine congrArg (List.filterMap · as) (funext fun a => ?_)
  rcases f a with _ | b
  · rfl
  · simp [Option.guard, Option.filter]

theorem endpoint_android {r : MeshPeer} (h : r.Tame) :
    ((r.endpoint.filter fun e => !isBlank e).bind fun e =>
        if trimmed e = [] then none else some (trimmed e))
      = r.dials.bind fun e => if trimmed e = [] then none else some (trimmed e) := by
  unfold MeshPeer.dials
  rcases he : r.endpoint with _ | e
  · rfl
  · have hblank := (h.endpoint e he).isBlank_iff
    by_cases hb : trimmed e = []
    · by_cases hn : e = []
      · rw [hn]
        rfl
      · simp [hblank.mpr hb, hb, hn, Option.filter]
    · have hn : e ≠ [] := fun hn => hb (by rw [hn]; rfl)
      have hb' : isBlank e = false := by
        rw [← Bool.not_eq_true, hblank]
        exact hb
      simp [hb', hn, Option.filter]

theorem kept_android {r : MeshPeer} (h : r.Tame) (hip : r.wgIp = some [] → isBlank r.pubkey)
    (keepalive : ℤ) : kept (r.blockAndroid keepalive) = kept (r.block keepalive) := by
  unfold MeshPeer.blockAndroid MeshPeer.block
  by_cases hblank : isBlank r.pubkey
  · rw [if_pos (show _ ∨ _ from .inl hblank)]
    split
    · rfl
    · have : trimmed r.pubkey = [] := h.pubkey.isBlank_iff.mp hblank
      simp [kept, Block.peer, this, Option.filter]
  · have haips : r.aipsAndroid = r.aips := by
      unfold MeshPeer.aipsAndroid MeshPeer.aips
      rcases hw : r.wgIp with _ | _ | ⟨c, ip⟩
      · rfl
      · exact absurd (hip hw) hblank
      · rfl
    have hpub : r.pubkey ≠ [] := fun hn => hblank (by rw [hn]; rfl)
    rw [haips]
    by_cases ha : r.aips = []
    · rw [if_pos (show _ ∨ _ from .inr ha), if_pos (show _ ∨ _ from .inr ha)]
    · rw [if_neg (not_or.mpr ⟨hblank, ha⟩), if_neg (not_or.mpr ⟨hpub, ha⟩)]
      simp only [kept, Option.map_some, Block.peer, endpoint_android h]

theorem keptPeers_android (hr : response.Tame) (ha : response.Addressed) (keepalive : ℤ) :
    keptPeers (response.peers.filterMap (MeshPeer.blockAndroid keepalive))
      = keptPeers (response.peers.filterMap (MeshPeer.block keepalive)) := by
  rw [keptPeers_filterMap, keptPeers_filterMap]
  exact List.filterMap_congr fun r hmem => kept_android (hr.peers r hmem) (ha r hmem) keepalive

theorem renderersAgree_of_addressed (hr : response.Tame) (he : existing.interface.Tidy)
    (hkey : existing.interface.privateKey = privateKeyB64) (hne : trimmed privateKeyB64 ≠ [])
    (hf : ∀ ip, fallbackDeviceIP = some ip → OneLine ip) (listenPort : ℤ)
    (ha : response.Addressed) :
    RenderersAgree response existing fallbackDeviceIP privateKeyB64 listenPort := by
  have hk : OneLine privateKeyB64 := hkey ▸ he.privateKey
  obtain ⟨agent, hagent, hperm⟩ := parse_agent hr he (hkey ▸ hne) hf listenPort
  refine ⟨_, _, agent, parse_ios hr hk hne, parse_android hr hk hne, hagent, ?_, ?_⟩
  · rw [keptPeers_android hr ha]
    exact fun t => Iff.rfl
  · exact fun t => ((hperm.map _).mem_iff).symm

/-! ## An empty address -/

theorem length_joined (c : Char) : ∀ ts : List Text,
    (joined [c] ts).length = (ts.map List.length).sum + (ts.length - 1)
  | [] => rfl
  | [t] => by simp [joined]
  | t :: u :: ts => by
    have ih := length_joined c (u :: ts)
    have hcons : joined [c] (t :: u :: ts) = t ++ [c] ++ joined [c] (u :: ts) :=
      List.intercalate_cons_cons
    rw [hcons, List.length_append, List.length_append, ih]
    simp only [List.length_cons, List.length_nil, List.map_cons, List.sum_cons]
    omega

/-- One more network makes a longer text. -/
theorem joined_sorted_ne {t : Text} (ht : t ≠ []) (ts : List Text) :
    joined [','] (sortedTexts (t :: ts)) ≠ joined [','] (sortedTexts ts) := fun h => by
  have hlen := congrArg List.length h
  have hperm : ∀ us : List Text, (joined [','] (sortedTexts us)).length
      = (us.map List.length).sum + (us.length - 1) := fun us => by
    have hp : (sortedTexts us).Perm us := List.perm_insertionSort _ us
    rw [length_joined, (hp.map _).sum_eq, hp.length_eq]
  have hpos := List.length_pos_iff.mpr ht
  rw [hperm, hperm, List.map_cons, List.sum_cons, List.length_cons] at hlen
  omega

theorem semanticKey_publicKey {s s' : WGPeerSection} (hs : '|' ∉ s.publicKey)
    (hs' : '|' ∉ s'.publicKey) (h : s.semanticKey = s'.semanticKey) :
    s.publicKey = s'.publicKey := by
  unfold WGPeerSection.semanticKey at h
  have h1 := @strchr_append '|' _ (s.endpoint.getD [] ++ '|' ::
    (joined [','] (sortedTexts s.allowedIPs) ++ '|' :: fmtSigned (s.keepalive.getD 0))) hs
  rw [h, strchr_append hs'] at h1
  exact (congrArg Prod.fst (Option.some.inj h1)).symm

theorem addressed_of_renderersAgree (hr : response.Tame) (hkeys : response.Keyed)
    (hk : OneLine privateKeyB64) (hne : trimmed privateKeyB64 ≠ [])
    (h : RenderersAgree response existing fallbackDeviceIP privateKeyB64 listenPort) :
    response.Addressed := by
  intro r hmem hip
  by_contra hblank
  obtain ⟨ios, android, agent, hios, handroid, -, hsame, -⟩ := h
  obtain rfl := Option.some.inj (hios.symm.trans (parse_ios hr hk hne))
  obtain rfl := Option.some.inj (handroid.symm.trans (parse_android hr hk hne))
  have hpeer := hr.peers r hmem
  have hkept : ∀ r' ∈ response.peers, '|' ∉ trimmed r'.pubkey := fun r' hr' hm =>
    hkeys.bar r' hr' ((List.dropWhile_sublist _).subset ((List.rdropWhile_prefix _ _).subset hm))
  -- the peer as Android has it is one that iOS has, and that is the same entry
  have haips : r.aipsAndroid = "/32".toList :: r.allowedExtra.getD [] := by
    unfold MeshPeer.aipsAndroid
    rw [hip]
    rfl
  have hb : r.blockAndroid response.keepalive = some ⟨r.pubkey,
      r.endpoint.filter fun e => !isBlank e, r.aipsAndroid, response.keepalive⟩ := by
    unfold MeshPeer.blockAndroid
    rw [if_neg (not_or.mpr ⟨hblank, by rw [haips]; simp⟩)]
  have hpub : trimmed r.pubkey ≠ [] := fun hn => hblank (hpeer.pubkey.isBlank_iff.mpr hn)
  have hmem' : (Block.peer ⟨r.pubkey, r.endpoint.filter fun e => !isBlank e, r.aipsAndroid,
      response.keepalive⟩) ∈ keptPeers
        (response.peers.filterMap (MeshPeer.blockAndroid response.keepalive)) :=
    List.mem_filter.mpr ⟨List.mem_map_of_mem (List.mem_filterMap.mpr ⟨r, hmem, hb⟩),
      decide_eq_true hpub⟩
  obtain ⟨s, hs, hkey⟩ := List.mem_map.mp ((hsame _).mpr (List.mem_map_of_mem hmem'))
  obtain ⟨b, hbmem, rfl⟩ := List.mem_map.mp (List.mem_filter.mp hs).1
  obtain ⟨r', hr', hb'⟩ := List.mem_filterMap.mp hbmem
  unfold MeshPeer.block at hb'
  split at hb'
  · cases hb'
  next haips' =>
  obtain rfl := Option.some.inj hb'
  have heq : trimmed r'.pubkey = trimmed r.pubkey :=
    semanticKey_publicKey (hkept r' hr') (hkept r hmem) hkey
  obtain rfl := hkeys.eq r' hr' r hmem heq
  have hextras : r'.aips = r'.allowedExtra.getD [] := by
    unfold MeshPeer.aips
    rw [hip]
    rfl
  -- so its list is one entry longer than itself
  obtain ⟨e, es, hes⟩ := List.exists_cons_of_ne_nil (hextras ▸ (not_or.mp haips').2)
  have hlist : splitList (trimmed (joined ", ".toList r'.aipsAndroid))
      = "/32".toList :: splitList (trimmed (joined ", ".toList r'.aips)) := by
    have hcons : joined ", ".toList r'.aipsAndroid
        = "/32".toList ++ ',' :: ' ' :: joined ", ".toList r'.aips := by
      rw [haips, hextras, hes, joined, List.intercalate_cons_cons, List.append_assoc]
      rfl
    rw [splitList_trimmed, splitList_trimmed, hcons, splitList_append, splitList_cons (by decide)]
    rfl
  unfold WGPeerSection.semanticKey Block.peer at hkey
  simp only [endpoint_android hpeer, hlist] at hkey
  have hrest := List.append_cancel_left hkey
  simp only [List.cons.injEq, true_and] at hrest
  have hlists := List.append_cancel_left hrest
  simp only [List.cons.injEq, true_and] at hlists
  exact joined_sorted_ne (by decide) _ (List.append_cancel_right hlists).symm

namespace Specimen

theorem tame_const {s : String} (h : s.toList.all fun c => !isWhitespace c || isWhitespaces c) :
    Tame s.toList := fun c hc hw => by
  have := List.all_eq_true.mp h c hc
  simpa [hw] using this

/-- What the agent has on disk. -/
def onDisk : WGConfig where
  interface := ⟨keyA.toList, "10.88.0.9/24".toList, "1632".toList, [⟨"MTU".toList, "1420".toList⟩]⟩
  peers := []

theorem onDisk_tidy : onDisk.interface.Tidy where
  privateKey := .const (by decide)
  address := .const (by decide)
  listenPort := .const (by decide)
  extras kv hkv := by
    obtain rfl := List.mem_singleton.mp hkv
    refine ⟨⟨⟨by decide, ?_⟩, by decide⟩, .const (by decide), .const (by decide)⟩
    rintro c ⟨⟩
    decide

/-- The hub with an address that is there but empty. -/
def unaddressed : MeshPeer := { hub with wgIp := some [] }

theorem hub_tame : hub.Tame where
  pubkey := tame_const (by decide)
  wgIp ip hip := by
    obtain rfl := Option.some.inj hip
    exact tame_const (by decide)
  endpoint e he := by
    obtain rfl := Option.some.inj he
    exact tame_const (by decide)
  allowedExtra t ht := by
    obtain rfl := List.mem_singleton.mp ht
    exact tame_const (by decide)

theorem hub_registered_tame : (registered [hub]).Tame where
  deviceIp := tame_const (by decide)
  peers r hr := by
    obtain rfl := List.mem_singleton.mp hr
    exact hub_tame

end Specimen

end PolarWG
