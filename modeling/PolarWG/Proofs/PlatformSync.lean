import PolarWG.Lib.KeyedMerge
import PolarWG.PlatformSync
import PolarWG.Proofs.Drafts

/-!
# Syncing from the platform

The list after a sync is the manual nodes, of the platform's nodes the first with each id that was
answered, updated, and a new node for each proxy that had none. What is updated leaves out which of
the platform's profiles the proxy is in. A list that agrees with the answer is merged into itself.
-/

namespace PolarWG

open KeyedMerge

/-! ## The answer -/

/-- The answer's proxies under new ids, in the order of the dictionary. -/
def Answers (proxies : List (UUID × LatchProxy)) (answer : List LatchProfile) : Prop :=
  (proxies.map Prod.snd).Perm (incomingProxies answer)

/-- The last convertible proxy with this id. -/
def lastAnswered (answer : List LatchProfile) (id : Option Text) : Option LatchProxy :=
  (convertible answer).reverse.find? (some ·.id = id)

theorem nodup_incomingProxies (answer : List LatchProfile) :
    ((incomingProxies answer).map (·.id)).Nodup :=
  nodup_latest _

theorem mem_incomingProxies_iff {answer : List LatchProfile} {p : LatchProxy} :
    p ∈ incomingProxies answer ↔ lastAnswered answer (some p.id) = some p := by
  unfold lastAnswered
  simp only [Option.some.injEq]
  exact mem_latest_iff _

theorem lastAnswered_isSome {answer : List LatchProfile} {id : Option Text} :
    (lastAnswered answer id).isSome ↔ id ∈ (convertible answer).map (some ·.id) := by
  simp [lastAnswered, List.find?_isSome]

section Answers

variable {proxies : List (UUID × LatchProxy)} {answer : List LatchProfile}

theorem Answers.nodup (h : Answers proxies answer) : (proxies.map (·.2.id)).Nodup := by
  have := (h.map (·.id)).nodup_iff.mpr (nodup_incomingProxies answer)
  rwa [List.map_map] at this

theorem Answers.mem (h : Answers proxies answer) {uuid : UUID} {p : LatchProxy}
    (hp : (uuid, p) ∈ proxies) : lastAnswered answer (some p.id) = some p :=
  mem_incomingProxies_iff.mp (h.subset (List.mem_map_of_mem hp))

theorem lastAnswered_id {id : Option Text} {p : LatchProxy} (h : lastAnswered answer id = some p) :
    id = some p.id := by
  simpa [eq_comm] using List.find?_some h

theorem Answers.ids (h : Answers proxies answer) (k : Option Text) :
    k ∈ proxies.map (some ·.2.id) ↔ k ∈ (convertible answer).map (some ·.id) := by
  rw [← lastAnswered_isSome, List.mem_map]
  constructor
  · rintro ⟨⟨uuid, p⟩, hp, rfl⟩
    rw [h.mem hp]
    rfl
  · intro hk
    obtain ⟨p, hp⟩ := Option.isSome_iff_exists.mp hk
    obtain rfl := lastAnswered_id hp
    obtain ⟨⟨uuid, q⟩, hq, rfl⟩ := List.mem_map.mp (h.symm.subset (mem_incomingProxies_iff.mpr hp))
    exact ⟨(uuid, q), hq, rfl⟩

end Answers

/-- One answer: a dictionary may be iterated in another order. -/
def LatchProxyJSON.Same (p q : LatchProxyJSON) : Prop :=
  p.config.Perm q.config ∧ { p with config := [] } = { q with config := [] }

def SameAnswer : List LatchProfile → List LatchProfile → Prop :=
  List.Forall₂ fun p q => p.id = q.id ∧ List.Forall₂ LatchProxyJSON.Same p.proxies q.proxies

/-- A proxy apart from its text. -/
def LatchProxy.untexted (p : LatchProxy) : LatchProxy := { p with wgConfig := [] }

theorem toWGQuickConfig_isSome {config config' : List (Text × JSONValue)}
    (h : config.Perm config') :
    (toWGQuickConfig config).isSome = (toWGQuickConfig config').isSome := by
  have hlines : ∀ ofPeer f, (wgQuickLines ofPeer config).any f = (wgQuickLines ofPeer config').any f :=
    fun ofPeer f => (h.filterMap _).any_eq
  unfold toWGQuickConfig
  simp only [hlines]
  split <;> rfl

theorem LatchProxyJSON.Same.untexted {p q : LatchProxyJSON} (h : p.Same q) (profileId : Text) :
    (toWGQuickConfig p.config).map (fun wgConfig =>
        (⟨p.id, p.name, p.country, p.version, profileId, wgConfig⟩ : LatchProxy).untexted)
      = (toWGQuickConfig q.config).map fun wgConfig =>
        (⟨q.id, q.name, q.country, q.version, profileId, wgConfig⟩ : LatchProxy).untexted := by
  have hsome := toWGQuickConfig_isSome h.1
  obtain ⟨h1, h2, -, h3, h4⟩ := LatchProxyJSON.mk.inj h.2
  rw [h1, h2, h3, h4]
  rcases hp : toWGQuickConfig p.config with _ | t <;>
    rcases hq : toWGQuickConfig q.config with _ | t' <;> simp only [hp, hq] at hsome
  · rfl
  · cases hsome
  · cases hsome
  · rfl

theorem convertible_untexted {answer answer' : List LatchProfile} (h : SameAnswer answer answer') :
    (convertible answer).map LatchProxy.untexted = (convertible answer').map LatchProxy.untexted := by
  unfold convertible
  induction h with
  | nil => rfl
  | @cons p q ps qs hpq _ ih =>
    rw [List.flatMap_cons, List.flatMap_cons, List.map_append, List.map_append, ih]
    refine congrArg (· ++ _) ?_
    obtain ⟨hid, hproxies⟩ := hpq
    unfold LatchProfile.convertible
    rw [← hid]
    generalize p.proxies = l at hproxies
    generalize q.proxies = l' at hproxies
    induction hproxies with
    | nil => rfl
    | @cons a b _ _ hab _ ih' =>
      have := hab.untexted p.id
      rw [List.map_filterMap, List.map_filterMap] at ih' ⊢
      simp only [Option.map_map, Function.comp_def] at ih' ⊢
      rw [List.filterMap_cons, List.filterMap_cons, this, ih']

theorem incomingProxies_untexted {answer answer' : List LatchProfile}
    (h : SameAnswer answer answer') :
    (incomingProxies answer).map LatchProxy.untexted
      = (incomingProxies answer').map LatchProxy.untexted := by
  have hmap : ∀ l : List LatchProxy, (latest LatchProxy.id l).map LatchProxy.untexted
      = latest LatchProxy.id (l.map LatchProxy.untexted) := map_latest fun _ => rfl
  exact (hmap _).trans ((congrArg _ (convertible_untexted h)).trans (hmap _).symm)

/-! ## The merge -/

namespace TunnelManager

abbrev incomingNodes (proxies : List (UUID × LatchProxy)) : List VPNNode :=
  proxies.map fun (uuid, proxy) => platformNode uuid proxy

/-- The platform's nodes that are kept. -/
def keptNodes (ks : List (Option Text)) (l : List VPNNode) : List VPNNode :=
  survivors VPNNode.platformProxyId ks (l.filter (·.source = .platform))

/-- A kept node with what came in for it. -/
def patchedNode (proxies : List (UUID × LatchProxy)) : VPNNode → VPNNode :=
  patched VPNNode.platformProxyId VPNNode.platformProxyId updatedNode (incomingNodes proxies)

/-- What came in for no node. -/
def newNodes (l : List VPNNode) (proxies : List (UUID × LatchProxy)) : List VPNNode :=
  leftovers VPNNode.platformProxyId VPNNode.platformProxyId (l.filter (·.source = .platform))
    (incomingNodes proxies)

def mergedNodes (l : List VPNNode) (proxies : List (UUID × LatchProxy)) : List VPNNode :=
  l.filter (·.source = .manual) ++ (keptNodes (proxies.map (some ·.2.id)) l).map (patchedNode proxies)
    ++ newNodes l proxies

theorem mergeNode_eq :
    mergeNode = mergeStep VPNNode.platformProxyId VPNNode.platformProxyId updatedNode := by
  funext acc node
  simp only [mergeNode, mergeStep]
  rcases hm : matching VPNNode.platformProxyId VPNNode.platformProxyId acc.2 node with _ | fresh <;>
    simp only [matching] at hm <;> simp only [hm]

theorem incomingNodes_ids (proxies : List (UUID × LatchProxy)) :
    (incomingNodes proxies).map VPNNode.platformProxyId = proxies.map (some ·.2.id) := by
  rw [List.map_map]
  rfl

theorem foldl_mergeNode (l : List VPNNode) (proxies : List (UUID × LatchProxy)) :
    let merge := (l.filter (·.source = .platform)).foldl mergeNode
      (l.filter (·.source = .manual), incomingNodes proxies)
    merge.1 ++ merge.2 = mergedNodes l proxies := by
  simp only [mergeNode_eq]
  rw [foldl_mergeStep, incomingNodes_ids]
  rfl

@[simp]
theorem updatedNode_id (node fresh : VPNNode) : (updatedNode node fresh).id = node.id := by
  unfold updatedNode
  split <;> rfl

@[simp]
theorem updatedNode_source (node fresh : VPNNode) :
    (updatedNode node fresh).source = node.source := by
  unfold updatedNode
  split <;> rfl

@[simp]
theorem updatedNode_platformProxyId (node fresh : VPNNode) :
    (updatedNode node fresh).platformProxyId = node.platformProxyId := by
  unfold updatedNode
  split <;> rfl

@[simp]
theorem updatedNode_platformProfileId (node fresh : VPNNode) :
    (updatedNode node fresh).platformProfileId = node.platformProfileId := by
  unfold updatedNode
  split <;> rfl

theorem updatedNode_proxyVersion (node fresh : VPNNode) :
    (updatedNode node fresh).proxyVersion = fresh.proxyVersion := by
  unfold updatedNode
  split
  · rfl
  · next h => exact (not_not.mp h).symm

theorem updatedNode_config (node fresh : VPNNode) : (updatedNode node fresh).config
    = if fresh.proxyVersion ≠ node.proxyVersion then fresh.config else node.config := by
  unfold updatedNode
  split <;> rfl

/-- Everything else is as it was. -/
theorem updatedNode_eq (node fresh : VPNNode) : updatedNode node fresh
    = { node with
      name := fresh.name
      country := fresh.country
      config := (updatedNode node fresh).config
      proxyVersion := fresh.proxyVersion } := by
  unfold updatedNode
  split
  · rfl
  · next h => rw [not_not.mp h]

section Merge

variable {l : List VPNNode} {proxies : List (UUID × LatchProxy)}

/-- A node that is kept, with the proxy that it is kept for. -/
theorem keptNodes_spec {node : VPNNode} (h : node ∈ keptNodes (proxies.map (some ·.2.id)) l) :
    node.source = .platform
      ∧ (l.filter (·.source = .platform)).find? (·.platformProxyId = node.platformProxyId) = some node
      ∧ ∃ uuid p, (uuid, p) ∈ proxies ∧ node.platformProxyId = some p.id
        ∧ patchedNode proxies node = updatedNode node (platformNode uuid p) := by
  obtain ⟨hne, hk, hfind⟩ := mem_survivors_iff.mp h
  refine ⟨?_, hfind, ?_⟩
  · simpa using (List.mem_filter.mp (List.mem_of_find?_eq_some hfind)).2
  · rw [← incomingNodes_ids] at hk
    obtain ⟨fresh, hfresh⟩ := Option.isSome_iff_exists.mp (matching_isSome.mpr ⟨hne, hk⟩)
    obtain ⟨hmem, hid⟩ := mem_of_matching hfresh
    obtain ⟨⟨uuid, p⟩, hp, rfl⟩ := List.mem_map.mp hmem
    refine ⟨uuid, p, hp, hid.symm, ?_⟩
    unfold patchedNode patched
    rw [hfresh]

theorem patchedNode_source {node : VPNNode}
    (h : node ∈ keptNodes (proxies.map (some ·.2.id)) l) :
    (patchedNode proxies node).source = .platform := by
  obtain ⟨hsource, -, uuid, p, -, -, hpatched⟩ := keptNodes_spec h
  rw [hpatched, updatedNode_source, hsource]

theorem newNodes_spec {node : VPNNode} (h : node ∈ newNodes l proxies) :
    ∃ uuid p, (uuid, p) ∈ proxies ∧ node = platformNode uuid p
      ∧ (l.filter (·.source = .platform)).find? (·.platformProxyId = node.platformProxyId) = none := by
  obtain ⟨hmem, hno⟩ := mem_leftovers_iff.mp h
  obtain ⟨⟨uuid, p⟩, hp, rfl⟩ := List.mem_map.mp hmem
  refine ⟨uuid, p, hp, rfl, List.find?_eq_none.mpr fun node hnode heq => ?_⟩
  refine hno ⟨(fun h => by cases h), ?_⟩
  exact of_decide_eq_true heq ▸ List.mem_map_of_mem hnode

theorem mergedNodes_manual :
    (mergedNodes l proxies).filter (·.source = .manual) = l.filter (·.source = .manual) := by
  unfold mergedNodes
  rw [List.filter_append, List.filter_append, List.filter_filter]
  have hkept : ((keptNodes (proxies.map (some ·.2.id)) l).map (patchedNode proxies)).filter
      (·.source = .manual) = [] := by
    refine List.filter_eq_nil_iff.mpr fun node hnode hmanual => ?_
    obtain ⟨kept, hkept, rfl⟩ := List.mem_map.mp hnode
    rw [patchedNode_source hkept] at hmanual
    cases hmanual
  have hnew : (newNodes l proxies).filter (·.source = .manual) = [] := by
    refine List.filter_eq_nil_iff.mpr fun node hnode hmanual => ?_
    obtain ⟨uuid, p, -, rfl, -⟩ := newNodes_spec hnode
    cases hmanual
  rw [hkept, hnew]
  simp

theorem mergedNodes_platform : (mergedNodes l proxies).filter (·.source = .platform)
    = (keptNodes (proxies.map (some ·.2.id)) l).map (patchedNode proxies) ++ newNodes l proxies := by
  unfold mergedNodes
  rw [List.filter_append, List.filter_append, List.filter_filter]
  have hmanual : l.filter (fun node => node.source = .platform && node.source = .manual) = [] := by
    refine List.filter_eq_nil_iff.mpr fun node _ hboth => ?_
    simp only [Bool.and_eq_true, decide_eq_true_eq] at hboth
    rw [hboth.1] at hboth
    cases hboth.2
  have hkept : ((keptNodes (proxies.map (some ·.2.id)) l).map (patchedNode proxies)).filter
      (·.source = .platform) = (keptNodes (proxies.map (some ·.2.id)) l).map (patchedNode proxies) := by
    refine List.filter_eq_self.mpr fun node hnode => ?_
    obtain ⟨kept, hkept, rfl⟩ := List.mem_map.mp hnode
    exact decide_eq_true (patchedNode_source hkept)
  have hnew : (newNodes l proxies).filter (·.source = .platform) = newNodes l proxies := by
    refine List.filter_eq_self.mpr fun node hnode => ?_
    obtain ⟨uuid, p, -, rfl, -⟩ := newNodes_spec hnode
    rfl
  rw [hmanual, hkept, hnew, List.nil_append]

/-- What the answer says of a node. -/
def answeredPart (node : VPNNode) : NodeSource × Option Text × Text × Text × Option ℤ :=
  (node.source, node.platformProxyId, node.name, node.country, node.proxyVersion)

/-- The platform's part of the list is what came in. -/
theorem mergedNodes_perm (hn : (proxies.map (·.2.id)).Nodup) :
    (((mergedNodes l proxies).filter (·.source = .platform)).map answeredPart).Perm
      ((incomingNodes proxies).map answeredPart) := by
  have hids : ((incomingNodes proxies).map VPNNode.platformProxyId).Nodup := by
    rw [incomingNodes_ids]
    have := hn.map (Option.some_injective _)
    rwa [List.map_map] at this
  have hsome : ∀ fresh ∈ incomingNodes proxies, fresh.platformProxyId ≠ none := by
    intro fresh hfresh
    obtain ⟨⟨uuid, p⟩, -, rfl⟩ := List.mem_map.mp hfresh
    exact fun h => by cases h
  have hall : (_ ++ leftovers VPNNode.platformProxyId _ _ _).Perm (incomingNodes proxies) :=
    matched_perm (l.filter (·.source = .platform)) hids hsome
  have hperm := hall.map answeredPart
  rw [List.map_append, incomingNodes_ids] at hperm
  rw [map_filterMap_eq (f := fun node => answeredPart (patchedNode proxies node))
    fun node hnode => ?_] at hperm
  · rw [mergedNodes_platform, List.map_append, List.map_map]
    exact hperm
  · obtain ⟨hsource, -, uuid, p, hp, hid, hpatched⟩ := keptNodes_spec hnode
    refine ⟨_, matching_of_mem hids (List.mem_map_of_mem hp) ?_ hid.symm, ?_⟩
    · rw [hid]
      exact fun h => by cases h
    · rw [hpatched]
      unfold answeredPart
      rw [updatedNode_source, updatedNode_platformProxyId, updatedNode_proxyVersion, hsource, hid,
        updatedNode_eq]
      rfl

theorem updatedNode_self {node fresh : VPNNode} (h : answeredPart node = answeredPart fresh) :
    updatedNode node fresh = node := by
  simp only [answeredPart, Prod.mk.injEq] at h
  obtain ⟨-, -, hname, hcountry, hversion⟩ := h
  unfold updatedNode
  rw [if_neg (not_not.mpr hversion.symm), ← hname, ← hcountry]

/-- The manual nodes come first, and the others are what was answered. -/
def Settled (proxies : List (UUID × LatchProxy)) (l : List VPNNode) : Prop :=
  ∃ ms ps, l.map answeredPart = ms ++ ps ∧ (∀ m ∈ ms, m.1 = .manual)
    ∧ ps.Perm ((incomingNodes proxies).map answeredPart)

theorem mergedNodes_settled (hn : (proxies.map (·.2.id)).Nodup) :
    Settled proxies (mergedNodes l proxies) := by
  refine ⟨(l.filter (·.source = .manual)).map answeredPart, _, ?_, ?_, mergedNodes_perm (l := l) hn⟩
  · rw [mergedNodes_platform, ← List.map_append, ← List.append_assoc]
    rfl
  · rintro m hm
    obtain ⟨node, hnode, rfl⟩ := List.mem_map.mp hm
    exact of_decide_eq_true (List.mem_filter.mp hnode).2

theorem Settled.split (h : Settled proxies l) :
    l = l.filter (·.source = .manual) ++ l.filter (·.source = .platform)
      ∧ ((l.filter (·.source = .platform)).map answeredPart).Perm
        ((incomingNodes proxies).map answeredPart) := by
  obtain ⟨ms, ps, hl, hms, hps⟩ := h
  obtain ⟨l₁, l₂, rfl, rfl, rfl⟩ := List.map_eq_append_iff.mp hl
  have h1 : ∀ node ∈ l₁, node.source = .manual := fun node hnode =>
    hms _ (List.mem_map_of_mem hnode)
  have h2 : ∀ node ∈ l₂, node.source = .platform := by
    intro node hnode
    obtain ⟨fresh, hfresh, heq⟩ := List.mem_map.mp (hps.subset (List.mem_map_of_mem hnode))
    obtain ⟨⟨uuid, p⟩, -, rfl⟩ := List.mem_map.mp hfresh
    exact (congrArg Prod.fst heq).symm
  have hmanual : (l₁ ++ l₂).filter (·.source = .manual) = l₁ := by
    rw [List.filter_append, List.filter_eq_self.mpr fun node hnode => decide_eq_true (h1 node hnode),
      List.filter_eq_nil_iff.mpr fun node hnode => by simp [h2 node hnode], List.append_nil]
  have hplatform : (l₁ ++ l₂).filter (·.source = .platform) = l₂ := by
    rw [List.filter_append, List.filter_eq_nil_iff.mpr fun node hnode => by simp [h1 node hnode],
      List.filter_eq_self.mpr fun node hnode => decide_eq_true (h2 node hnode), List.nil_append]
  rw [hmanual, hplatform]
  exact ⟨rfl, hps⟩

/-- A list that agrees with the answer is merged into itself. -/
theorem Settled.merged (h : Settled proxies l) (hn : (proxies.map (·.2.id)).Nodup) :
    mergedNodes l proxies = l := by
  obtain ⟨hl, hperm⟩ := h.split
  have hids : ((l.filter (·.source = .platform)).map VPNNode.platformProxyId).Perm
      (proxies.map (some ·.2.id)) := by
    have := hperm.map (·.2.1)
    rw [List.map_map, List.map_map] at this
    rw [← incomingNodes_ids]
    exact this
  have hsome : (proxies.map (some ·.2.id)).Nodup := by
    have := hn.map (Option.some_injective _)
    rwa [List.map_map] at this
  have hkept : keptNodes (proxies.map (some ·.2.id)) l = l.filter (·.source = .platform) := by
    refine survivors_of_nodup (hids.nodup_iff.mpr hsome) fun node hnode => ?_
    have hmem := hids.subset (List.mem_map_of_mem hnode)
    refine ⟨fun hnone => ?_, hmem⟩
    rw [hnone] at hmem
    obtain ⟨_, -, hno⟩ := List.mem_map.mp hmem
    cases hno
  have hsame : ∀ node ∈ l.filter (·.source = .platform), patchedNode proxies node = node := by
    intro node hnode
    obtain ⟨-, -, uuid, p, hp, hid, hpatched⟩ := keptNodes_spec (hkept ▸ hnode)
    rw [hpatched]
    refine updatedNode_self ?_
    obtain ⟨fresh, hfresh, heq⟩ := List.mem_map.mp (hperm.subset (List.mem_map_of_mem hnode))
    obtain ⟨⟨uuid', p'⟩, hp', rfl⟩ := List.mem_map.mp hfresh
    have hid' : some p'.id = node.platformProxyId := congrArg (·.2.1) heq
    rw [hid, Option.some.injEq] at hid'
    have := List.inj_on_of_nodup_map hn hp hp' hid'.symm
    rw [Prod.mk.injEq] at this
    rw [this.1, this.2]
    exact heq.symm
  have hnew : newNodes l proxies = [] := by
    refine List.eq_nil_iff_forall_not_mem.mpr fun fresh hfresh => ?_
    obtain ⟨hmem, hno⟩ := mem_leftovers_iff.mp hfresh
    obtain ⟨⟨uuid, p⟩, hp, rfl⟩ := List.mem_map.mp hmem
    exact hno ⟨(fun h => by cases h), hids.symm.subset (List.mem_map.mpr ⟨_, hp, rfl⟩)⟩
  unfold mergedNodes
  rw [hkept, List.map_congr_left hsame, List.map_id', hnew, List.append_nil]
  exact hl.symm

end Merge

/-! ## What a sync does -/

variable {s : TunnelManager} {proxies : List (UUID × LatchProxy)}

/-- The selection after a sync. -/
def reselected (profiles : List VPNNode) (sel : Option UUID) : Option UUID :=
  sel.bind fun sel => if profiles.any (·.id = sel) then some sel else firstID profiles

theorem syncFromPlatform_eq : s.syncFromPlatform proxies =
    { s.syncCurrentProfileDraft with
      profiles := mergedNodes s.syncCurrentProfileDraft.profiles proxies
      selectedProfileID := reselected (mergedNodes s.syncCurrentProfileDraft.profiles proxies)
        s.selectedProfileID }.applySelectedProfileToEditor.persistProfilesToKeychain := by
  have hmerge := foldl_mergeNode s.syncCurrentProfileDraft.profiles proxies
  unfold syncFromPlatform reselected
  simp only [sync_selectedProfileID] at hmerge ⊢
  simp only [hmerge]
  rcases hsel : s.selectedProfileID with _ | sel
  · rfl
  · simp only [Option.bind_some]
    split_ifs <;> rfl

theorem sync_profiles : (s.syncFromPlatform proxies).profiles
    = mergedNodes s.syncCurrentProfileDraft.profiles proxies := by
  rw [syncFromPlatform_eq, persist_profiles, apply_profiles]

theorem sync_selected : (s.syncFromPlatform proxies).selectedProfileID
    = reselected (mergedNodes s.syncCurrentProfileDraft.profiles proxies) s.selectedProfileID := by
  rw [syncFromPlatform_eq, persist_selectedProfileID, apply_selectedProfileID]

/-- A selection after a sync is of a node in the list, if there is one. -/
theorem reselected_idem (profiles : List VPNNode) (sel : Option UUID) :
    reselected profiles (reselected profiles sel) = reselected profiles sel := by
  rcases sel with _ | sel
  · rfl
  · simp only [reselected, Option.bind_some]
    split_ifs with hany
    · simp only [Option.bind_some, if_pos hany]
    · rcases profiles with _ | ⟨node, rest⟩
      · rfl
      · simp [firstID]

/-! ## What the editor shows -/

/-- The editor shows the selected profile as it is in the list. -/
def Shown (s : TunnelManager) : Prop := ∀ profile, s.selectedProfile = some profile →
  profile.toDraft = s.editor ∧ profile.dnsServers.getD [] = s.dnsServers
    ∧ profile.dnsMatchDomains.getD [] = s.dnsMatchDomains
    ∧ profile.dnsSearchDomains.getD [] = s.dnsSearchDomains

/-- The Keychain has the list. -/
def Saved (s : TunnelManager) : Prop :=
  s.keychain s.storageMode = some ⟨s.selectedProfileID, s.profiles⟩

theorem apply_selectedProfile : s.applySelectedProfileToEditor.selectedProfile = s.selectedProfile := by
  unfold selectedProfile
  rw [apply_selectedProfileID, apply_profiles]

theorem apply_shown : s.applySelectedProfileToEditor.Shown := by
  intro profile h
  rw [apply_selectedProfile] at h
  unfold applySelectedProfileToEditor
  rw [h]
  exact ⟨rfl, rfl, rfl, rfl⟩

theorem Shown.apply (h : s.Shown) : s.applySelectedProfileToEditor = s := by
  unfold applySelectedProfileToEditor
  split
  · rfl
  · next profile hsel =>
    obtain ⟨h1, h2, h3, h4⟩ := h profile hsel
    rw [h1, h2, h3, h4]

theorem Saved.persist (h : s.Saved) : s.persistProfilesToKeychain = s := by
  have hkeychain : (fun mode => if mode = s.storageMode then
      some (⟨s.selectedProfileID, s.profiles⟩ : StoredProfiles) else s.keychain mode) = s.keychain := by
    funext mode
    split_ifs with hmode
    · rw [hmode, h]
    · rfl
  unfold persistProfilesToKeychain
  rw [hkeychain]

theorem sync_of_none (h : s.selectedProfile = none) : s.syncCurrentProfileDraft = s := by
  unfold selectedProfile at h
  unfold syncCurrentProfileDraft
  rcases hsel : s.selectedProfileID with _ | id
  · rfl
  · rw [hsel] at h
    have hnone : s.profiles.findIdx? (·.id = id) = none := by
      rw [List.findIdx?_eq_none_iff]
      exact fun node hnode => by simpa using List.find?_eq_none.mp h node hnode
    simp only [hnone]

theorem sync_of_some {profile : VPNNode} (h : s.selectedProfile = some profile) :
    ∃ idx, s.profiles[idx]? = some profile ∧ s.syncCurrentProfileDraft
      = { s with profiles := s.profiles.modify idx s.edited }.persistProfilesToKeychain := by
  obtain ⟨hid, hfind⟩ := selectedProfile_spec h
  unfold syncCurrentProfileDraft
  rcases hidx : s.profiles.findIdx? (·.id = profile.id) with _ | idx
  · have := List.findIdx?_eq_none_iff.mp hidx profile (List.mem_of_find?_eq_some hfind)
    simp at this
  · refine ⟨idx, ?_, ?_⟩
    · rw [List.find?_eq_bind_findIdx?_getElem?, hidx] at hfind
      exact hfind
    · simp only [hid, hidx]

theorem modify_map {α β : Type*} {f : α → α} {g : α → β} (hf : ∀ a, g (f a) = g a) :
    ∀ (l : List α) (i : ℕ), (l.modify i f).map g = l.map g
  | [], i => by cases i <;> rfl
  | a :: l, 0 => by rw [List.modify_zero_cons, List.map_cons, List.map_cons, hf]
  | a :: l, i + 1 => by rw [List.modify_succ_cons, List.map_cons, List.map_cons, modify_map hf l i]

/-- What an edit leaves as it is a flush leaves as it is. -/
theorem sync_map {β : Type*} {g : VPNNode → β} (hg : ∀ node, g (s.edited node) = g node) :
    s.syncCurrentProfileDraft.profiles.map g = s.profiles.map g := by
  rcases h : s.selectedProfile with _ | profile
  · rw [sync_of_none h]
  · obtain ⟨idx, -, heq⟩ := sync_of_some h
    rw [heq]
    exact modify_map hg _ _

/-- A node whose three texts are set. -/
def dnsSet (node : VPNNode) : Bool :=
  node.dnsServers.isSome && node.dnsMatchDomains.isSome && node.dnsSearchDomains.isSome

theorem edited_self_iff {node : VPNNode} (h : s.Shown) (hsel : s.selectedProfile = some node) :
    s.edited node = node ↔ dnsSet node := by
  obtain ⟨h1, h2, h3, h4⟩ := h node hsel
  unfold edited dnsSet
  rw [← h1, ← h2, ← h3, ← h4]
  rcases node with ⟨d, _, _, _, _, a, b, c, _, _, _⟩
  rcases a with _ | a <;> rcases b with _ | b <;> rcases c with _ | c <;> simp

theorem modify_map_of_getElem? {α β : Type*} {f : α → α} {g : α → β} {l : List α} {i : ℕ} {a : α}
    (hi : l[i]? = some a) (hg : g (f a) = g a) : (l.modify i f).map g = l.map g := by
  refine List.ext_getElem? fun j => ?_
  rw [List.getElem?_map, List.getElem?_map, List.getElem?_modify]
  split_ifs with hj
  · rw [← hj, hi]
    exact congrArg some hg
  · simp

/-- A flush of what the editor shows of a node only sets the texts that are not set. -/
theorem sync_self_iff (hshown : s.Shown) (hsaved : s.Saved) :
    s.syncCurrentProfileDraft = s ↔ ∀ node, s.selectedProfile = some node → dnsSet node := by
  rcases hsel : s.selectedProfile with _ | node
  · exact iff_of_true (sync_of_none hsel) (fun node h => by cases h)
  · simp only [Option.some.injEq, forall_eq']
    rw [← edited_self_iff hshown hsel]
    constructor
    · intro h
      have hfind := (sync_spec hsel).1
      rw [h, (selectedProfile_spec hsel).2, Option.some.injEq] at hfind
      exact hfind.symm
    · intro h
      obtain ⟨idx, hidx, heq⟩ := sync_of_some hsel
      have hsame : s.profiles.modify idx s.edited = s.profiles := by
        have := modify_map_of_getElem? (g := id) (f := s.edited) hidx h
        rwa [List.map_id, List.map_id] at this
      rw [heq, hsame]
      exact hsaved.persist

/-- A text that is not set is the empty one: nothing was pushed. -/
def filledNode (node : VPNNode) : VPNNode :=
  { node with
    dnsServers := some (node.dnsServers.getD [])
    dnsMatchDomains := some (node.dnsMatchDomains.getD [])
    dnsSearchDomains := some (node.dnsSearchDomains.getD []) }

def filled (s : TunnelManager) : TunnelManager :=
  { s with
    profiles := s.profiles.map filledNode
    keychain := fun mode => (s.keychain mode).map fun stored =>
      { stored with profiles := stored.profiles.map filledNode } }

theorem sync_filled (hshown : s.Shown) (hsaved : s.Saved) :
    s.syncCurrentProfileDraft.filled = s.filled := by
  rcases hsel : s.selectedProfile with _ | node
  · rw [sync_of_none hsel]
  · obtain ⟨idx, hidx, heq⟩ := sync_of_some hsel
    obtain ⟨h1, h2, h3, h4⟩ := hshown node hsel
    have hnode : filledNode (s.edited node) = filledNode node := by
      unfold filledNode edited
      rw [← h1, ← h2, ← h3, ← h4]
      rfl
    have hsame := modify_map_of_getElem? hidx hnode
    have hkeychain : (fun mode => (s.syncCurrentProfileDraft.keychain mode).map fun stored =>
        { stored with profiles := stored.profiles.map filledNode })
        = fun mode => (s.keychain mode).map fun stored =>
          ({ stored with profiles := stored.profiles.map filledNode } : StoredProfiles) := by
      funext mode
      rw [heq]
      by_cases hmode : mode = s.storageMode
      · simp only [persistProfilesToKeychain, if_pos hmode, Option.map_some, hsame]
        rw [hmode, hsaved]
        rfl
      · simp only [persistProfilesToKeychain, if_neg hmode]
    unfold filled
    rw [hkeychain, heq]
    simp only [persistProfilesToKeychain, hsame]

theorem Shown.flushed (h : s.Shown) : s.syncCurrentProfileDraft.Shown := by
  rcases hsel : s.selectedProfile with _ | node
  · rwa [sync_of_none hsel]
  · have hfind := (sync_spec hsel).1
    obtain ⟨idx, -, heq⟩ := sync_of_some hsel
    intro profile hprofile
    unfold selectedProfile at hprofile
    rw [sync_selectedProfileID, (selectedProfile_spec hsel).1] at hprofile
    obtain rfl := Option.some.inj (hfind.symm.trans hprofile)
    rw [heq]
    exact ⟨rfl, rfl, rfl, rfl⟩

theorem persist_saved : s.persistProfilesToKeychain.Saved := persist_keychain_self

theorem Saved.flushed (h : s.Saved) : s.syncCurrentProfileDraft.Saved := by
  rcases hsel : s.selectedProfile with _ | node
  · rwa [sync_of_none hsel]
  · obtain ⟨idx, -, heq⟩ := sync_of_some hsel
    rw [heq]
    exact persist_saved

theorem syncFromPlatform_shown : (s.syncFromPlatform proxies).Shown := by
  rw [syncFromPlatform_eq]
  exact apply_shown

theorem syncFromPlatform_saved : (s.syncFromPlatform proxies).Saved := by
  rw [syncFromPlatform_eq]
  exact persist_saved

theorem reselected_congr {l l' : List VPNNode} (h : l.map (·.id) = l'.map (·.id))
    (sel : Option UUID) : reselected l sel = reselected l' sel := by
  have hany : ∀ (l : List VPNNode) id, l.any (·.id = id) = (l.map (·.id)).any (· = id) := by
    intro l id
    rw [List.any_map]
    rfl
  have hfirst : ∀ l : List VPNNode, firstID l = (l.map (·.id)).head? := fun l => by
    rw [firstID, List.head?_map]
  unfold reselected
  simp only [hany, hfirst, h]

/-- All that a second sync does is to flush what the editor shows. -/
theorem sync_twice {proxies' : List (UUID × LatchProxy)} (hn : (proxies.map (·.2.id)).Nodup)
    (hn' : (proxies'.map (·.2.id)).Nodup)
    (hsame : ((incomingNodes proxies).map answeredPart).Perm
      ((incomingNodes proxies').map answeredPart)) :
    (s.syncFromPlatform proxies).syncFromPlatform proxies'
      = (s.syncFromPlatform proxies).syncCurrentProfileDraft := by
  have hshown : (s.syncFromPlatform proxies).syncCurrentProfileDraft.Shown :=
    syncFromPlatform_shown.flushed
  have hsaved : (s.syncFromPlatform proxies).syncCurrentProfileDraft.Saved :=
    syncFromPlatform_saved.flushed
  have hsettled : Settled proxies' (s.syncFromPlatform proxies).syncCurrentProfileDraft.profiles := by
    obtain ⟨ms, ps, hl, hms, hps⟩ := mergedNodes_settled (l := s.syncCurrentProfileDraft.profiles) hn
    refine ⟨ms, ps, ?_, hms, hps.trans hsame⟩
    rw [sync_map fun _ => rfl, sync_profiles, hl]
  have hsel : reselected (s.syncFromPlatform proxies).syncCurrentProfileDraft.profiles
      (s.syncFromPlatform proxies).selectedProfileID
        = (s.syncFromPlatform proxies).syncCurrentProfileDraft.selectedProfileID := by
    rw [reselected_congr (sync_map fun _ => rfl), sync_selectedProfileID, sync_selected,
      sync_profiles, reselected_idem]
  rw [syncFromPlatform_eq (s := s.syncFromPlatform proxies), hsettled.merged hn', hsel, hshown.apply,
    hsaved.persist]

/-- The selected profile after a sync is the one with the id that was selected, or else the
first. -/
theorem find?_reselected (l : List VPNNode) (sel : UUID) :
    ((reselected l (some sel)).bind fun id => l.find? (·.id = id))
      = (l.find? (·.id = sel)).or l.head? := by
  simp only [reselected, Option.bind_some]
  split_ifs with hany
  · rcases hfound : l.find? (·.id = sel) with _ | found
    · obtain ⟨node, hnode, hid⟩ := List.any_eq_true.mp hany
      exact absurd hid (List.find?_eq_none.mp hfound node hnode)
    · rw [hfound, Option.some_or]
      exact hfound
  · have hnone : l.find? (·.id = sel) = none := by
      refine List.find?_eq_none.mpr fun node hnode hid => hany ?_
      exact List.any_eq_true.mpr ⟨node, hnode, hid⟩
    rw [hnone, Option.none_or]
    rcases l with _ | ⟨node, rest⟩
    · rfl
    · simp [firstID]

/-! ## The merge is what the answer says -/

variable {answer answer' : List LatchProfile}

/-- A sync merges the answer into the flushed list. -/
structure MergedFrom (s : TunnelManager) (answer : List LatchProfile) (s' : TunnelManager) : Prop where
  /-- The manual nodes are as they were. -/
  manual : s'.manualNodes = s.syncCurrentProfileDraft.manualNodes
  /-- No two of the platform's nodes are of one proxy. -/
  distinct : (s'.platformNodes.map (·.platformProxyId)).Nodup
  /-- There is one for each convertible proxy. -/
  answered : ∀ id, id ∈ s'.platformNodes.map (·.platformProxyId)
    ↔ id ∈ (convertible answer).map (some ·.id)
  /-- A node that was there has its id and its settings. -/
  existing : ∀ node ∈ s'.platformNodes, ∀ before,
    s.syncCurrentProfileDraft.platformNodes.find? (·.platformProxyId = node.platformProxyId)
        = some before →
      node.id = before.id ∧ node.routeMode = before.routeMode ∧ node.dnsMode = before.dnsMode
        ∧ node.splitInjectedRoutes = before.splitInjectedRoutes
        ∧ node.dnsServers = before.dnsServers ∧ node.dnsMatchDomains = before.dnsMatchDomains
        ∧ node.dnsSearchDomains = before.dnsSearchDomains
        ∧ (node.proxyVersion = before.proxyVersion → node.config = before.config)
  /-- Every node agrees with the answer. -/
  agrees : ∀ node ∈ s'.platformNodes, ∀ proxy, lastAnswered answer node.platformProxyId = some proxy →
    node.name = proxy.name ∧ node.country = proxy.country.getD []
      ∧ node.proxyVersion = some proxy.version ∧ node.platformProfileId = some proxy.profileId
  /-- Where the version is another one, or the node is new, the configuration is the answer's. -/
  config : ∀ node ∈ s'.platformNodes, ∀ proxy, lastAnswered answer node.platformProxyId = some proxy →
    (∀ before, s.syncCurrentProfileDraft.platformNodes.find?
        (·.platformProxyId = node.platformProxyId) = some before →
      before.proxyVersion ≠ some proxy.version) → node.config = proxy.wgConfig

/-- The platform's nodes that are kept have the profile that the answer has their proxy in. -/
def OwnersKept (s : TunnelManager) (answer : List LatchProfile) : Prop :=
  ∀ id node proxy, s.platformNodes.find? (·.platformProxyId = id) = some node →
    lastAnswered answer id = some proxy → node.platformProfileId = some proxy.profileId

/-- The nodes that a sync keeps, as they are before it. -/
def keptList (s : TunnelManager) (answer : List LatchProfile) : List VPNNode :=
  s.syncCurrentProfileDraft.manualNodes
    ++ keptNodes ((convertible answer).map (some ·.id)) s.syncCurrentProfileDraft.profiles

/-- The node that will be selected has its three texts set, and is not a new one. -/
def DnsHeld (s : TunnelManager) (answer : List LatchProfile) : Prop :=
  ∀ sel, s.selectedProfileID = some sel →
    match ((s.keptList answer).find? (·.id = sel)).or (s.keptList answer).head? with
    | some node => dnsSet node
    | none => convertible answer = []

/-- A node after the sync is a kept one updated or is new. -/
theorem synced_cases (hanswer : Answers proxies answer) {node : VPNNode}
    (h : node ∈ (s.syncFromPlatform proxies).platformNodes) :
    ∃ uuid proxy, (uuid, proxy) ∈ proxies ∧ node.platformProxyId = some proxy.id
      ∧ lastAnswered answer node.platformProxyId = some proxy
      ∧ ((∃ before, s.syncCurrentProfileDraft.platformNodes.find?
            (·.platformProxyId = node.platformProxyId) = some before
          ∧ node = updatedNode before (platformNode uuid proxy))
        ∨ s.syncCurrentProfileDraft.platformNodes.find?
            (·.platformProxyId = node.platformProxyId) = none
          ∧ node = platformNode uuid proxy) := by
  unfold platformNodes at h
  rw [sync_profiles, mergedNodes_platform, List.mem_append] at h
  rcases h with h | h
  · obtain ⟨before, hbefore, rfl⟩ := List.mem_map.mp h
    obtain ⟨-, hfind, uuid, proxy, hp, hid, hpatched⟩ := keptNodes_spec hbefore
    rw [hpatched, updatedNode_platformProxyId]
    exact ⟨uuid, proxy, hp, hid, hid ▸ hanswer.mem hp, .inl ⟨before, hfind, rfl⟩⟩
  · obtain ⟨uuid, proxy, hp, rfl, hfind⟩ := newNodes_spec h
    exact ⟨uuid, proxy, hp, rfl, hanswer.mem hp, .inr ⟨hfind, rfl⟩⟩

/-- The first of the platform's nodes with an id is of the same profile after a flush. -/
theorem flushed_owner (s : TunnelManager) (id : Option Text) :
    (s.syncCurrentProfileDraft.platformNodes.find? (·.platformProxyId = id)).map
        (·.platformProfileId)
      = (s.platformNodes.find? (·.platformProxyId = id)).map (·.platformProfileId) := by
  have howner : ∀ l : List VPNNode,
      ((l.filter (·.source = .platform)).find? (·.platformProxyId = id)).map (·.platformProfileId)
        = (((l.map fun node => (node.source, node.platformProxyId, node.platformProfileId)).filter
            (·.1 = .platform)).find? (·.2.1 = id)).map (·.2.2) := by
    intro l
    rw [List.filter_map, List.find?_map, Option.map_map]
    rfl
  unfold platformNodes
  rw [howner, howner, sync_map fun _ => rfl]

theorem merged_iff (hanswer : Answers proxies answer) :
    MergedFrom s answer (s.syncFromPlatform proxies) ↔ OwnersKept s answer := by
  have hperm := mergedNodes_perm (l := s.syncCurrentProfileDraft.profiles) hanswer.nodup
  have hids : ((s.syncFromPlatform proxies).platformNodes.map (·.platformProxyId)).Perm
      (proxies.map (some ·.2.id)) := by
    have := hperm.map (·.2.1)
    rw [List.map_map, List.map_map] at this
    unfold platformNodes
    rw [sync_profiles, ← incomingNodes_ids]
    exact this
  constructor
  · intro h id node proxy hfind hlast
    have howner := flushed_owner s id
    rw [hfind, Option.map_some] at howner
    obtain ⟨before, hbefore, howner⟩ := Option.map_eq_some_iff.mp howner
    have hid : before.platformProxyId = id := by simpa using List.find?_some hbefore
    rw [← hid] at hlast hbefore
    have hk : before.platformProxyId ∈ proxies.map (some ·.2.id) :=
      (hanswer.ids _).mpr (lastAnswered_isSome.mp (Option.isSome_iff_exists.mpr ⟨proxy, hlast⟩))
    have hne : before.platformProxyId ≠ none := by
      rw [lastAnswered_id hlast]
      exact fun h => by cases h
    have hkept : before ∈ keptNodes (proxies.map (some ·.2.id)) s.syncCurrentProfileDraft.profiles :=
      mem_survivors_iff.mpr ⟨hne, hk, hbefore⟩
    obtain ⟨-, -, uuid, p, -, -, hpatched⟩ := keptNodes_spec hkept
    have hmem : updatedNode before (platformNode uuid p)
        ∈ (s.syncFromPlatform proxies).platformNodes := by
      unfold platformNodes
      rw [sync_profiles, mergedNodes_platform, ← hpatched]
      exact List.mem_append_left _ (List.mem_map_of_mem hkept)
    have := (h.agrees _ hmem proxy (by rw [updatedNode_platformProxyId, hlast])).2.2.2
    rwa [updatedNode_platformProfileId, howner] at this
  · intro howners
    refine ⟨?_, ?_, ?_, ?_, ?_, ?_⟩
    · unfold manualNodes
      rw [sync_profiles, mergedNodes_manual]
    · have := hanswer.nodup.map (Option.some_injective _)
      rw [List.map_map] at this
      exact hids.nodup_iff.mpr this
    · exact fun id => hids.mem_iff.trans (hanswer.ids id)
    · intro node hnode before hbefore
      obtain ⟨uuid, proxy, -, -, -, ⟨before', hbefore', rfl⟩ | ⟨hnone, -⟩⟩ :=
        synced_cases hanswer hnode
      · obtain rfl := Option.some.inj (hbefore.symm.trans hbefore')
        rw [updatedNode_eq]
        refine ⟨rfl, rfl, rfl, rfl, rfl, rfl, rfl, fun hversion => ?_⟩
        exact (updatedNode_config _ _).trans (if_neg (not_not.mpr hversion))
      · rw [hnone] at hbefore
        cases hbefore
    · intro node hnode proxy hlast
      obtain ⟨uuid, proxy', -, -, hlast', h⟩ := synced_cases hanswer hnode
      obtain rfl := Option.some.inj (hlast.symm.trans hlast')
      rcases h with ⟨before, hbefore, rfl⟩ | ⟨-, rfl⟩
      · have howner := flushed_owner s (updatedNode before (platformNode uuid proxy)).platformProxyId
        rw [hbefore, Option.map_some] at howner
        obtain ⟨node, hnode, howner⟩ := Option.map_eq_some_iff.mp howner.symm
        have hsame := howners _ _ _ hnode hlast
        rw [howner] at hsame
        rw [updatedNode_eq]
        exact ⟨rfl, rfl, rfl, hsame⟩
      · exact ⟨rfl, rfl, rfl, rfl⟩
    · intro node hnode proxy hlast hchanged
      obtain ⟨uuid, proxy', -, -, hlast', h⟩ := synced_cases hanswer hnode
      obtain rfl := Option.some.inj (hlast.symm.trans hlast')
      rcases h with ⟨before, hbefore, rfl⟩ | ⟨-, rfl⟩
      · exact (updatedNode_config _ _).trans (if_pos (Ne.symm (hchanged before hbefore)))
      · rfl

theorem keptNodes_answered (hanswer : Answers proxies answer) (l : List VPNNode) :
    keptNodes ((convertible answer).map (some ·.id)) l = keptNodes (proxies.map (some ·.2.id)) l :=
  survivors_congr (fun k => (hanswer.ids k).symm) _

/-- Which node comes first with an id, or else at all, and whether its texts are set. -/
theorem chosen_congr {l l' : List VPNNode}
    (h : (l.map fun node => (node.id, dnsSet node)) = l'.map fun node => (node.id, dnsSet node))
    (sel : UUID) :
    ((l.find? (·.id = sel)).or l.head?).map dnsSet
      = ((l'.find? (·.id = sel)).or l'.head?).map dnsSet := by
  have hchosen : ∀ l : List VPNNode, ((l.find? (·.id = sel)).or l.head?).map dnsSet
      = (((l.map fun node => (node.id, dnsSet node)).find? (·.1 = sel)).or
        (l.map fun node => (node.id, dnsSet node)).head?).map (·.2) := by
    intro l
    rw [List.find?_map, List.head?_map, ← Option.map_or, Option.map_map]
    rfl
  rw [hchosen, hchosen, h]

theorem updatedNode_dnsSet (node fresh : VPNNode) : dnsSet (updatedNode node fresh) = dnsSet node := by
  unfold updatedNode dnsSet
  split <;> rfl

/-- What is selected after a sync. -/
theorem synced_selected {sel : UUID} (hsel : s.selectedProfileID = some sel)
    (hnew : ∀ p ∈ proxies, s.selectedProfileID ≠ some p.1) (hanswer : Answers proxies answer) :
    (s.syncFromPlatform proxies).selectedProfile.map dnsSet
      = ((((s.keptList answer).find? (·.id = sel)).or (s.keptList answer).head?).map dnsSet).or
        ((newNodes s.syncCurrentProfileDraft.profiles proxies).head?.map fun _ => false) := by
  have hselected : (s.syncFromPlatform proxies).selectedProfile
      = ((mergedNodes s.syncCurrentProfileDraft.profiles proxies).find? (·.id = sel)).or
        (mergedNodes s.syncCurrentProfileDraft.profiles proxies).head? := by
    rw [← find?_reselected, ← hsel, ← sync_selected, ← sync_profiles]
    rfl
  have hnone : (newNodes s.syncCurrentProfileDraft.profiles proxies).find? (·.id = sel) = none := by
    refine List.find?_eq_none.mpr fun node hnode hid => ?_
    obtain ⟨uuid, p, hp, rfl, -⟩ := newNodes_spec hnode
    exact hnew _ hp (hsel.trans (congrArg some (of_decide_eq_true hid).symm))
  have hunset : (newNodes s.syncCurrentProfileDraft.profiles proxies).head?.map dnsSet
      = (newNodes s.syncCurrentProfileDraft.profiles proxies).head?.map fun _ => false := by
    refine Option.map_congr fun node hnode => ?_
    obtain ⟨uuid, p, -, rfl, -⟩ := newNodes_spec (List.mem_of_head? hnode)
    rfl
  have hkept : ((s.syncCurrentProfileDraft.manualNodes
        ++ (keptNodes (proxies.map (some ·.2.id)) s.syncCurrentProfileDraft.profiles).map
          (patchedNode proxies)).map fun node => (node.id, dnsSet node))
      = (s.keptList answer).map fun node => (node.id, dnsSet node) := by
    unfold keptList
    rw [keptNodes_answered hanswer, List.map_append, List.map_append, List.map_map]
    refine congrArg _ (List.map_congr_left fun node hnode => ?_)
    obtain ⟨-, -, uuid, p, -, -, hpatched⟩ := keptNodes_spec hnode
    simp only [Function.comp_apply]
    rw [hpatched, updatedNode_id, updatedNode_dnsSet]
  rw [hselected, mergedNodes, List.find?_append, hnone, Option.or_none, List.head?_append,
    ← Option.or_assoc, Option.map_or, hunset]
  exact congrArg (Option.or · _) (chosen_congr hkept sel)

theorem dns_iff (hnew : ∀ p ∈ proxies, s.selectedProfileID ≠ some p.1)
    (hanswer : Answers proxies answer) :
    (∀ node, (s.syncFromPlatform proxies).selectedProfile = some node → dnsSet node)
      ↔ DnsHeld s answer := by
  unfold DnsHeld
  rcases hsel : s.selectedProfileID with _ | sel
  · refine iff_of_true (fun node h => ?_) (fun sel h => by cases h)
    have hid := (selectedProfile_spec h).1
    rw [sync_selected, hsel] at hid
    cases hid
  · have hselected := synced_selected hsel hnew hanswer
    have hdns : (∀ node, (s.syncFromPlatform proxies).selectedProfile = some node → dnsSet node)
        ↔ (s.syncFromPlatform proxies).selectedProfile.map dnsSet ≠ some false := by
      rcases (s.syncFromPlatform proxies).selectedProfile with _ | node <;> simp
    rw [hdns, hselected]
    simp only [Option.some.injEq, forall_eq']
    rcases hchosen : ((s.keptList answer).find? (·.id = sel)).or (s.keptList answer).head? with
      _ | node
    · have hnil : s.keptList answer = [] := List.head?_eq_none_iff.mp (Option.or_eq_none_iff.mp hchosen).2
      rw [keptList, List.append_eq_nil_iff, keptNodes_answered hanswer] at hnil
      have hlength := (mergedNodes_perm (l := s.syncCurrentProfileDraft.profiles) hanswer.nodup).length_eq
      rw [mergedNodes_platform, hnil.2, List.map_nil, List.nil_append, List.length_map,
        List.length_map, List.length_map] at hlength
      have hconvertible : convertible answer = [] ↔ proxies = [] := by
        rw [← List.map_eq_nil_iff (f := fun p : LatchProxy => some p.id),
          ← List.map_eq_nil_iff (l := proxies) (f := fun p => some p.2.id),
          List.eq_nil_iff_forall_not_mem, List.eq_nil_iff_forall_not_mem]
        exact forall_congr' fun k => not_congr (hanswer.ids k).symm
      simp only [hchosen, Option.map_none, Option.none_or]
      rw [hconvertible, ← List.length_eq_zero_iff, ← hlength, List.length_eq_zero_iff]
      rcases newNodes s.syncCurrentProfileDraft.profiles proxies with _ | ⟨node, rest⟩ <;> simp
    · simp only [hchosen, Option.map_some, Option.some_or]
      simp

/-- After a sync the list is the merge of the answer exactly if none of the platform's proxies has
come into another profile. Made again it changes nothing but that a text that is not set is set to
the empty one, and exactly nothing if the node that is then selected has its texts set. -/
theorem platform_sync {proxies' : List (UUID × LatchProxy)} (hanswer : Answers proxies answer)
    (hanswer' : Answers proxies' answer') (hsame : SameAnswer answer answer')
    (hnew : ∀ p ∈ proxies, s.selectedProfileID ≠ some p.1) :
    (MergedFrom s answer (s.syncFromPlatform proxies) ↔ OwnersKept s answer)
      ∧ ((s.syncFromPlatform proxies).syncFromPlatform proxies').filled
        = (s.syncFromPlatform proxies).filled
      ∧ ((s.syncFromPlatform proxies).syncFromPlatform proxies' = s.syncFromPlatform proxies
        ↔ DnsHeld s answer) := by
  have hparts : ((incomingNodes proxies).map answeredPart).Perm
      ((incomingNodes proxies').map answeredPart) := by
    have hpart : ∀ proxies : List (UUID × LatchProxy), (incomingNodes proxies).map answeredPart
        = ((proxies.map Prod.snd).map LatchProxy.untexted).map
          fun p => answeredPart (platformNode 0 p) := by
      intro proxies
      rw [List.map_map, List.map_map, List.map_map]
      rfl
    rw [hpart, hpart]
    refine ((hanswer.map _).trans ?_).map _
    rw [incomingProxies_untexted hsame]
    exact (hanswer'.map _).symm
  rw [sync_twice hanswer.nodup hanswer'.nodup hparts,
    sync_self_iff syncFromPlatform_shown syncFromPlatform_saved, dns_iff hnew hanswer]
  exact ⟨merged_iff hanswer, sync_filled syncFromPlatform_shown syncFromPlatform_saved, .rfl⟩

end TunnelManager

namespace Specimen

/-- A proxy that can be used, in a profile. -/
def latchAnswer (profileId : String) : List LatchProfile :=
  [⟨profileId.toList, [⟨"p1".toList, "tokyo".toList,
    [("PrivateKey".toList, .string "k".toList), ("PublicKey".toList, .string "k".toList)], none, 1⟩]⟩]

def latchProxies (uuid : UUID) (profileId : String) : List (UUID × LatchProxy) :=
  (convertible (latchAnswer profileId)).map (uuid, ·)

/-- A manager whose only node came with the profile "a". -/
def latchManager : TunnelManager :=
  { someManager with selectedProfileID := none, profiles := [] }.syncFromPlatform (latchProxies 7 "a")

def latchSelected : TunnelManager := latchManager.selectProfile 7

/-- The selected node is of a proxy that is not in the answer. -/
def latchDropping : TunnelManager :=
  { latchManager with
    profiles := latchManager.profiles ++
      [TunnelManager.platformNode 6 ⟨"p2".toList, "oslo".toList, none, 1, "a".toList, []⟩]
    selectedProfileID := some 6 }

end Specimen

open Specimen

theorem platform_sync_again :
    latchSelected.MergedFrom (latchAnswer "a") (latchSelected.syncFromPlatform (latchProxies 8 "a"))
      ∧ (latchSelected.syncFromPlatform (latchProxies 8 "a")).syncFromPlatform (latchProxies 9 "a")
        = latchSelected.syncFromPlatform (latchProxies 8 "a") := by
  have hanswers : ∀ uuid, Answers (latchProxies uuid "a") (latchAnswer "a") := fun _ => .refl _
  have hsync := TunnelManager.platform_sync (s := latchSelected) (hanswers 8) (hanswers 9)
    (.cons ⟨rfl, .cons ⟨.refl _, rfl⟩ .nil⟩ .nil) (by decide)
  refine ⟨hsync.1.mpr ?_, hsync.2.2.mpr ?_⟩
  · intro id node proxy hnode hproxy
    obtain rfl := List.mem_singleton.mp (List.mem_of_find?_eq_some hnode)
    obtain rfl := List.mem_singleton.mp (List.mem_of_find?_eq_some hproxy)
    rfl
  · rintro sel ⟨⟩
    rfl

/-- A proxy comes into another profile and its node does not; and a node that comes to be selected
in place of one that is gone is flushed by the second sync. -/
theorem proxy_moved :
    ¬ latchSelected.MergedFrom (latchAnswer "b") (latchSelected.syncFromPlatform (latchProxies 8 "b"))
      ∧ (latchDropping.syncFromPlatform (latchProxies 8 "a")).syncFromPlatform (latchProxies 9 "a")
        ≠ latchDropping.syncFromPlatform (latchProxies 8 "a") := by
  constructor
  · intro h
    have hnode := h.agrees _ List.mem_cons_self _ rfl
    exact absurd hnode.2.2.2 (by decide)
  · intro h
    have hprofiles := congrArg (·.profiles.map (·.dnsServers)) h
    exact absurd hprofiles (by decide)

end PolarWG
