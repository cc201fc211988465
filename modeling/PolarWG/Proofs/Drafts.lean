import PolarWG.WgTunnelManager

/-!
# Drafts that are kept

Whatever moves the selection writes the editor's draft to the profile that it leaves, but joining a
mesh does not.
-/

namespace PolarWG

section Lists

variable {α : Type*} {p : α → Bool} {f : α → α}

/-- The first element that satisfies the predicate is the one that is changed. -/
theorem find?_modify (hf : ∀ a, p (f a) = p a) : ∀ {l : List α} {idx : ℕ},
    l.findIdx? p = some idx → (l.modify idx f).find? p = (l.find? p).map f
  | [], idx, h => by cases h
  | a :: l, idx, h => by
    rw [List.findIdx?_cons] at h
    split at h
    · next ha =>
      cases h
      rw [List.modify_zero_cons, List.find?_cons_of_pos (by rw [hf, ha]), List.find?_cons_of_pos ha]
      rfl
    · next ha =>
      obtain ⟨idx, hidx, rfl⟩ := Option.map_eq_some_iff.mp h
      rw [List.modify_succ_cons, List.find?_cons_of_neg ha, List.find?_cons_of_neg ha]
      exact find?_modify hf hidx

theorem find?_append_of_some {a : α} {l l' : List α} (h : l.find? p = some a) :
    (l ++ l').find? p = some a := by
  rw [List.find?_append, h]
  rfl

end Lists

/-! ## The iOS application -/

namespace TunnelManager

variable {s s' : TunnelManager} {profile : VPNNode}

@[simp]
theorem apply_profiles : s.applySelectedProfileToEditor.profiles = s.profiles := by
  unfold applySelectedProfileToEditor
  split <;> rfl

@[simp]
theorem apply_storageMode : s.applySelectedProfileToEditor.storageMode = s.storageMode := by
  unfold applySelectedProfileToEditor
  split <;> rfl

@[simp]
theorem apply_selectedProfileID :
    s.applySelectedProfileToEditor.selectedProfileID = s.selectedProfileID := by
  unfold applySelectedProfileToEditor
  split <;> rfl

@[simp]
theorem apply_keychain : s.applySelectedProfileToEditor.keychain = s.keychain := by
  unfold applySelectedProfileToEditor
  split <;> rfl

@[simp]
theorem apply_meshMeta : s.applySelectedProfileToEditor.meshMeta = s.meshMeta := by
  unfold applySelectedProfileToEditor
  split <;> rfl

@[simp]
theorem persist_profiles : s.persistProfilesToKeychain.profiles = s.profiles := rfl

@[simp]
theorem persist_storageMode : s.persistProfilesToKeychain.storageMode = s.storageMode := rfl

@[simp]
theorem persist_selectedProfileID :
    s.persistProfilesToKeychain.selectedProfileID = s.selectedProfileID := rfl

@[simp]
theorem persist_meshMeta : s.persistProfilesToKeychain.meshMeta = s.meshMeta := rfl

theorem persist_keychain_self :
    s.persistProfilesToKeychain.keychain s.storageMode = some ⟨s.selectedProfileID, s.profiles⟩ :=
  if_pos rfl

theorem persist_keychain_of_ne {mode : ProfileStorageMode} (h : mode ≠ s.storageMode) :
    s.persistProfilesToKeychain.keychain mode = s.keychain mode :=
  if_neg h

theorem selectedProfile_spec (h : s.selectedProfile = some profile) :
    s.selectedProfileID = some profile.id ∧ s.profiles.find? (·.id = profile.id) = some profile := by
  unfold selectedProfile at h
  obtain ⟨id, hid, hfind⟩ := Option.bind_eq_some_iff.mp h
  have : profile.id = id := by simpa using List.find?_some hfind
  rw [this]
  exact ⟨hid, hfind⟩

@[simp]
theorem sync_storageMode : s.syncCurrentProfileDraft.storageMode = s.storageMode := by
  unfold syncCurrentProfileDraft
  split
  · rfl
  · split <;> rfl

@[simp]
theorem sync_selectedProfileID :
    s.syncCurrentProfileDraft.selectedProfileID = s.selectedProfileID := by
  unfold syncCurrentProfileDraft
  split
  · rfl
  · split <;> rfl

/-- The profile has the editor's draft, in the list and in the Keychain. -/
theorem sync_spec (h : s.selectedProfile = some profile) :
    s.syncCurrentProfileDraft.profiles.find? (·.id = profile.id) = some (s.edited profile)
      ∧ s.syncCurrentProfileDraft.keychain s.storageMode
        = some ⟨s.selectedProfileID, s.syncCurrentProfileDraft.profiles⟩ := by
  obtain ⟨hid, hfind⟩ := selectedProfile_spec h
  unfold syncCurrentProfileDraft
  rw [hid]
  simp only []
  rcases hidx : s.profiles.findIdx? (fun q => decide (q.id = profile.id)) with _ | idx
  · have := List.findIdx?_eq_none_iff.mp hidx profile (List.mem_of_find?_eq_some hfind)
    simp at this
  · have hfound := find?_modify (f := s.edited) (fun _ => rfl) hidx
    rw [hfind] at hfound
    simp only [hidx]
    exact ⟨hfound, if_pos rfl⟩

/-- The profile as it is in the profiles of a mode. -/
def stored (s : TunnelManager) (mode : ProfileStorageMode) (id : UUID) : Option VPNNode :=
  let profiles := if mode = s.storageMode then s.profiles
    else ((s.keychain mode).map (·.profiles)).getD []
  profiles.find? (·.id = id)

/-- A profile that is left for another, and is still there, has the draft that the editor showed of
it. A profile belongs to the storage mode that it was shown in. -/
def DraftKept (s s' : TunnelManager) : Prop :=
  ∀ profile, s.selectedProfile = some profile →
    (s'.storageMode, s'.selectedProfileID) ≠ (s.storageMode, some profile.id) →
    ∀ kept, s'.stored s.storageMode profile.id = some kept → kept.toDraft = s.editor

theorem draftKept_of_stays (hmode : s'.storageMode = s.storageMode)
    (hsel : s'.selectedProfileID = s.selectedProfileID) : DraftKept s s' := by
  intro profile h hne
  rw [hmode, hsel, (selectedProfile_spec h).1] at hne
  exact absurd rfl hne

theorem stored_of_mode (hmode : s'.storageMode = s.storageMode) (id : UUID) :
    s'.stored s.storageMode id = s'.profiles.find? (·.id = id) := by
  unfold stored
  rw [if_pos hmode.symm]

/-- It is enough that it is found with the draft where it is, if it is found. -/
theorem draftKept_of_find (hmode : s'.storageMode = s.storageMode)
    (h : ∀ profile, s.selectedProfile = some profile → s'.selectedProfileID ≠ some profile.id →
      ∀ kept, s'.profiles.find? (·.id = profile.id) = some kept → kept.toDraft = s.editor) :
    DraftKept s s' := by
  intro profile hsel hne kept hkept
  rw [stored_of_mode hmode] at hkept
  refine h profile hsel (fun heq => hne ?_) kept hkept
  rw [hmode, heq]

theorem selectProfile_kept (id : UUID) : DraftKept s (s.selectProfile id) := by
  refine draftKept_of_find (by simp [selectProfile]) fun profile hsel _ kept hkept => ?_
  have hprofiles : (s.selectProfile id).profiles = s.syncCurrentProfileDraft.profiles := by
    simp [selectProfile]
  rw [hprofiles, (sync_spec hsel).1] at hkept
  cases hkept
  rfl

theorem addProfile_kept (uuid : UUID) (proposedName : Option Text) :
    DraftKept s (s.addProfile uuid proposedName) := by
  refine draftKept_of_find (by simp [addProfile, appendSelected])
    fun profile hsel _ kept hkept => ?_
  simp only [addProfile, appendSelected, persist_profiles, apply_profiles] at hkept
  rw [find?_append_of_some (sync_spec hsel).1] at hkept
  cases hkept
  rfl

/-- The draft stays behind in the mode that is left. -/
theorem setStorageMode_kept (mode : ProfileStorageMode) : DraftKept s (s.setStorageMode mode) := by
  unfold setStorageMode
  split_ifs with hsame
  · exact draftKept_of_stays rfl rfl
  intro profile hsel _ kept hkept
  obtain ⟨hfind, hkeychain⟩ := sync_spec hsel
  have hstored : ∀ t : TunnelManager, t.storageMode = mode →
      t.keychain s.storageMode = s.syncCurrentProfileDraft.keychain s.storageMode →
      t.stored s.storageMode profile.id = some kept → kept.toDraft = s.editor := by
    intro t hmode hk hkept
    unfold stored at hkept
    rw [hmode, if_neg (Ne.symm hsame), hk, hkeychain] at hkept
    simp only [Option.map_some, Option.getD_some] at hkept
    rw [hfind] at hkept
    cases hkept
    rfl
  simp only [] at hkept
  split at hkept
  · exact hstored _ (by simp) (by simp) hkept
  · refine hstored _ (by simp) ?_ hkept
    rw [persist_keychain_of_ne (by simpa using Ne.symm hsame)]
    simp

/-- The selection is left only where its profile is gone. -/
theorem syncFromPlatform_kept (proxies : List (UUID × LatchProxy)) :
    DraftKept s (s.syncFromPlatform proxies) := by
  refine draftKept_of_find ?_ fun profile hsel hne kept hkept => ?_
  · simp only [syncFromPlatform, persist_storageMode, apply_storageMode]
    split
    · split_ifs <;> simp
    · simp
  simp only [syncFromPlatform, persist_profiles, apply_profiles, persist_selectedProfileID,
    apply_selectedProfileID, sync_selectedProfileID, (selectedProfile_spec hsel).1] at hne hkept
  split_ifs at hne hkept with hany
  · exact absurd rfl hne
  · refine absurd (List.any_eq_true.mpr ⟨kept, List.mem_of_find?_eq_some hkept, ?_⟩) hany
    simpa using List.find?_some hkept

theorem isFresh_ne {uuid : UUID} (hfresh : s.isFresh uuid = true) (hmem : profile ∈ s.profiles) :
    profile.id ≠ uuid := by
  simpa using List.all_eq_true.mp hfresh profile hmem

/-- Joining leaves the profile as it was last stored. -/
theorem joinMesh_kept_iff {uuid : UUID} (token resolvedServer privB64 : Text)
    (resp : MeshJoinResponse) (hfresh : s.isFresh uuid = true) :
    DraftKept s (s.joinMesh uuid token resolvedServer privB64 resp)
      ↔ ∀ profile, s.selectedProfile = some profile → profile.toDraft = s.editor := by
  have hmode : (s.joinMesh uuid token resolvedServer privB64 resp).storageMode = s.storageMode := by
    simp [joinMesh, appendSelected]
  have hsel' : (s.joinMesh uuid token resolvedServer privB64 resp).selectedProfileID = some uuid := by
    simp [joinMesh, appendSelected]
  have hfind : ∀ profile, s.selectedProfile = some profile →
      (s.joinMesh uuid token resolvedServer privB64 resp).profiles.find? (·.id = profile.id)
        = some profile := by
    intro profile hsel
    simp only [joinMesh, appendSelected, persist_profiles, apply_profiles]
    exact find?_append_of_some (selectedProfile_spec hsel).2
  constructor
  · intro hkept profile hsel
    have hne := isFresh_ne hfresh (List.mem_of_find?_eq_some (selectedProfile_spec hsel).2)
    refine hkept profile hsel ?_ profile ?_
    · rw [hsel']
      simpa using fun _ => Ne.symm hne
    · rw [stored_of_mode hmode]
      exact hfind profile hsel
  · intro hdraft
    refine draftKept_of_find hmode fun profile hsel _ kept hkept => ?_
    rw [hfind profile hsel] at hkept
    cases hkept
    exact hdraft profile hsel

theorem deleteSelectedProfile_kept {t : TunnelManager} (hmode : t.storageMode = s.storageMode)
    (hsel : t.selectedProfileID = s.selectedProfileID) : DraftKept s t.deleteSelectedProfile := by
  unfold deleteSelectedProfile
  split
  · exact draftKept_of_stays hmode hsel
  next id hid =>
  split_ifs with hone
  · exact draftKept_of_stays hmode hsel
  refine draftKept_of_find (by simp [hmode]) fun profile hprofile _ kept hkept => ?_
  have hmem := List.mem_of_find?_eq_some hkept
  have hkid : kept.id = profile.id := by simpa using List.find?_some hkept
  simp only [persist_profiles, apply_profiles, List.mem_filter, decide_eq_true_eq] at hmem
  rw [hsel, (selectedProfile_spec hprofile).1, Option.some.injEq] at hid
  exact absurd (hkid.trans hid) hmem.2

theorem save_stays (config : Text) (routeMode : RouteMode) (splitInjectedRoutes : Text) :
    (s.save config routeMode splitInjectedRoutes).storageMode = s.storageMode
      ∧ (s.save config routeMode splitInjectedRoutes).selectedProfileID = s.selectedProfileID := by
  unfold save
  exact ⟨sync_storageMode, sync_selectedProfileID⟩

theorem saveCurrentProfile_stays : s.saveCurrentProfile.storageMode = s.storageMode
    ∧ s.saveCurrentProfile.selectedProfileID = s.selectedProfileID := by
  unfold saveCurrentProfile
  simp only []
  split
  · exact ⟨sync_storageMode, sync_selectedProfileID⟩
  · obtain ⟨hmode, hsel⟩ := save_stays (s := s.syncCurrentProfileDraft) _ _ _
    exact ⟨hmode.trans sync_storageMode, hsel.trans sync_selectedProfileID⟩

theorem renameSelectedProfile_stays (name : Text) :
    (s.renameSelectedProfile name).storageMode = s.storageMode
      ∧ (s.renameSelectedProfile name).selectedProfileID = s.selectedProfileID := by
  unfold renameSelectedProfile
  split <;> exact ⟨rfl, rfl⟩

end TunnelManager

open TunnelManager in
/-- The guard that keeps the drafts: a mesh is joined only while the editor shows the selected
profile as it is stored. -/
def Flushed (s : TunnelManager) : ManagerOp → Prop
  | .joinMesh _ _ _ _ _ => ∀ profile, s.selectedProfile = some profile → profile.toDraft = s.editor
  | _ => True

theorem managerStep_kept {dials : Text → Bool} {s s' : TunnelManager} {op : ManagerOp}
    {sent : Option MeshMeta} (h : managerStep dials s op = some (s', sent)) :
    s.DraftKept s' ↔ Flushed s op := by
  open TunnelManager in
  rcases op with editor | id | ⟨uuid, name⟩ | name | mode | proxies |
    ⟨uuid, token, server, privB64, resp⟩ | ⟨config, routeMode, split⟩ | _ | _ | _ | i <;>
    simp only [managerStep] at h
  · cases h
    exact iff_of_true (draftKept_of_stays rfl rfl) trivial
  · cases h
    exact iff_of_true (selectProfile_kept id) trivial
  · split_ifs at h
    cases h
    exact iff_of_true (addProfile_kept uuid name) trivial
  · cases h
    obtain ⟨hmode, hsel⟩ := renameSelectedProfile_stays (s := s) name
    exact iff_of_true (draftKept_of_stays hmode hsel) trivial
  · cases h
    exact iff_of_true (setStorageMode_kept mode) trivial
  · split_ifs at h
    cases h
    exact iff_of_true (syncFromPlatform_kept proxies) trivial
  · split_ifs at h with hfresh
    cases h
    exact joinMesh_kept_iff token server privB64 resp hfresh
  · cases h
    obtain ⟨hmode, hsel⟩ := save_stays (s := s) config routeMode split
    exact iff_of_true (draftKept_of_stays hmode hsel) trivial
  · cases h
    obtain ⟨hmode, hsel⟩ := saveCurrentProfile_stays (s := s)
    exact iff_of_true (draftKept_of_stays hmode hsel) trivial
  · cases h
    exact iff_of_true (deleteSelectedProfile_kept rfl rfl) trivial
  · refine iff_of_true ?_ trivial
    unfold leaveMeshAndDeleteSelected at h
    split at h
    · cases h
      exact deleteSelectedProfile_kept rfl rfl
    · split_ifs at h
      · cases h
        exact draftKept_of_stays rfl rfl
      · cases h
        exact deleteSelectedProfile_kept rfl rfl
  · obtain ⟨⟨id, entry⟩, -, h⟩ := Option.map_eq_some_iff.mp h
    cases h
    exact iff_of_true (deleteSelectedProfile_kept rfl rfl) trivial

/-! ## The Android application -/

namespace WgTunnelManager

variable {s s' t : WgTunnelManager} {node : AndroidNode}

@[simp]
theorem apply_nodes : s.applySelectedToEditor.nodes = s.nodes := by
  unfold applySelectedToEditor
  split <;> rfl

@[simp]
theorem apply_selectedNodeId : s.applySelectedToEditor.selectedNodeId = s.selectedNodeId := by
  unfold applySelectedToEditor
  split <;> rfl

@[simp]
theorem apply_repo : s.applySelectedToEditor.repo = s.repo := by
  unfold applySelectedToEditor
  split <;> rfl

theorem selectedNode_spec (h : s.selectedNode = some node) :
    s.selectedNodeId = some node.id ∧ s.nodes.find? (·.id = node.id) = some node := by
  unfold selectedNode at h
  have hid : s.selectedNodeId = some node.id := by simpa using List.find?_some h
  refine ⟨hid, ?_⟩
  rw [hid] at h
  convert h using 3
  simp [eq_comm]

@[simp]
theorem sync_selectedNodeId : s.syncEditorToNode.selectedNodeId = s.selectedNodeId := by
  unfold syncEditorToNode
  split <;> rfl

/-- The node has the editor's draft. -/
theorem sync_find (h : s.selectedNode = some node) :
    s.syncEditorToNode.nodes.find? (·.id = node.id) = some (s.edited node.id node) := by
  obtain ⟨hid, hfind⟩ := selectedNode_spec h
  have hkeep : ∀ n, (s.edited node.id n).id = n.id := by
    intro n
    unfold edited
    split_ifs <;> rfl
  unfold syncEditorToNode
  rw [hid]
  show (s.nodes.map (s.edited node.id)).find? _ = _
  rw [List.find?_map, Function.comp_def]
  simp only [hkeep]
  rw [hfind]
  rfl

theorem edited_self : (s.edited node.id node).toDraft = s.editor := by
  unfold edited
  rw [if_pos rfl]

/-- A node that is left for another, and is still there, has the draft that the editor showed of
it. -/
def DraftKept (s s' : WgTunnelManager) : Prop :=
  ∀ node, s.selectedNode = some node → s'.selectedNodeId ≠ some node.id →
    ∀ kept, s'.nodes.find? (·.id = node.id) = some kept → kept.toDraft = s.editor

theorem draftKept_of_stays (hsel : s'.selectedNodeId = s.selectedNodeId) : DraftKept s s' := by
  intro node h hne
  rw [hsel, (selectedNode_spec h).1] at hne
  exact absurd rfl hne

theorem draftKept_of_sync (h : ∀ node, s.selectedNode = some node →
    s'.nodes.find? (·.id = node.id) = s.syncEditorToNode.nodes.find? (·.id = node.id)) :
    DraftKept s s' := by
  intro node hsel _ kept hkept
  rw [h node hsel, sync_find hsel, Option.some.injEq] at hkept
  exact hkept ▸ edited_self

theorem isFresh_ne {uuid : UUID} (hfresh : s.isFresh uuid = true) (hmem : node ∈ s.nodes) :
    node.id ≠ uuid := by
  simpa using List.all_eq_true.mp hfresh node hmem

/-- Joining leaves the node as it was last stored. -/
theorem joinMesh_kept_iff {uuid : UUID} (token serverUrl privB64 : Text) (listenPort : ℤ)
    (resp : MeshJoinResponse) (hfresh : s.isFresh uuid = true) :
    DraftKept s (s.joinMesh uuid token serverUrl privB64 listenPort resp)
      ↔ ∀ node, s.selectedNode = some node → node.toDraft = s.editor := by
  have hsel' : (s.joinMesh uuid token serverUrl privB64 listenPort resp).selectedNodeId
      = some uuid := by
    simp [joinMesh, appendSelected, saveNodes, saveSelectedId]
  have hfind : ∀ node, s.selectedNode = some node →
      (s.joinMesh uuid token serverUrl privB64 listenPort resp).nodes.find? (·.id = node.id)
        = some node := by
    intro node hsel
    simp only [joinMesh, appendSelected, saveNodes, saveSelectedId, apply_nodes]
    exact find?_append_of_some (selectedNode_spec hsel).2
  constructor
  · intro hkept node hsel
    have hne := isFresh_ne hfresh (List.mem_of_find?_eq_some (selectedNode_spec hsel).2)
    refine hkept node hsel ?_ node (hfind node hsel)
    rw [hsel']
    simpa using Ne.symm hne
  · intro hdraft node hsel _ kept hkept
    rw [hfind node hsel] at hkept
    cases hkept
    exact hdraft node hsel

theorem deleteSelectedNode_kept (hsel : t.selectedNodeId = s.selectedNodeId)
    (h : t.deleteSelectedNode = some s') : DraftKept s s' := by
  unfold deleteSelectedNode at h
  split_ifs at h with hone
  · cases h
    exact draftKept_of_stays hsel
  split at h
  · cases h
    exact draftKept_of_stays hsel
  next id hid =>
  split at h
  · cases h
  next first rest hrest =>
  cases h
  intro node hnode _ kept hkept
  have hmem := List.mem_of_find?_eq_some hkept
  have hkid : kept.id = node.id := by simpa using List.find?_some hkept
  rw [apply_nodes] at hmem
  replace hmem : kept ∈ t.nodes.filter (·.id ≠ id) := hrest ▸ hmem
  rw [List.mem_filter, decide_eq_true_eq] at hmem
  rw [hsel, (selectedNode_spec hnode).1, Option.some.injEq] at hid
  exact absurd (hkid.trans hid) hmem.2

theorem left_kept {id : UUID} (hsel : t.selectedNodeId = s.selectedNodeId)
    (h : t.left id = some s') : DraftKept s s' :=
  deleteSelectedNode_kept (t := { t with
    repo := { t.repo with meshMeta := Function.update t.repo.meshMeta id none } }) hsel h

end WgTunnelManager

/-- The guard that keeps the drafts: a mesh is joined only while the editor shows the selected node
as it is stored. -/
def FlushedAndroid (s : WgTunnelManager) : AndroidOp → Prop
  | .joinMesh _ _ _ _ _ _ => ∀ node, s.selectedNode = some node → node.toDraft = s.editor
  | _ => True

theorem androidStep_kept {dials : Text → Bool} {s s' : WgTunnelManager} {op : AndroidOp}
    {sent : Option MeshMeta} (h : androidStep dials s op = some (s', sent)) :
    s.DraftKept s' ↔ FlushedAndroid s op := by
  open WgTunnelManager in
  rcases op with ⟨editor, name⟩ | id | ⟨uuid, name⟩ |
    ⟨uuid, token, server, privB64, listenPort, resp⟩ | _ | _ | _ | _ | i <;>
    simp only [androidStep] at h
  · cases h
    exact iff_of_true (draftKept_of_stays rfl) trivial
  · cases h
    refine iff_of_true (draftKept_of_sync fun node _ => ?_) trivial
    rw [selectNode, apply_nodes]
    rfl
  · split_ifs at h
    cases h
    refine iff_of_true (draftKept_of_sync fun node hsel => ?_) trivial
    simp only [addNode, appendSelected, apply_nodes, saveNodes, saveSelectedId]
    rw [find?_append_of_some (sync_find hsel), sync_find hsel]
  · split_ifs at h with hfresh
    cases h
    exact joinMesh_kept_iff token server privB64 listenPort resp hfresh
  · cases h
    exact iff_of_true (draftKept_of_stays sync_selectedNodeId) trivial
  · cases h
    exact iff_of_true (draftKept_of_stays sync_selectedNodeId) trivial
  · obtain ⟨t, ht, h⟩ := Option.map_eq_some_iff.mp h
    cases h
    exact iff_of_true (deleteSelectedNode_kept rfl ht) trivial
  · refine iff_of_true ?_ trivial
    unfold leaveMeshAndDeleteSelected at h
    split at h
    · cases h
      exact draftKept_of_stays rfl
    · split at h
      · obtain ⟨t, ht, h⟩ := Option.map_eq_some_iff.mp h
        cases h
        exact deleteSelectedNode_kept rfl ht
      · split_ifs at h
        · cases h
          exact draftKept_of_stays rfl
        · obtain ⟨t, ht, h⟩ := Option.map_eq_some_iff.mp h
          cases h
          exact left_kept rfl ht
  · simp only [Option.bind_eq_bind, Option.bind_eq_some_iff, Option.pure_def, Option.some.injEq,
      Prod.mk.injEq] at h
    obtain ⟨⟨id, entry⟩, -, t, ht, rfl, -⟩ := h
    exact iff_of_true (left_kept (t := { s with leaving := s.leaving.eraseIdx i }) rfl ht) trivial

/-! ## Both -/

variable {dials : Text → Bool} {s₀ s : TunnelManager} {ops : List ManagerOp}
  {a₀ a : WgTunnelManager} {aops : List AndroidOp}

/-- In a run of operations, every draft is kept exactly if none of them joins a mesh while the
editor shows something else than what is stored. -/
theorem drafts_kept (h : FreeRun (managerStep dials) s₀ ops s)
    (ha : FreeRun (androidStep dials) a₀ aops a) :
    (EveryStep (managerStep dials) (fun s _ s' => s.DraftKept s') s₀ ops
        ↔ Run (managerStep dials) Flushed s₀ ops s)
      ∧ (EveryStep (androidStep dials) (fun s _ s' => s.DraftKept s') a₀ aops
        ↔ Run (androidStep dials) FlushedAndroid a₀ aops a) :=
  ⟨h.everyStep_iff fun _ _ _ _ hst => managerStep_kept hst,
    ha.everyStep_iff fun _ _ _ _ hst => androidStep_kept hst⟩

namespace Specimen

def someDraft (config : String) : Draft := ⟨config.toList, .full, .plain, []⟩

def someProfile (id : UUID) : VPNNode :=
  ⟨someDraft "stored", id, [], .manual, [], none, none, none, none, none, none⟩

def someManager : TunnelManager :=
  ⟨.local, [someProfile 1, someProfile 2], some 1, someDraft "stored", [], [], [], fun _ => none,
    fun _ => none, []⟩

def someNode (id : UUID) : AndroidNode := ⟨someDraft "stored", id, []⟩

def someAndroid : WgTunnelManager :=
  ⟨[someNode 1, someNode 2], some 1, someDraft "stored", [], none,
    ⟨[someNode 1, someNode 2], some 1, fun _ => none⟩, []⟩

def someAnswer : MeshJoinResponse :=
  ⟨⟨"10.88.0.7".toList, none, [], none⟩, "device".toList, none, none, none, none⟩

def noDial : Text → Bool := fun _ => false

end Specimen

open Specimen

theorem drafts_kept_selected :
    EveryStep (managerStep noDial) (fun s _ s' => s.DraftKept s') someManager
        [.edit (someDraft "typed"), .selectProfile 2]
      ∧ EveryStep (androidStep noDial) (fun s _ s' => s.DraftKept s') someAndroid
        [.edit (someDraft "typed") [], .selectNode 2] := by
  have h : FreeRun (managerStep noDial) someManager
      [.edit (someDraft "typed"), .selectProfile 2] _ :=
    .cons trivial rfl (.cons trivial rfl (.nil _))
  have ha : FreeRun (androidStep noDial) someAndroid
      [.edit (someDraft "typed") [], .selectNode 2] _ :=
    .cons trivial rfl (.cons trivial rfl (.nil _))
  obtain ⟨hkept, hkept'⟩ := drafts_kept h ha
  exact ⟨hkept.mpr (.cons trivial rfl (.cons trivial rfl (.nil _))),
    hkept'.mpr (.cons trivial rfl (.cons trivial rfl (.nil _)))⟩

/-- What was typed is gone when the mesh is joined. -/
theorem draft_lost :
    ¬ EveryStep (managerStep noDial) (fun s _ s' => s.DraftKept s') someManager
        [.edit (someDraft "typed"), .joinMesh 3 [] [] [] someAnswer]
      ∧ ¬ EveryStep (androidStep noDial) (fun s _ s' => s.DraftKept s') someAndroid
        [.edit (someDraft "typed") [], .joinMesh 3 [] [] [] 1632 someAnswer] := by
  constructor
  · intro h
    have hkept := h [.edit (someDraft "typed")] _ [] _ _ _ rfl (.cons trivial rfl (.nil _)) rfl
    have hsame := hkept (someProfile 1) rfl (by decide) (someProfile 1) rfl
    exact absurd hsame (by decide)
  · intro h
    have hkept := h [.edit (someDraft "typed") []] _ [] _ _ _ rfl (.cons trivial rfl (.nil _)) rfl
    have hsame := hkept (someNode 1) rfl (by decide) (someNode 1) rfl
    exact absurd hsame (by decide)

end PolarWG
