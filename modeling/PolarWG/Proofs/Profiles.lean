import PolarWG.Lib.Exact
import PolarWG.ProfileLoad
import PolarWG.Proofs.Leaving
import PolarWG.Proofs.PlatformSync

/-!
# The list of the profiles

There is a profile, their ids are distinct and one of them is selected. Each operation keeps that
but a sync, which makes the list anew: where there is no manual node and the answer has no proxy
that can be used, nothing is left. And where the preferences cannot be read there is nothing to
begin with.
-/

namespace PolarWG

namespace TunnelManager

variable {s s' : TunnelManager}

structure Listed (s : TunnelManager) : Prop where
  nonempty : s.profiles ≠ []
  distinct : (s.profiles.map (·.id)).Nodup
  selected : ∃ profile ∈ s.profiles, s.selectedProfileID = some profile.id

/-- What is in the list and in the Keychain has distinct ids. -/
structure Distinct (s : TunnelManager) : Prop where
  profiles : (s.profiles.map (·.id)).Nodup
  keychain : ∀ mode stored, s.keychain mode = some stored → (stored.profiles.map (·.id)).Nodup

/-! ## The common steps -/

theorem Distinct.apply (h : s.Distinct) : s.applySelectedProfileToEditor.Distinct := by
  refine ⟨?_, ?_⟩
  · rw [apply_profiles]
    exact h.profiles
  · rw [apply_keychain]
    exact h.keychain

theorem Distinct.persist (h : s.Distinct) : s.persistProfilesToKeychain.Distinct := by
  refine ⟨h.profiles, fun mode stored hstored => ?_⟩
  by_cases hmode : mode = s.storageMode
  · rw [hmode, persist_keychain_self] at hstored
    cases hstored
    exact h.profiles
  · rw [persist_keychain_of_ne hmode] at hstored
    exact h.keychain mode stored hstored

theorem Listed.apply (h : s.Listed) : s.applySelectedProfileToEditor.Listed := by
  refine ⟨?_, ?_, ?_⟩
  · rw [apply_profiles]
    exact h.nonempty
  · rw [apply_profiles]
    exact h.distinct
  · rw [apply_profiles, apply_selectedProfileID]
    exact h.selected

theorem Listed.persist (h : s.Listed) : s.persistProfilesToKeychain.Listed :=
  ⟨h.nonempty, h.distinct, h.selected⟩

/-- Only the ids and the selection count. -/
theorem Listed.congr (h : s.Listed) (hids : s'.profiles.map (·.id) = s.profiles.map (·.id))
    (hsel : s'.selectedProfileID = s.selectedProfileID) : s'.Listed := by
  refine ⟨fun hnil => ?_, hids ▸ h.distinct, ?_⟩
  · rw [hnil, List.map_nil] at hids
    exact h.nonempty (List.map_eq_nil_iff.mp hids.symm)
  · obtain ⟨profile, hmem, hid⟩ := h.selected
    have : profile.id ∈ s'.profiles.map (·.id) := hids ▸ List.mem_map_of_mem hmem
    obtain ⟨profile', hmem', hid'⟩ := List.mem_map.mp this
    exact ⟨profile', hmem', by rw [hsel, hid, hid']⟩

theorem flush_ids : s.syncCurrentProfileDraft.profiles.map (·.id) = s.profiles.map (·.id) :=
  sync_map fun _ => rfl

theorem Listed.flush (h : s.Listed) : s.syncCurrentProfileDraft.Listed :=
  h.congr flush_ids sync_selectedProfileID

theorem Distinct.flush (h : s.Distinct) : s.syncCurrentProfileDraft.Distinct := by
  rcases hsel : s.selectedProfile with _ | profile
  · rwa [sync_of_none hsel]
  · obtain ⟨idx, -, heq⟩ := sync_of_some hsel
    rw [heq]
    refine Distinct.persist ⟨?_, h.keychain⟩
    have hids := modify_map (f := s.edited) (g := fun node => node.id) (fun _ => rfl) s.profiles idx
    exact hids.symm ▸ h.profiles

/-- Where the first profile is selected. -/
theorem listed_first (hne : s.profiles ≠ []) (hn : (s.profiles.map (·.id)).Nodup)
    (hsel : s.selectedProfileID = firstID s.profiles) : s.Listed := by
  refine ⟨hne, hn, ?_⟩
  rcases hprofiles : s.profiles with _ | ⟨profile, rest⟩
  · exact absurd hprofiles hne
  · exact ⟨profile, List.mem_cons_self, by rw [hsel, hprofiles]; rfl⟩

/-- A profile that the list has is selected, or else the first. -/
theorem listed_reselected {sel : Option UUID} (hne : s.profiles ≠ [])
    (hn : (s.profiles.map (·.id)).Nodup)
    (hsel : s.selectedProfileID = reselected s.profiles sel) (hsome : sel ≠ none) : s.Listed := by
  obtain ⟨id, rfl⟩ := Option.ne_none_iff_exists'.mp hsome
  simp only [reselected, Option.bind_some] at hsel
  split_ifs at hsel with hany
  · obtain ⟨profile, hmem, hid⟩ := List.any_eq_true.mp hany
    exact ⟨hne, hn, profile, hmem, by rw [hsel, of_decide_eq_true hid]⟩
  · exact listed_first hne hn hsel

/-! ## The operations -/

theorem appendSelected_listed {profile : VPNNode} (h : s.Distinct)
    (hfresh : ∀ p ∈ s.profiles, p.id ≠ profile.id) :
    (s.appendSelected profile).Listed ∧ (s.appendSelected profile).Distinct := by
  have hn : ((s.profiles ++ [profile]).map (·.id)).Nodup := by
    rw [List.map_append, List.nodup_append]
    refine ⟨h.profiles, List.nodup_singleton _, ?_⟩
    rintro id hid id' hid' rfl
    obtain ⟨p, hp, rfl⟩ := List.mem_map.mp hid
    exact hfresh p hp (List.mem_singleton.mp hid')
  unfold appendSelected
  constructor
  · refine Listed.persist (Listed.apply ?_)
    exact ⟨by simp, hn, profile, List.mem_append_right _ (List.mem_singleton_self _), rfl⟩
  · refine Distinct.persist (Distinct.apply ?_)
    exact ⟨hn, h.keychain⟩

theorem addProfile_listed {uuid : UUID} (proposedName : Option Text) (h : s.Distinct)
    (hfresh : s.isFresh uuid = true) :
    (s.addProfile uuid proposedName).Listed ∧ (s.addProfile uuid proposedName).Distinct := by
  refine appendSelected_listed h.flush fun p hp => ?_
  have hid : p.id ∈ s.profiles.map (·.id) := flush_ids (s := s) ▸ List.mem_map_of_mem hp
  obtain ⟨q, hq, hqp⟩ := List.mem_map.mp hid
  exact hqp ▸ isFresh_ne hfresh hq

theorem joinMesh_listed {uuid : UUID} (token resolvedServer privB64 : Text)
    (resp : MeshJoinResponse) (h : s.Distinct) (hfresh : s.isFresh uuid = true) :
    (s.joinMesh uuid token resolvedServer privB64 resp).Listed
      ∧ (s.joinMesh uuid token resolvedServer privB64 resp).Distinct := by
  obtain ⟨profile, entries, rfl, heq⟩ : ∃ (profile : VPNNode) (entries : UUID → Option MeshMeta),
      profile.id = uuid ∧ s.joinMesh uuid token resolvedServer privB64 resp
        = { s.appendSelected profile with meshMeta := entries } := ⟨_, _, rfl, rfl⟩
  obtain ⟨hlisted, hdistinct⟩ := appendSelected_listed h fun p hp => isFresh_ne hfresh hp
  rw [heq]
  exact ⟨⟨hlisted.nonempty, hlisted.distinct, hlisted.selected⟩,
    ⟨hdistinct.profiles, hdistinct.keychain⟩⟩

theorem selectProfile_listed {id : UUID} (h : s.Listed) (hid : s.profiles.any (·.id = id)) :
    (s.selectProfile id).Listed := by
  obtain ⟨profile, hmem, hprofile⟩ := List.any_eq_true.mp hid
  have : profile.id ∈ s.syncCurrentProfileDraft.profiles.map (·.id) := by
    rw [flush_ids]
    exact List.mem_map_of_mem hmem
  obtain ⟨profile', hmem', hid'⟩ := List.mem_map.mp this
  refine Listed.persist (Listed.apply ?_)
  refine ⟨h.flush.nonempty, h.flush.distinct, profile', hmem', ?_⟩
  rw [hid', of_decide_eq_true hprofile]

theorem selectProfile_distinct (id : UUID) (h : s.Distinct) : (s.selectProfile id).Distinct := by
  refine Distinct.persist (Distinct.apply ?_)
  exact ⟨h.flush.profiles, h.flush.keychain⟩

/-- Another one is left. -/
theorem deleteSelectedProfile_listed (h : s.Listed) : s.deleteSelectedProfile.Listed := by
  unfold deleteSelectedProfile
  split
  · exact h
  next id hid =>
  split_ifs with hone
  · exact h
  refine Listed.persist (Listed.apply (listed_first (fun hnil => hone ?_) ?_ rfl))
  · have hall : ∀ profile ∈ s.profiles, profile.id = id := by
      simpa using List.filter_eq_nil_iff.mp hnil
    have hids : s.profiles.map (·.id) = List.replicate s.profiles.length id := by
      rw [List.eq_replicate_iff, List.length_map]
      exact ⟨rfl, by simpa using hall⟩
    have := h.distinct
    rw [hids] at this
    exact List.nodup_replicate.mp this
  · exact h.distinct.sublist (List.filter_sublist.map _)

theorem deleteSelectedProfile_distinct (h : s.Distinct) : s.deleteSelectedProfile.Distinct := by
  unfold deleteSelectedProfile
  split
  · exact h
  split_ifs
  · exact h
  · refine Distinct.persist (Distinct.apply ?_)
    exact ⟨h.profiles.sublist (List.filter_sublist.map _), h.keychain⟩

theorem left_listed {id : UUID} (h : s.Listed) : (s.left id).Listed :=
  deleteSelectedProfile_listed (h.congr rfl rfl)

theorem left_distinct {id : UUID} (h : s.Distinct) : (s.left id).Distinct :=
  deleteSelectedProfile_distinct ⟨h.profiles, h.keychain⟩

theorem rename_ids (name : Text) :
    (s.renameSelectedProfile name).profiles.map (·.id) = s.profiles.map (·.id) := by
  unfold renameSelectedProfile
  split
  · rfl
  · refine modify_map ?_ _ _
    exact fun _ => rfl

theorem renameSelectedProfile_listed (name : Text) (h : s.Listed) :
    (s.renameSelectedProfile name).Listed :=
  h.congr (rename_ids name) (renameSelectedProfile_stays name).2

theorem renameSelectedProfile_distinct (name : Text) (h : s.Distinct) :
    (s.renameSelectedProfile name).Distinct := by
  have hids := (rename_ids (s := s) name).symm ▸ h.profiles
  unfold renameSelectedProfile at hids ⊢
  split
  · exact h
  · next hidx =>
    rw [hidx] at hids
    exact Distinct.persist ⟨hids, h.keychain⟩

section Save

variable {config : Text} {routeMode : RouteMode} {splitInjectedRoutes : Text}

theorem save_listed (h : s.Listed) : (s.save config routeMode splitInjectedRoutes).Listed := by
  unfold save
  exact Listed.flush (h.congr rfl rfl)

theorem save_distinct (h : s.Distinct) : (s.save config routeMode splitInjectedRoutes).Distinct := by
  unfold save
  exact Distinct.flush ⟨h.profiles, h.keychain⟩

end Save

theorem saveCurrentProfile_listed (h : s.Listed) : s.saveCurrentProfile.Listed := by
  unfold saveCurrentProfile
  simp only []
  split
  · exact h.flush
  · exact save_listed h.flush

theorem saveCurrentProfile_distinct (h : s.Distinct) : s.saveCurrentProfile.Distinct := by
  unfold saveCurrentProfile
  simp only []
  split
  · exact h.flush
  · exact save_distinct h.flush

/-- The profiles are stored ones, and the one that was selected with them is, or else the first. -/
theorem stored_listed {stored : StoredProfiles} (hprofiles : s.profiles = stored.profiles)
    (hne : stored.profiles ≠ []) (hn : (stored.profiles.map (·.id)).Nodup)
    (hselected : s.selectedProfileID = match stored.selectedProfileID with
      | some selected =>
        if stored.profiles.any (·.id = selected) then some selected else firstID stored.profiles
      | none => firstID stored.profiles) : s.Listed := by
  rw [← hprofiles] at hne hn hselected
  rcases hsel : stored.selectedProfileID with _ | sel
  · rw [hsel] at hselected
    exact listed_first hne hn hselected
  · rw [hsel] at hselected
    refine listed_reselected hne hn ?_ (Option.some_ne_none sel)
    rw [hselected]
    rfl

theorem setStorageMode_listed (mode : ProfileStorageMode) (hd : s.Distinct) (h : s.Listed) :
    (s.setStorageMode mode).Listed := by
  unfold setStorageMode
  split_ifs with hsame
  · exact h
  simp only []
  split
  · next stored hstored =>
    obtain ⟨hkeychain, hne⟩ := Option.filter_eq_some_iff.mp hstored
    refine Listed.apply (stored_listed rfl (of_decide_eq_true hne) ?_ rfl)
    exact hd.flush.keychain mode stored hkeychain
  · refine Listed.persist (Listed.apply (h.congr flush_ids ?_))
    obtain ⟨profile, -, hid⟩ := h.selected
    simp only [sync_selectedProfileID]
    rw [hid]
    rfl

theorem setStorageMode_distinct (mode : ProfileStorageMode) (h : s.Distinct) :
    (s.setStorageMode mode).Distinct := by
  unfold setStorageMode
  split_ifs with hsame
  · exact h
  simp only []
  split
  · next stored hstored =>
    obtain ⟨hkeychain, -⟩ := Option.filter_eq_some_iff.mp hstored
    refine Distinct.apply ?_
    exact ⟨h.flush.keychain mode stored hkeychain, h.flush.keychain⟩
  · refine Distinct.persist (Distinct.apply ?_)
    exact ⟨h.flush.profiles, h.flush.keychain⟩

theorem load_listed_iff {uuid : UUID} {proto : Option ProviderConfiguration} (hd : s.Distinct)
    (hnil : s.profiles = []) : (s.load uuid proto).Listed ↔ proto ≠ none := by
  rcases proto with _ | proto
  · exact iff_of_false (fun h => h.nonempty hnil) (fun h => h rfl)
  · refine iff_of_true ?_ (fun h => by cases h)
    unfold load loadProfilesFromKeychain
    simp only []
    split
    · next stored hstored =>
      obtain ⟨hkeychain, hne⟩ := Option.filter_eq_some_iff.mp hstored
      refine Listed.apply (stored_listed rfl (of_decide_eq_true hne) ?_ rfl)
      exact hd.keychain _ stored hkeychain
    · refine Listed.persist (Listed.apply (listed_first ?_ ?_ rfl))
      · exact List.cons_ne_nil _ _
      · exact List.nodup_singleton _

theorem load_distinct {uuid : UUID} {proto : Option ProviderConfiguration} (hd : s.Distinct) :
    (s.load uuid proto).Distinct := by
  rcases proto with _ | proto
  · exact hd
  · unfold load loadProfilesFromKeychain
    simp only []
    split
    · next stored hstored =>
      obtain ⟨hkeychain, -⟩ := Option.filter_eq_some_iff.mp hstored
      refine Distinct.apply ?_
      exact ⟨hd.keychain _ stored hkeychain, hd.keychain⟩
    · refine Distinct.persist (Distinct.apply ?_)
      exact ⟨List.nodup_singleton _, hd.keychain⟩

theorem launched_distinct (h : s.Distinct) : s.launched.Distinct := ⟨List.nodup_nil, h.keychain⟩

/-! ## The sync -/

/-- Nodes that there were and new ones are merged, each once. -/
theorem mergedNodes_distinct {proxies : List (UUID × LatchProxy)} {l : List VPNNode}
    (hl : (l.map (·.id)).Nodup) (hfresh : ∀ p ∈ proxies, ∀ node ∈ l, node.id ≠ p.1)
    (hn : (proxies.map Prod.fst).Nodup) : ((mergedNodes l proxies).map (·.id)).Nodup := by
  have hplatform : l.filter (·.source = .platform) = l.filter fun node => !(node.source = .manual) := by
    refine List.filter_congr fun node _ => ?_
    rcases node.source <;> rfl
  have hkept : (keptNodes (proxies.map (some ·.2.id)) l).Sublist (l.filter (·.source = .platform)) :=
    KeyedMerge.survivors_sublist _ _
  have hold : ((l.filter (·.source = .manual) ++ keptNodes (proxies.map (some ·.2.id)) l).map
      (·.id)).Nodup := by
    refine List.Nodup.sublist ((hkept.append_left _).map _) ?_
    rw [hplatform]
    exact ((List.filter_append_perm _ l).map _).nodup_iff.mpr hl
  have hids : ((keptNodes (proxies.map (some ·.2.id)) l).map (patchedNode proxies)).map (·.id)
      = (keptNodes (proxies.map (some ·.2.id)) l).map (·.id) := by
    rw [List.map_map]
    refine List.map_congr_left fun node hnode => ?_
    obtain ⟨-, -, uuid, p, -, -, hpatched⟩ := keptNodes_spec hnode
    rw [Function.comp_apply, hpatched, updatedNode_id]
  have hnew : ((newNodes l proxies).map (·.id)).Sublist (proxies.map Prod.fst) := by
    have : (incomingNodes proxies).map (·.id) = proxies.map Prod.fst := by
      rw [List.map_map]
      rfl
    rw [← this]
    exact List.filter_sublist.map _
  unfold mergedNodes
  rw [List.map_append, List.map_append, hids, ← List.map_append, List.nodup_append]
  refine ⟨hold, hn.sublist hnew, ?_⟩
  rintro id hid id' hid' rfl
  obtain ⟨p, hp, rfl⟩ := List.mem_map.mp (hnew.subset hid')
  obtain ⟨node, hnode, heq⟩ := List.mem_map.mp hid
  refine hfresh p hp node ?_ heq
  rcases List.mem_append.mp hnode with h | h
  · exact (List.mem_filter.mp h).1
  · exact (List.mem_filter.mp (hkept.subset h)).1

theorem mergedNodes_eq_nil_iff {proxies : List (UUID × LatchProxy)} {l : List VPNNode}
    (hn : (proxies.map (·.2.id)).Nodup) :
    mergedNodes l proxies = [] ↔ l.filter (·.source = .manual) = [] ∧ proxies = [] := by
  have hlength := (mergedNodes_perm (l := l) hn).length_eq
  rw [List.length_map, List.length_map, List.length_map] at hlength
  constructor
  · intro h
    refine ⟨?_, ?_⟩
    · have hmanual : (mergedNodes l proxies).filter (·.source = .manual) = [] := by rw [h]; rfl
      exact mergedNodes_manual ▸ hmanual
    · rw [h] at hlength
      exact List.length_eq_zero_iff.mp hlength.symm
  · rintro ⟨hmanual, rfl⟩
    have hsplit : mergedNodes l []
        = l.filter (·.source = .manual) ++ (mergedNodes l []).filter (·.source = .platform) := by
      rw [mergedNodes_platform, ← List.append_assoc]
      rfl
    rw [hsplit, hmanual, List.length_eq_zero_iff.mp hlength]
    rfl

theorem syncFromPlatform_distinct {proxies : List (UUID × LatchProxy)} (h : s.Distinct)
    (hfresh : (proxies.map Prod.fst).all s.isFresh) (hn : (proxies.map Prod.fst).Nodup) :
    (s.syncFromPlatform proxies).Distinct := by
  rw [syncFromPlatform_eq]
  refine Distinct.persist (Distinct.apply ⟨?_, h.flush.keychain⟩)
  refine mergedNodes_distinct h.flush.profiles (fun p hp node hnode => ?_) hn
  have hid : node.id ∈ s.profiles.map (·.id) := flush_ids (s := s) ▸ List.mem_map_of_mem hnode
  obtain ⟨before, hbefore, heq⟩ := List.mem_map.mp hid
  rw [← heq]
  exact isFresh_ne (List.all_eq_true.mp hfresh p.1 (List.mem_map_of_mem hp)) hbefore

theorem syncFromPlatform_listed_iff {proxies : List (UUID × LatchProxy)} (h : s.Listed)
    (hd : (s.syncFromPlatform proxies).Distinct) (hn : (proxies.map (·.2.id)).Nodup) :
    (s.syncFromPlatform proxies).Listed ↔ s.manualNodes ≠ [] ∨ proxies ≠ [] := by
  have hmanual : s.syncCurrentProfileDraft.profiles.filter (·.source = .manual) = []
      ↔ s.manualNodes = [] := by
    have hsource : ∀ l : List VPNNode, l.filter (·.source = .manual) = []
        ↔ NodeSource.manual ∉ l.map (·.source) := by
      intro l
      simp [List.filter_eq_nil_iff]
    unfold manualNodes
    rw [hsource, hsource, sync_map fun _ => rfl]
  have hne : (s.syncFromPlatform proxies).profiles ≠ [] ↔ s.manualNodes ≠ [] ∨ proxies ≠ [] := by
    rw [sync_profiles, Ne, mergedNodes_eq_nil_iff hn, hmanual, not_and_or]
  rw [← hne]
  refine ⟨fun hlisted => hlisted.nonempty, fun hnonempty => ?_⟩
  obtain ⟨profile, -, hsel⟩ := h.selected
  have hreselected : (s.syncFromPlatform proxies).selectedProfileID
      = reselected (s.syncFromPlatform proxies).profiles s.selectedProfileID := by
    rw [sync_selected, sync_profiles]
  exact listed_reselected hnonempty hd.profiles hreselected (hsel ▸ Option.some_ne_none _)

end TunnelManager

open TunnelManager in
/-- The guard that keeps a profile: the preferences can be read, and a sync leaves a manual node or
brings a proxy. -/
def LeavesOne (s : TunnelManager) : ProfilesOp → Prop
  | .launch _ proto => proto.isSome
  | .manager (.syncFromPlatform proxies) => s.manualNodes ≠ [] ∨ proxies ≠ []
  | .manager _ => True

open TunnelManager in
/-- Every operation of the manager keeps the ids distinct, and a profile selected exactly if it leaves
one. -/
theorem managerStep_listed {dials : Text → Bool} {s s' : TunnelManager} {op : ManagerOp}
    {sent : Option MeshMeta} (hd : s.Distinct) (hs : s.Listed)
    (hselect : ∀ id, op = .selectProfile id → s.profiles.any (·.id = id))
    (h : managerStep dials s op = some (s', sent)) :
    (s'.Listed ↔ LeavesOne s (.manager op)) ∧ s'.Distinct := by
  rcases op with editor | id | ⟨uuid, name⟩ | name | mode | proxies |
    ⟨uuid, token, server, privB64, resp⟩ | ⟨config, routeMode, split⟩ | _ | _ | _ | i <;>
    simp only [managerStep] at h
  · cases h
    exact ⟨iff_of_true (hs.congr rfl rfl) trivial, ⟨hd.profiles, hd.keychain⟩⟩
  · cases h
    exact ⟨iff_of_true (selectProfile_listed hs (hselect id rfl)) trivial,
      selectProfile_distinct id hd⟩
  · split_ifs at h with hfresh
    cases h
    obtain ⟨hlisted, hdistinct⟩ := addProfile_listed name hd hfresh
    exact ⟨iff_of_true hlisted trivial, hdistinct⟩
  · cases h
    exact ⟨iff_of_true (renameSelectedProfile_listed name hs) trivial,
      renameSelectedProfile_distinct name hd⟩
  · cases h
    exact ⟨iff_of_true (setStorageMode_listed mode hd hs) trivial, setStorageMode_distinct mode hd⟩
  · split_ifs at h with hproxies
    obtain ⟨hfresh, huuids, hids⟩ := hproxies
    cases h
    have hdistinct := syncFromPlatform_distinct hd hfresh huuids
    exact ⟨syncFromPlatform_listed_iff hs hdistinct hids, hdistinct⟩
  · split_ifs at h with hfresh
    cases h
    obtain ⟨hlisted, hdistinct⟩ := joinMesh_listed token server privB64 resp hd hfresh
    exact ⟨iff_of_true hlisted trivial, hdistinct⟩
  · cases h
    exact ⟨iff_of_true (save_listed hs) trivial, save_distinct hd⟩
  · cases h
    exact ⟨iff_of_true (saveCurrentProfile_listed hs) trivial, saveCurrentProfile_distinct hd⟩
  · cases h
    exact ⟨iff_of_true (deleteSelectedProfile_listed hs) trivial, deleteSelectedProfile_distinct hd⟩
  · unfold leaveMeshAndDeleteSelected at h
    split at h
    · cases h
      exact ⟨iff_of_true (deleteSelectedProfile_listed hs) trivial,
        deleteSelectedProfile_distinct hd⟩
    · split_ifs at h
      · cases h
        exact ⟨iff_of_true (hs.congr rfl rfl) trivial, ⟨hd.profiles, hd.keychain⟩⟩
      · cases h
        exact ⟨iff_of_true (left_listed hs) trivial, left_distinct hd⟩
  · obtain ⟨⟨id, entry⟩, -, h⟩ := Option.map_eq_some_iff.mp h
    cases h
    exact ⟨iff_of_true (left_listed (hs.congr rfl rfl)) trivial,
      left_distinct ⟨hd.profiles, hd.keychain⟩⟩

theorem profilesStep_listed {dials : Text → Bool} {s s' : TunnelManager} {op : ProfilesOp}
    {sent : Option MeshMeta} (hd : s.Distinct) (hs : s.Listed)
    (h : profilesStep dials s op = some (s', sent)) :
    (s'.Listed ↔ LeavesOne s op) ∧ s'.Distinct := by
  rcases op with ⟨uuid, proto⟩ | op
  · cases h
    refine ⟨(TunnelManager.load_listed_iff (TunnelManager.launched_distinct hd) rfl).trans ?_,
      TunnelManager.load_distinct (TunnelManager.launched_distinct hd)⟩
    exact Option.isSome_iff_ne_none.symm
  · by_cases hselect : ∃ id, op = .selectProfile id
    · obtain ⟨id, rfl⟩ := hselect
      simp only [profilesStep] at h
      split_ifs at h with hany
      refine managerStep_listed hd hs (fun id' heq => ?_) h
      cases heq
      exact hany
    · have hstep : managerStep dials s op = some (s', sent) := by
        rcases op <;> first | exact h | exact absurd ⟨_, rfl⟩ hselect
      exact managerStep_listed hd hs (fun id heq => absurd ⟨id, heq⟩ hselect) hstep

/-- From the first launch on there is a profile selected in every state of a run exactly if the
preferences can always be read and every sync leaves one. -/
theorem profiles_listed {dials : Text → Bool} {uuid : UUID} {proto : Option ProviderConfiguration}
    {ops : List ProfilesOp} {s : TunnelManager}
    (h : FreeRun (profilesStep dials) (TunnelManager.installed.load uuid proto) ops s) :
    Always (profilesStep dials) TunnelManager.Listed (TunnelManager.installed.load uuid proto) ops
      ↔ proto.isSome
        ∧ Run (profilesStep dials) LeavesOne (TunnelManager.installed.load uuid proto) ops s := by
  have hd : TunnelManager.installed.Distinct := ⟨List.nodup_nil, fun _ _ h => by cases h⟩
  have hfirst : (TunnelManager.installed.load uuid proto).Listed ↔ proto.isSome :=
    (TunnelManager.load_listed_iff hd rfl).trans Option.isSome_iff_ne_none.symm
  have hiff : (TunnelManager.installed.load uuid proto).Listed →
      (Always (profilesStep dials) TunnelManager.Listed _ ops
        ↔ Run (profilesStep dials) LeavesOne _ ops s) := fun hlisted =>
    h.always_iff TunnelManager.Distinct (TunnelManager.load_distinct hd) hlisted
      fun _ _ _ _ hd hs hstep => by
        obtain ⟨hiff, hdistinct⟩ := profilesStep_listed hd hs hstep
        exact ⟨hiff, fun _ => hdistinct⟩
  constructor
  · intro hall
    exact ⟨hfirst.mp hall.head, (hiff hall.head).mp hall⟩
  · rintro ⟨hsome, hrun⟩
    exact (hiff (hfirst.mpr hsome)).mpr hrun

namespace Specimen

def noProvider : ProviderConfiguration := ⟨none, none, none⟩

def firstLaunch : TunnelManager := TunnelManager.installed.load 1 (some noProvider)

end Specimen

open Specimen

theorem profiles_listed_added :
    Always (profilesStep noDial) TunnelManager.Listed firstLaunch
      [.manager (.addProfile 2 none), .manager (.selectProfile 1), .manager .deleteSelectedProfile] := by
  have h : FreeRun (profilesStep noDial) firstLaunch
      [.manager (.addProfile 2 none), .manager (.selectProfile 1), .manager .deleteSelectedProfile] _ :=
    .cons trivial rfl (.cons trivial rfl (.cons trivial rfl (.nil _)))
  have hguard : Run (profilesStep noDial) LeavesOne firstLaunch
      [.manager (.addProfile 2 none), .manager (.selectProfile 1), .manager .deleteSelectedProfile] _ :=
    .cons trivial rfl (.cons trivial rfl (.cons trivial rfl (.nil _)))
  exact (profiles_listed h).mpr ⟨rfl, hguard⟩

/-- A proxy's node comes, the first profile is deleted, and the proxy goes. -/
theorem no_profile_left :
    ¬ Always (profilesStep noDial) TunnelManager.Listed firstLaunch
      [.manager (.syncFromPlatform (latchProxies 7 "a")), .manager .deleteSelectedProfile,
        .manager (.syncFromPlatform [])] := by
  intro h
  have hlast := h _ [] _ (List.append_nil _).symm
    (.cons trivial rfl (.cons trivial rfl (.cons trivial rfl (.nil _))))
  exact hlast.nonempty rfl

end PolarWG
