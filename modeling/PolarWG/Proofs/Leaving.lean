import PolarWG.Proofs.Drafts

/-!
# Leaving a mesh

The selection is read before the network call and once more after it, and the metadata goes before
it is known whether a profile does. So the profile that left is the one removed exactly where it is
still selected then, and is not the only one.
-/

namespace PolarWG

/-! ## Removing from a list -/

section Lists

variable {α : Type*} (f : α → UUID)

/-- What the removal of the selected element leaves; the last one stays. -/
def remaining (l : List α) (selected : Option UUID) : List α :=
  match selected with
  | none => l
  | some sel => if l.length ≤ 1 then l else l.filter (f · ≠ sel)

/-- The one that is to go is selected and is not the only one. Where it is gone already, nothing
else is removed in its place. -/
def Removable (l : List α) (selected : Option UUID) (id : UUID) : Prop :=
  if ∃ a ∈ l, f a = id then selected = some id ∧ 1 < l.length
  else ∀ sel ∈ selected, l.length ≤ 1 ∨ ∀ a ∈ l, f a ≠ sel

instance {l : List α} {selected : Option UUID} {id : UUID} : Decidable (Removable f l selected id) :=
  inferInstanceAs (Decidable (ite _ _ _))

theorem filter_ne_eq_self {l : List α} {id : UUID} :
    l.filter (f · ≠ id) = l ↔ ∀ a ∈ l, f a ≠ id := by
  simp [List.filter_eq_self]

/-- Removals are the same only where they are of one element, or of none. -/
theorem filter_ne_inj {l : List α} {id id' : UUID}
    (h : l.filter (f · ≠ id') = l.filter (f · ≠ id)) (hid : ∃ a ∈ l, f a = id) : id' = id := by
  obtain ⟨a, ha, rfl⟩ := hid
  by_contra hne
  have hmem : a ∈ l.filter (f · ≠ id') :=
    List.mem_filter.mpr ⟨ha, decide_eq_true (Ne.symm hne)⟩
  rw [h, List.mem_filter] at hmem
  exact of_decide_eq_true hmem.2 rfl

theorem remaining_eq_iff (l : List α) (selected : Option UUID) (id : UUID) :
    remaining f l selected = l.filter (f · ≠ id) ↔ Removable f l selected id := by
  unfold Removable
  by_cases hid : ∃ a ∈ l, f a = id
  · rw [if_pos hid]
    have hmoved : l ≠ l.filter (f · ≠ id) := by
      intro h
      obtain ⟨a, ha, hfa⟩ := hid
      exact (filter_ne_eq_self f).mp h.symm a ha hfa
    rcases selected with _ | sel
    · exact iff_of_false hmoved (fun h => by cases h.1)
    · simp only [remaining, Option.some.injEq]
      split_ifs with hone
      · exact iff_of_false hmoved (fun h => absurd h.2 (not_lt.mpr hone))
      · refine ⟨fun h => ⟨filter_ne_inj f h hid, not_le.mp hone⟩, ?_⟩
        rintro ⟨rfl, -⟩
        rfl
  · rw [if_neg hid]
    have hgone : l.filter (f · ≠ id) = l :=
      (filter_ne_eq_self f).mpr fun a ha hfa => hid ⟨a, ha, hfa⟩
    rw [hgone]
    rcases selected with _ | sel
    · exact iff_of_true rfl (fun sel h => by cases h)
    · simp only [remaining, Option.mem_some_iff, forall_eq']
      split_ifs with hone
      · exact iff_of_true rfl (.inl hone)
      · rw [filter_ne_eq_self, or_iff_right hone]

end Lists

/-! ## The iOS application -/

namespace TunnelManager

variable {s s' : TunnelManager}

/-- Of the profiles just this one is removed, and no metadata is dropped but of profiles that are
gone. -/
def LeavesOnly (id : UUID) (s s' : TunnelManager) : Prop :=
  s'.profiles = s.profiles.filter (·.id ≠ id)
    ∧ ∀ k, s'.meshMeta k ≠ s.meshMeta k → ∀ profile ∈ s'.profiles, profile.id ≠ k

theorem deleteSelectedProfile_spec : s.deleteSelectedProfile.profiles
      = remaining (·.id) s.profiles s.selectedProfileID
    ∧ s.deleteSelectedProfile.meshMeta = s.meshMeta := by
  unfold deleteSelectedProfile remaining
  rcases s.selectedProfileID with _ | id
  · exact ⟨rfl, rfl⟩
  · simp only []
    split_ifs
    · exact ⟨rfl, rfl⟩
    · simp

theorem left_iff {t : TunnelManager} {id : UUID} (hprofiles : t.profiles = s.profiles)
    (hsel : t.selectedProfileID = s.selectedProfileID) (hmeta : t.meshMeta = s.meshMeta) :
    LeavesOnly id s (t.left id) ↔ Removable (·.id) s.profiles s.selectedProfileID id := by
  obtain ⟨hp, hm⟩ := deleteSelectedProfile_spec
    (s := { t with meshMeta := Function.update t.meshMeta id none })
  replace hp : (t.left id).profiles = remaining (·.id) s.profiles s.selectedProfileID := by
    rw [← hprofiles, ← hsel]
    exact hp
  replace hm : (t.left id).meshMeta = Function.update s.meshMeta id none := by
    rw [← hmeta]
    exact hm
  unfold LeavesOnly
  rw [hp, hm, ← remaining_eq_iff, and_iff_left_iff_imp]
  intro heq k hk profile hmem hid
  rw [heq, List.mem_filter, decide_eq_true_eq] at hmem
  by_cases hki : k = id
  · exact hmem.2 (hid.trans hki)
  · exact hk (Function.update_of_ne hki _ _)

end TunnelManager

section Manager

variable (dials : Text → Bool) (s : TunnelManager)

/-- With this operation a leave of the profile ends: its network call is over, or there is none
because no client can be made. -/
def EndsLeave (id : UUID) : ManagerOp → Prop
  | .leaveMeshAndDeleteSelected => s.selectedProfileID = some id
      ∧ ∃ entry, s.meshMeta id = some entry ∧ dials entry.server = false
  | .leaveReturns i => ∃ entry, s.leaving[i]? = some (id, entry)
  | _ => False

def LeftAlone (op : ManagerOp) (s' : TunnelManager) : Prop :=
  ∀ id, EndsLeave dials s id op → s.LeavesOnly id s'

/-- The guard that keeps the law: as a leave ends, the profile that left is selected and is not the
only one. -/
def StillSelected (op : ManagerOp) : Prop :=
  ∀ id, EndsLeave dials s id op → Removable (·.id) s.profiles s.selectedProfileID id

end Manager

theorem managerStep_left {dials : Text → Bool} {s s' : TunnelManager} {op : ManagerOp}
    {sent : Option MeshMeta} (h : managerStep dials s op = some (s', sent)) :
    LeftAlone dials s op s' ↔ StillSelected dials s op := by
  refine forall₂_congr fun id hends => ?_
  rcases op with _ | _ | _ | _ | _ | _ | _ | _ | _ | _ | _ | i
  case leaveMeshAndDeleteSelected =>
    obtain ⟨hsel, entry, hmeta, hdials⟩ := hends
    simp only [managerStep, TunnelManager.leaveMeshAndDeleteSelected, hsel, hmeta, hdials,
      Option.bind_some, Option.map_some] at h
    cases h
    exact TunnelManager.left_iff rfl rfl rfl
  case leaveReturns =>
    obtain ⟨entry, hentry⟩ := hends
    simp only [managerStep, hentry, Option.map_some] at h
    cases h
    exact TunnelManager.left_iff rfl rfl rfl
  all_goals exact hends.elim

/-! ## The Android application -/

namespace WgTunnelManager

variable {s s' : WgTunnelManager}

/-- Of the nodes just this one is removed, and no metadata is dropped but of nodes that are gone. -/
def LeavesOnly (id : UUID) (s s' : WgTunnelManager) : Prop :=
  s'.nodes = s.nodes.filter (·.id ≠ id)
    ∧ ∀ k, s'.repo.meshMeta k ≠ s.repo.meshMeta k → ∀ node ∈ s'.nodes, node.id ≠ k

theorem deleteSelectedNode_spec (h : s.deleteSelectedNode = some s') :
    s'.nodes = remaining (·.id) s.nodes s.selectedNodeId ∧ s'.repo.meshMeta = s.repo.meshMeta := by
  unfold deleteSelectedNode at h
  unfold remaining
  split_ifs at h with hone
  · cases h
    rcases s.selectedNodeId with _ | id
    · exact ⟨rfl, rfl⟩
    · simp only [if_pos hone, and_self]
  · rcases hsel : s.selectedNodeId with _ | id <;> rw [hsel] at h <;> simp only [] at h ⊢
    · cases h
      exact ⟨rfl, rfl⟩
    · rw [if_neg hone]
      rcases hrest : s.nodes.filter (·.id ≠ id) with _ | ⟨first, rest⟩ <;> rw [hrest] at h
      · cases h
      · cases h
        rw [apply_nodes, apply_repo]
        exact ⟨hrest.symm, rfl⟩

theorem left_iff {t : WgTunnelManager} {id : UUID} (hnodes : t.nodes = s.nodes)
    (hsel : t.selectedNodeId = s.selectedNodeId) (hrepo : t.repo = s.repo)
    (h : t.left id = some s') :
    LeavesOnly id s s' ↔ Removable (·.id) s.nodes s.selectedNodeId id := by
  obtain ⟨hp, hm⟩ := deleteSelectedNode_spec h
  replace hp : s'.nodes = remaining (·.id) s.nodes s.selectedNodeId := by
    rw [← hnodes, ← hsel]
    exact hp
  replace hm : s'.repo.meshMeta = Function.update s.repo.meshMeta id none := by
    rw [← hrepo]
    exact hm
  unfold LeavesOnly
  rw [hp, hm, ← remaining_eq_iff, and_iff_left_iff_imp]
  intro heq k hk node hmem hid
  rw [heq, List.mem_filter, decide_eq_true_eq] at hmem
  by_cases hki : k = id
  · exact hmem.2 (hid.trans hki)
  · exact hk (Function.update_of_ne hki _ _)

end WgTunnelManager

section Manager

variable (dials : Text → Bool) (s : WgTunnelManager)

def EndsLeaveAndroid (id : UUID) : AndroidOp → Prop
  | .leaveMeshAndDeleteSelected => s.selectedNodeId = some id
      ∧ ∃ entry, s.repo.meshMeta id = some entry ∧ dials entry.server = false
  | .leaveReturns i => ∃ entry, s.leaving[i]? = some (id, entry)
  | _ => False

def LeftAloneAndroid (op : AndroidOp) (s' : WgTunnelManager) : Prop :=
  ∀ id, EndsLeaveAndroid dials s id op → s.LeavesOnly id s'

def StillSelectedAndroid (op : AndroidOp) : Prop :=
  ∀ id, EndsLeaveAndroid dials s id op → Removable (·.id) s.nodes s.selectedNodeId id

end Manager

theorem androidStep_left {dials : Text → Bool} {s s' : WgTunnelManager} {op : AndroidOp}
    {sent : Option MeshMeta} (h : androidStep dials s op = some (s', sent)) :
    LeftAloneAndroid dials s op s' ↔ StillSelectedAndroid dials s op := by
  refine forall₂_congr fun id hends => ?_
  rcases op with _ | _ | _ | _ | _ | _ | _ | _ | i
  case leaveMeshAndDeleteSelected =>
    obtain ⟨hsel, entry, hmeta, hdials⟩ := hends
    simp only [androidStep, WgTunnelManager.leaveMeshAndDeleteSelected, hsel, hmeta, hdials] at h
    obtain ⟨t, ht, h⟩ := Option.map_eq_some_iff.mp h
    cases h
    exact WgTunnelManager.left_iff rfl rfl rfl ht
  case leaveReturns =>
    obtain ⟨entry, hentry⟩ := hends
    simp only [androidStep, hentry, Option.bind_eq_bind, Option.bind_some, Option.bind_eq_some_iff,
      Option.pure_def, Option.some.injEq, Prod.mk.injEq] at h
    obtain ⟨t, ht, rfl, -⟩ := h
    exact WgTunnelManager.left_iff (t := { s with leaving := s.leaving.eraseIdx i }) rfl rfl rfl ht
  all_goals exact hends.elim

/-! ## Both -/

variable {dials : Text → Bool} {s₀ s : TunnelManager} {ops : List ManagerOp}
  {a₀ a : WgTunnelManager} {aops : List AndroidOp}

/-- In a run of operations, every leave removes just the profile that left exactly if each finds
that one selected as it ends, and not the only one. -/
theorem leaves_alone (h : FreeRun (managerStep dials) s₀ ops s)
    (ha : FreeRun (androidStep dials) a₀ aops a) :
    (EveryStep (managerStep dials) (LeftAlone dials) s₀ ops
        ↔ Run (managerStep dials) (StillSelected dials) s₀ ops s)
      ∧ (EveryStep (androidStep dials) (LeftAloneAndroid dials) a₀ aops
        ↔ Run (androidStep dials) (StillSelectedAndroid dials) a₀ aops a) :=
  ⟨h.everyStep_iff fun _ _ _ _ hst => managerStep_left hst,
    ha.everyStep_iff fun _ _ _ _ hst => androidStep_left hst⟩

namespace Specimen

def someEntry : MeshMeta := ⟨"d1".toList, "t1".toList, "https://mesh".toList⟩

def meshManager : TunnelManager :=
  { someManager with meshMeta := fun id => if id = 1 then some someEntry else none }

def meshAndroid : WgTunnelManager :=
  { someAndroid with
    repo := { someAndroid.repo with meshMeta := fun id => if id = 1 then some someEntry else none } }

def dialsAll : Text → Bool := fun _ => true

end Specimen

open Specimen

theorem leaves_alone_waiting :
    EveryStep (managerStep dialsAll) (LeftAlone dialsAll) meshManager
        [.leaveMeshAndDeleteSelected, .leaveReturns 0]
      ∧ EveryStep (androidStep dialsAll) (LeftAloneAndroid dialsAll) meshAndroid
        [.leaveMeshAndDeleteSelected, .leaveReturns 0] := by
  have h : FreeRun (managerStep dialsAll) meshManager
      [.leaveMeshAndDeleteSelected, .leaveReturns 0] _ :=
    .cons trivial rfl (.cons trivial rfl (.nil _))
  have ha : FreeRun (androidStep dialsAll) meshAndroid
      [.leaveMeshAndDeleteSelected, .leaveReturns 0] _ :=
    .cons trivial rfl (.cons trivial rfl (.nil _))
  obtain ⟨halone, halone'⟩ := leaves_alone h ha
  refine ⟨halone.mpr (.cons ?_ rfl (.cons ?_ rfl (.nil _))),
    halone'.mpr (.cons ?_ rfl (.cons ?_ rfl (.nil _)))⟩
  · rintro id ⟨-, entry, -, hdials⟩
    cases hdials
  · rintro id ⟨entry, hentry⟩
    cases hentry
    decide
  · rintro id ⟨-, entry, -, hdials⟩
    cases hdials
  · rintro id ⟨entry, hentry⟩
    cases hentry
    decide

/-- Another profile is selected while the server is told, and goes in place of the one that left. -/
theorem another_removed :
    ¬ EveryStep (managerStep dialsAll) (LeftAlone dialsAll) meshManager
        [.leaveMeshAndDeleteSelected, .selectProfile 2, .leaveReturns 0]
      ∧ ¬ EveryStep (androidStep dialsAll) (LeftAloneAndroid dialsAll) meshAndroid
        [.leaveMeshAndDeleteSelected, .selectNode 2, .leaveReturns 0] := by
  constructor
  · intro h
    have hleft := h [.leaveMeshAndDeleteSelected, .selectProfile 2] _ [] _ _ _ rfl
      (.cons trivial rfl (.cons trivial rfl (.nil _))) rfl
    exact absurd (hleft 1 ⟨someEntry, rfl⟩).1 (by decide)
  · intro h
    have hleft := h [.leaveMeshAndDeleteSelected, .selectNode 2] _ [] _ _ _ rfl
      (.cons trivial rfl (.cons trivial rfl (.nil _))) rfl
    exact absurd (hleft 1 ⟨someEntry, rfl⟩).1 (by decide)

end PolarWG
