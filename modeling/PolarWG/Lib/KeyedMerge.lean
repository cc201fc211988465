import Mathlib.Data.List.Basic
import Mathlib.Data.List.Induction
import Mathlib.Data.List.Nodup
import Mathlib.Data.List.Perm.Basic

/-!
# Keyed merges

A list is merged with what came in under keys: of the elements with a key that came in the first
survives and is patched, and what no element has the key of is left over. Survivors and leftovers
have the keys that came in, each once.
-/

namespace KeyedMerge

variable {α β κ : Type*} [DecidableEq κ]

/-- The first element of each key that came in; an element may have no key. -/
def survivors (key : α → Option κ) : List (Option κ) → List α → List α
  | _, [] => []
  | ks, a :: l =>
    if key a ≠ none ∧ key a ∈ ks then a :: survivors key (ks.filter (· ≠ key a)) l
    else survivors key ks l

section Survivors

variable {key : α → Option κ} {ks : List (Option κ)} {l : List α} {a : α}

theorem survivors_sublist : ∀ (ks : List (Option κ)) (l : List α), (survivors key ks l).Sublist l
  | _, [] => .slnil
  | ks, a :: l => by
    unfold survivors
    split
    · exact (survivors_sublist _ l).cons_cons a
    · exact (survivors_sublist _ l).cons a

theorem key_of_mem_survivors : ∀ {ks : List (Option κ)} {l : List α}, a ∈ survivors key ks l →
    key a ≠ none ∧ key a ∈ ks
  | _, [], h => by cases h
  | ks, b :: l, h => by
    unfold survivors at h
    split at h
    · next hb =>
      rcases List.mem_cons.mp h with rfl | h
      · exact hb
      · obtain ⟨h1, h2⟩ := key_of_mem_survivors h
        exact ⟨h1, (List.mem_filter.mp h2).1⟩
    · exact key_of_mem_survivors h

theorem nodup_survivors : ∀ (ks : List (Option κ)) (l : List α), ((survivors key ks l).map key).Nodup
  | _, [] => .nil
  | ks, a :: l => by
    unfold survivors
    split
    · rw [List.map_cons, List.nodup_cons]
      refine ⟨fun h => ?_, nodup_survivors _ l⟩
      obtain ⟨b, hb, hkey⟩ := List.mem_map.mp h
      have := (List.mem_filter.mp (key_of_mem_survivors hb).2).2
      simp [hkey] at this
    · exact nodup_survivors _ l

/-- Who survives: the first with a key that came in. -/
theorem mem_survivors_iff : ∀ {ks : List (Option κ)} {l : List α}, a ∈ survivors key ks l ↔
    key a ≠ none ∧ key a ∈ ks ∧ l.find? (fun b => key b = key a) = some a
  | _, [] => by simp [survivors]
  | ks, b :: l => by
    unfold survivors
    by_cases hb : key b = key a
    · rw [List.find?_cons_of_pos (by simpa using hb), Option.some.injEq]
      split
      · next hk =>
        rw [List.mem_cons]
        constructor
        · rintro (rfl | h)
          · exact ⟨hk.1, hk.2, rfl⟩
          · have := (List.mem_filter.mp (key_of_mem_survivors h).2).2
            simp [hb] at this
        · rintro ⟨-, -, rfl⟩
          exact .inl rfl
      · next hk =>
        constructor
        · intro h
          exact absurd (hb ▸ key_of_mem_survivors h) hk
        · rintro ⟨h1, h2, rfl⟩
          exact absurd ⟨h1, h2⟩ hk
    · rw [List.find?_cons_of_neg (by simpa using hb)]
      have hne : a ≠ b := fun h => hb (congrArg key h).symm
      split
      · rw [List.mem_cons, or_iff_right hne, mem_survivors_iff, List.mem_filter]
        simp [Ne.symm hb]
      · exact mem_survivors_iff

/-- In which order the keys came in does not matter, nor how often. -/
theorem survivors_congr {ks ks' : List (Option κ)} (h : ∀ k, k ∈ ks ↔ k ∈ ks') :
    ∀ l : List α, survivors key ks l = survivors key ks' l
  | [] => rfl
  | a :: l => by
    unfold survivors
    simp only [h (key a)]
    split
    · have hf : ∀ k, k ∈ ks.filter (· ≠ key a) ↔ k ∈ ks'.filter (· ≠ key a) := fun k => by
        rw [List.mem_filter, List.mem_filter, h k]
      rw [survivors_congr hf l]
    · exact survivors_congr h l

theorem survivors_of_nodup : ∀ {ks : List (Option κ)} {l : List α}, (l.map key).Nodup →
    (∀ a ∈ l, key a ≠ none ∧ key a ∈ ks) → survivors key ks l = l
  | _, [], _, _ => rfl
  | ks, a :: l, hn, hall => by
    rw [List.map_cons, List.nodup_cons] at hn
    rw [survivors, if_pos (hall a List.mem_cons_self),
      survivors_of_nodup hn.2 fun b hb => ?_]
    obtain ⟨h1, h2⟩ := hall b (List.mem_cons_of_mem a hb)
    have hne : key b ≠ key a := fun h => hn.1 (h ▸ List.mem_map_of_mem hb)
    exact ⟨h1, List.mem_filter.mpr ⟨h2, by simpa using hne⟩⟩

end Survivors

section Merge

variable (key : α → Option κ) (keyIn : β → Option κ) (patch : α → β → α)

/-- The element that came in under the key of `a`. -/
def matching (incoming : List β) (a : α) : Option β :=
  incoming.find? fun b => key a ≠ none ∧ keyIn b = key a

/-- One element is patched, or is dropped. -/
def mergeStep (acc : List α × List β) (a : α) : List α × List β :=
  match matching key keyIn acc.2 a with
  | some b => (acc.1 ++ [patch a b], acc.2.filter (keyIn · ≠ key a))
  | none => acc

def patched (incoming : List β) (a : α) : α :=
  match matching key keyIn incoming a with
  | some b => patch a b
  | none => a

/-- What came in under a key that no element has. -/
def leftovers (l : List α) (incoming : List β) : List β :=
  incoming.filter fun b => ¬ (keyIn b ≠ none ∧ keyIn b ∈ l.map key)

variable {key keyIn patch}

theorem mem_leftovers_iff {l : List α} {incoming : List β} {b : β} :
    b ∈ leftovers key keyIn l incoming
      ↔ b ∈ incoming ∧ ¬ (keyIn b ≠ none ∧ keyIn b ∈ l.map key) := by
  rw [leftovers, List.mem_filter, decide_eq_true_eq]

theorem matching_isSome {incoming : List β} {a : α} :
    (matching key keyIn incoming a).isSome ↔ key a ≠ none ∧ key a ∈ incoming.map keyIn := by
  simp only [matching, List.find?_isSome, List.mem_map, decide_eq_true_eq]
  exact ⟨fun ⟨b, hb, h1, h2⟩ => ⟨h1, b, hb, h2⟩, fun ⟨h1, b, hb, h2⟩ => ⟨b, hb, h1, h2⟩⟩

/-- What has another key is found all the same. -/
theorem matching_filter {incoming : List β} {a b : α} (h : key b ≠ key a) :
    matching key keyIn (incoming.filter (keyIn · ≠ key a)) b = matching key keyIn incoming b := by
  unfold matching
  rw [List.find?_filter]
  congr 1
  funext c
  by_cases hc : keyIn c = key b
  · simp [hc, h]
  · simp [hc]

/-- The whole merge: the survivors patched, and the leftovers. -/
theorem foldl_mergeStep : ∀ (l : List α) (acc : List α) (incoming : List β),
    l.foldl (mergeStep key keyIn patch) (acc, incoming)
      = (acc ++ (survivors key (incoming.map keyIn) l).map (patched key keyIn patch incoming),
        leftovers key keyIn l incoming)
  | [], acc, incoming => by simp [survivors, leftovers]
  | a :: l, acc, incoming => by
    rw [List.foldl_cons, mergeStep]
    rcases hm : matching key keyIn incoming a with _ | b
    · have hno : ¬ (key a ≠ none ∧ key a ∈ incoming.map keyIn) := fun h => by
        have := matching_isSome.mpr h
        rw [hm] at this
        cases this
      simp only []
      rw [foldl_mergeStep l acc incoming, survivors, if_neg hno, leftovers, leftovers]
      refine congrArg (Prod.mk _) (List.filter_congr fun c hc => decide_eq_decide.mpr (not_congr ?_))
      rw [List.map_cons, List.mem_cons]
      refine and_congr_right fun hc' => ⟨.inr, fun h => h.resolve_left fun heq => ?_⟩
      exact hno ⟨heq ▸ hc', heq ▸ List.mem_map_of_mem hc⟩
    · have hyes : key a ≠ none ∧ key a ∈ incoming.map keyIn := by
        have := congrArg Option.isSome hm
        exact matching_isSome.mp this
      have hkeys : (incoming.filter (keyIn · ≠ key a)).map keyIn
          = (incoming.map keyIn).filter (· ≠ key a) := by
        rw [List.filter_map]
        rfl
      simp only []
      rw [foldl_mergeStep l, survivors, if_pos hyes, List.map_cons, hkeys, List.append_assoc,
        List.singleton_append]
      have hpatch : patched key keyIn patch incoming a = patch a b := by
        rw [patched, hm]
      have hrest : (survivors key ((incoming.map keyIn).filter (· ≠ key a)) l).map
            (patched key keyIn patch (incoming.filter (keyIn · ≠ key a)))
          = (survivors key ((incoming.map keyIn).filter (· ≠ key a)) l).map
            (patched key keyIn patch incoming) := by
        refine List.map_congr_left fun c hc => ?_
        have hne : key c ≠ key a := by
          simpa using (List.mem_filter.mp (key_of_mem_survivors hc).2).2
        rw [patched, patched, matching_filter hne]
      rw [hpatch, hrest, leftovers, leftovers, List.filter_filter]
      refine congrArg (Prod.mk _) (List.filter_congr fun c hc => ?_)
      by_cases hc' : keyIn c = key a
      · simp [hc', hyes.1]
      · simp [hc']

theorem mem_of_matching {incoming : List β} {a : α} {b : β}
    (h : matching key keyIn incoming a = some b) : b ∈ incoming ∧ keyIn b = key a := by
  refine ⟨List.mem_of_find?_eq_some h, ?_⟩
  have := List.find?_some h
  simp only [decide_eq_true_eq] at this
  exact this.2

theorem matching_of_mem {incoming : List β} {a : α} {b : β} (hn : (incoming.map keyIn).Nodup)
    (hb : b ∈ incoming) (hkey : key a ≠ none) (h : keyIn b = key a) :
    matching key keyIn incoming a = some b := by
  rcases hm : matching key keyIn incoming a with _ | b'
  · have : (matching key keyIn incoming a).isSome :=
      matching_isSome.mpr ⟨hkey, h ▸ List.mem_map_of_mem hb⟩
    rw [hm] at this
    cases this
  · obtain ⟨hb', h'⟩ := mem_of_matching hm
    rw [List.inj_on_of_nodup_map hn hb' hb (h'.trans h.symm)]

theorem map_filterMap_eq {γ : Type*} {f : α → γ} {g : β → γ} {m : α → Option β} :
    ∀ {l : List α}, (∀ a ∈ l, ∃ b, m a = some b ∧ g b = f a) → (l.filterMap m).map g = l.map f
  | [], _ => rfl
  | a :: l, h => by
    obtain ⟨b, hb, heq⟩ := h a List.mem_cons_self
    rw [List.filterMap_cons_some hb, List.map_cons, List.map_cons, heq,
      map_filterMap_eq fun a' ha' => h a' (List.mem_cons_of_mem a ha')]

/-- Every survivor has a match. -/
theorem matching_of_survivor {incoming : List β} {l : List α} {a : α}
    (h : a ∈ survivors key (incoming.map keyIn) l) :
    ∃ b, matching key keyIn incoming a = some b ∧ keyIn b = key a := by
  obtain ⟨b, hb⟩ := Option.isSome_iff_exists.mp (matching_isSome.mpr (key_of_mem_survivors h))
  exact ⟨b, hb, (mem_of_matching hb).2⟩

/-- What the survivors are patched with and what is left over is together what came in. -/
theorem matched_perm {incoming : List β} (l : List α) (hn : (incoming.map keyIn).Nodup)
    (hsome : ∀ b ∈ incoming, keyIn b ≠ none) :
    ((survivors key (incoming.map keyIn) l).filterMap (matching key keyIn incoming)
      ++ leftovers key keyIn l incoming).Perm incoming := by
  have hkeys := map_filterMap_eq fun a (ha : a ∈ survivors key (incoming.map keyIn) l) =>
    matching_of_survivor ha
  refine (List.perm_ext_iff_of_nodup (.of_map keyIn ?_) (.of_map _ hn)).mpr fun b => ?_
  · rw [List.map_append, hkeys, List.nodup_append]
    refine ⟨nodup_survivors _ l, hn.sublist (List.filter_sublist.map _), ?_⟩
    rintro k hk k' hk' rfl
    obtain ⟨b, hb, rfl⟩ := List.mem_map.mp hk'
    obtain ⟨hb, hno⟩ := mem_leftovers_iff.mp hb
    have hmem := ((survivors_sublist _ l).map key).subset hk
    exact hno ⟨hsome b hb, hmem⟩
  · rw [List.mem_append, List.mem_filterMap, mem_leftovers_iff]
    constructor
    · rintro (⟨a, -, ha⟩ | h)
      · exact (mem_of_matching ha).1
      · exact h.1
    · intro hb
      by_cases hl : keyIn b ∈ l.map key
      · have hfound : (l.find? fun a => key a = keyIn b).isSome := by
          obtain ⟨a, ha, hkey⟩ := List.mem_map.mp hl
          exact List.find?_isSome.mpr ⟨a, ha, by simpa using hkey⟩
        obtain ⟨a, ha⟩ := Option.isSome_iff_exists.mp hfound
        have hkey : key a = keyIn b := by simpa using List.find?_some ha
        have hne : key a ≠ none := hkey ▸ hsome b hb
        refine .inl ⟨a, mem_survivors_iff.mpr ⟨hne, ?_, ?_⟩, matching_of_mem hn hb hne hkey.symm⟩
        · exact hkey ▸ List.mem_map_of_mem hb
        · simpa only [hkey] using ha
      · exact .inr ⟨hb, fun h => hl h.2⟩

end Merge

/-! ## The last of each key -/

section Latest

variable {γ : Type*} {keyOf : β → γ} [DecidableEq γ]

/-- A dictionary that is filled in order: what comes later replaces what has its key. -/
def latest (keyOf : β → γ) (l : List β) : List β :=
  l.foldl (fun acc b => acc.filter (keyOf · ≠ keyOf b) ++ [b]) []

theorem latest_concat (l : List β) (b : β) :
    latest keyOf (l ++ [b]) = (latest keyOf l).filter (keyOf · ≠ keyOf b) ++ [b] := by
  unfold latest
  rw [List.foldl_append]
  rfl

theorem nodup_latest (l : List β) : ((latest keyOf l).map keyOf).Nodup := by
  induction l using List.reverseRecOn with
  | nil => exact .nil
  | append_singleton l b ih =>
    rw [latest_concat, List.map_append, List.nodup_append]
    refine ⟨ih.sublist (List.filter_sublist.map _), List.nodup_singleton _, ?_⟩
    simp only [List.map_cons, List.map_nil, List.mem_singleton, List.mem_map, List.mem_filter]
    rintro k ⟨c, ⟨-, hc⟩, rfl⟩ k' rfl
    exact of_decide_eq_true hc

/-- It holds the last of each key. -/
theorem mem_latest_iff {b : β} (l : List β) :
    b ∈ latest keyOf l ↔ l.reverse.find? (keyOf · = keyOf b) = some b := by
  induction l using List.reverseRecOn with
  | nil => simp [latest]
  | append_singleton l c ih =>
    rw [latest_concat, List.reverse_append, List.reverse_singleton, List.singleton_append,
      List.mem_append, List.mem_singleton, List.mem_filter, ih]
    by_cases hc : keyOf c = keyOf b
    · rw [List.find?_cons_of_pos (by simpa using hc)]
      simp [hc, eq_comm]
    · rw [List.find?_cons_of_neg (by simpa using hc)]
      have hne : b ≠ c := fun h => hc (h ▸ rfl)
      simp [hne, Ne.symm hc]

theorem map_latest {β' : Type*} {keyOf' : β' → γ} {f : β → β'} (hf : ∀ b, keyOf' (f b) = keyOf b)
    (l : List β) : (latest keyOf l).map f = latest keyOf' (l.map f) := by
  induction l using List.reverseRecOn with
  | nil => rfl
  | append_singleton l b ih =>
    rw [List.map_append, List.map_singleton, latest_concat, latest_concat, List.map_append, ← ih,
      List.filter_map]
    simp only [hf, Function.comp_def, List.map_singleton]

end Latest

end KeyedMerge
