import Mathlib.Data.List.DropRight

/-!
# Trimming lists

Dropping what satisfies a predicate from both ends of a list. The two ends are independent, so the
order does not matter, and trimming less first is lost on trimming more.
-/

namespace Trim

variable {α : Type*} {w : α → Bool}

theorem rdropWhile_cons (w : α → Bool) (a : α) (l : List α) :
    (a :: l).rdropWhile w = if l.rdropWhile w = [] ∧ w a then [] else a :: l.rdropWhile w := by
  unfold List.rdropWhile
  rw [List.reverse_cons, List.dropWhile_append]
  rcases hd : l.reverse.dropWhile w with _ | ⟨b, m⟩
  · by_cases ha : w a <;> simp [ha]
  · simp

theorem rdropWhile_append_cons {a : α} (ha : ¬ w a) (u v : List α) :
    (u ++ a :: v).rdropWhile w = u ++ a :: v.rdropWhile w := by
  induction u with
  | nil =>
    rw [List.nil_append, rdropWhile_cons, if_neg fun h => ha h.2]
    rfl
  | cons b u ih =>
    rw [List.cons_append, rdropWhile_cons, ih, if_neg (by simp)]
    rfl

theorem rdropWhile_append_of_pos {u v : List α} (hv : ∀ a ∈ v, w a) :
    (u ++ v).rdropWhile w = u.rdropWhile w := by
  unfold List.rdropWhile
  rw [List.reverse_append, List.dropWhile_append_of_pos fun a ha => hv a (List.mem_reverse.mp ha)]

theorem dropWhile_rdropWhile (w : α → Bool) : ∀ l : List α,
    (l.rdropWhile w).dropWhile w = (l.dropWhile w).rdropWhile w
  | [] => rfl
  | a :: l => by
    rw [rdropWhile_cons]
    by_cases ha : w a
    · rw [List.dropWhile_cons_of_pos ha, ← dropWhile_rdropWhile w l]
      split
      · next h => rw [h.1]
      · rw [List.dropWhile_cons_of_pos ha]
    · rw [if_neg fun h => ha h.2, List.dropWhile_cons_of_neg ha, List.dropWhile_cons_of_neg ha,
        rdropWhile_cons, if_neg fun h => ha h.2]

theorem dropWhile_append_cons {a : α} (ha : ¬ w a) (u v : List α) :
    (u ++ a :: v).dropWhile w = u.dropWhile w ++ a :: v := by
  rw [List.dropWhile_append]
  split
  · next h => rw [List.isEmpty_iff.mp h, List.dropWhile_cons_of_neg ha, List.nil_append]
  · rfl

/-- What satisfies `w` dropped from both ends. -/
def trim (w : α → Bool) (l : List α) : List α := (l.dropWhile w).rdropWhile w

theorem trim_eq (w : α → Bool) (l : List α) : trim w l = (l.rdropWhile w).dropWhile w :=
  (dropWhile_rdropWhile w l).symm

theorem rdropWhile_rdropWhile {w' : α → Bool} (h : ∀ a, w a → w' a) (l : List α) :
    (l.rdropWhile w).rdropWhile w' = l.rdropWhile w' := by
  induction l using List.reverseRecOn with
  | nil => rfl
  | append_singleton l a ih =>
    by_cases ha : w a
    · rw [List.rdropWhile_concat_pos _ _ _ ha, List.rdropWhile_concat_pos _ _ _ (h a ha), ih]
    · rw [List.rdropWhile_concat_neg _ _ _ ha]

theorem dropWhile_dropWhile {w' : α → Bool} (h : ∀ a, w a → w' a) : ∀ l : List α,
    (l.dropWhile w).dropWhile w' = l.dropWhile w'
  | [] => rfl
  | a :: l => by
    by_cases ha : w a
    · rw [List.dropWhile_cons_of_pos ha, List.dropWhile_cons_of_pos (h a ha),
        dropWhile_dropWhile h l]
    · rw [List.dropWhile_cons_of_neg ha]

theorem trim_trim {w' : α → Bool} (h : ∀ a, w a → w' a) (l : List α) :
    trim w' (trim w l) = trim w' l := by
  rw [trim_eq w', trim, rdropWhile_rdropWhile h, ← trim_eq, trim, dropWhile_dropWhile h]
  rfl

end Trim
