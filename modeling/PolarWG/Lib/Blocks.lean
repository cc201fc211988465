import Mathlib

/-!
# Blocks of a stream

A stream comes in pieces of any length and is taken in blocks of `b` elements. The last block is
held back, full or not, until the stream ends: whoever takes it has to know that it is the last.
-/

namespace Blocks

variable {α σ : Type*} (b : ℕ) (f : σ → List α → σ)

/-- The first `n` blocks. -/
def firsts (n : ℕ) (m : List α) : List (List α) :=
  (List.range n).map fun i => (m.drop (b * i)).take b

/-- What is left after the first `n` blocks. -/
def rest (n : ℕ) (m : List α) : List α := m.drop (b * n)

/-- How many blocks are not the last. -/
def count (m : List α) : ℕ := (m.length - 1) / b

structure Absorber (α σ : Type*) where
  acc : σ
  buf : List α

/-- Fills up the buffer, takes what is known not to be last, and holds back the rest. -/
def update (s : Absorber α σ) (m : List α) : Absorber α σ :=
  let fill := b - s.buf.length
  if m = [] then s
  else
    let (s, m) :=
      if fill < m.length then (⟨f s.acc (s.buf ++ m.take fill), []⟩, m.drop fill) else (s, m)
    let (s, m) :=
      if b < m.length then
        let n := (m.length + (b - 1)) / b - 1
        ({ s with acc := (firsts b n m).foldl f s.acc }, m.drop (b * n))
      else (s, m)
    { s with buf := s.buf ++ m }

/-- All blocks of `m` but the last are taken, and the last one is in the buffer. -/
structure Absorbed (init : σ) (m : List α) (s : Absorber α σ) : Prop where
  acc : s.acc = (firsts b (count b m) m).foldl f init
  buf : s.buf = rest b (count b m) m

variable {b f} {init : σ} {m : List α} {s : Absorber α σ} {n : ℕ}

theorem firsts_succ (n : ℕ) (m : List α) :
    firsts b (n + 1) m = firsts b n m ++ [(m.drop (b * n)).take b] := by
  simp [firsts, List.range_succ]

theorem firsts_add (n k : ℕ) (m : List α) :
    firsts b (n + k) m = firsts b n m ++ firsts b k (m.drop (b * n)) := by
  simp only [firsts, List.range_add, List.map_append, List.map_map, List.append_cancel_left_eq]
  refine List.map_congr_left fun i _ => ?_
  simp only [Function.comp_apply, List.drop_drop, Nat.mul_add]

theorem firsts_cons (n : ℕ) (m : List α) :
    firsts b (n + 1) m = m.take b :: firsts b n (m.drop b) := by
  rw [Nat.add_comm, firsts_add, Nat.mul_one]
  simp [firsts]

/-- The blocks of a stream are not changed by what comes after them. -/
theorem firsts_append {m₂ : List α} (h : b * n ≤ m.length) : firsts b n (m ++ m₂) = firsts b n m := by
  refine List.map_congr_left fun i hi => ?_
  have hi : i + 1 ≤ n := List.mem_range.mp hi
  have hle : b * (i + 1) ≤ m.length := (Nat.mul_le_mul_left b hi).trans h
  rw [Nat.mul_succ] at hle
  rw [List.drop_append_of_le_length (by omega), List.take_append_of_le_length]
  rw [List.length_drop]
  omega

theorem count_mul_le (m : List α) : b * count b m ≤ m.length :=
  (Nat.mul_div_le (m.length - 1) b).trans (Nat.sub_le _ _)

theorem length_rest_le (hb : 0 < b) (m : List α) : (rest b (count b m) m).length ≤ b := by
  have h := Nat.lt_mul_div_succ (m.length - 1) hb
  rw [Nat.mul_succ] at h
  simp only [rest, count, List.length_drop]
  omega

theorem count_eq (hlo : b * n < m.length) (hhi : m.length ≤ b * n + b) :
    count b m = n := by
  apply Nat.div_eq_of_lt_le
  · rw [Nat.mul_comm]
    omega
  · rw [Nat.mul_comm, Nat.mul_succ]
    omega

theorem Absorbed.nil (init : σ) : Absorbed b f init [] ⟨init, []⟩ where
  acc := by simp [count, firsts]
  buf := by simp [rest]

/-- However many blocks the buffer's is after, the stream goes on from it. -/
theorem Absorbed.of_blocks (hacc : s.acc = (firsts b n m).foldl f init)
    (hbuf : s.buf = rest b n m) (hlo : b * n < m.length) (hhi : m.length ≤ b * n + b) :
    Absorbed b f init m s := by
  have hn := count_eq hlo hhi
  exact ⟨hn ▸ hacc, hn ▸ hbuf⟩

/-- The step in which the buffer is filled up and taken. -/
theorem Absorbed.fill (h : Absorbed b f init m s) (hlen : s.buf.length ≤ b) (m₂ : List α) :
    f s.acc (s.buf ++ m₂.take (b - s.buf.length))
        = (firsts b (count b m + 1) (m ++ m₂)).foldl f init
      ∧ m₂.drop (b - s.buf.length) = (m ++ m₂).drop (b * (count b m + 1)) := by
  have hle := count_mul_le (b := b) m
  have hbl : s.buf.length = m.length - b * count b m := by
    rw [h.buf, rest, List.length_drop]
  constructor
  · have hblock : ((m ++ m₂).drop (b * count b m)).take b
        = s.buf ++ m₂.take (b - s.buf.length) := by
      rw [List.drop_append_of_le_length hle, List.take_append, ← rest, ← h.buf,
        List.take_of_length_le hlen]
    rw [firsts_succ, List.foldl_append, firsts_append hle, ← h.acc, hblock]
    rfl
  · have hm' : m.drop (b * count b m + b) = [] := List.drop_eq_nil_of_le (by omega)
    rw [Nat.mul_succ, List.drop_append, hm', List.nil_append]
    congr 1
    omega

theorem Absorbed.update (hb : 0 < b) (h : Absorbed b f init m s) (m₂ : List α) :
    Absorbed b f init (m ++ m₂) (update b f s m₂) := by
  have hle := count_mul_le (b := b) m
  have hlen := length_rest_le hb m
  have hbl : s.buf.length = m.length - b * count b m := by
    rw [h.buf, rest, List.length_drop]
  rw [← h.buf] at hlen
  unfold Blocks.update
  by_cases hnil : m₂ = []
  · simpa [hnil] using h
  have hpos := List.length_pos_iff.mpr hnil
  simp only [hnil, if_false]
  by_cases hfill : b - s.buf.length < m₂.length
  · obtain ⟨hacc, hrest⟩ := h.fill hlen m₂
    have hdrop : (m₂.drop (b - s.buf.length)).length = m₂.length - (b - s.buf.length) :=
      List.length_drop
    simp only [if_pos hfill]
    set n := count b m + 1
    have hmul : b * n = b * count b m + b := Nat.mul_succ b _
    by_cases hmore : b < (m₂.drop (b - s.buf.length)).length
    · simp only [if_pos hmore]
      -- all of the whole blocks but the last one go straight in
      set k := ((m₂.drop (b - s.buf.length)).length + (b - 1)) / b - 1 with hk
      have hk1 : b * (k + 1) ≤ (m₂.drop (b - s.buf.length)).length + (b - 1) := by
        have hge : 1 ≤ ((m₂.drop (b - s.buf.length)).length + (b - 1)) / b :=
          (Nat.one_le_div_iff hb).mpr (by omega)
        rw [hk, Nat.sub_add_cancel hge]
        exact Nat.mul_div_le _ _
      have hk2 : (m₂.drop (b - s.buf.length)).length ≤ b * (k + 1) := by
        have hlt := Nat.lt_mul_div_succ ((m₂.drop (b - s.buf.length)).length + (b - 1)) hb
        have hge : 1 ≤ ((m₂.drop (b - s.buf.length)).length + (b - 1)) / b :=
          (Nat.one_le_div_iff hb).mpr (by omega)
        rw [Nat.mul_succ] at hlt
        rw [hk, Nat.sub_add_cancel hge]
        omega
      rw [Nat.mul_succ] at hk1 hk2
      refine .of_blocks (n := n + k) ?_ ?_ ?_ ?_
      · rw [firsts_add, List.foldl_append, ← hacc, ← hrest]
      · rw [List.nil_append, rest, Nat.mul_add, ← List.drop_drop, ← hrest]
      · rw [List.length_append, Nat.mul_add]
        omega
      · rw [List.length_append, Nat.mul_add]
        omega
    · simp only [if_neg hmore]
      refine .of_blocks (n := n) hacc ?_ ?_ ?_
      · rw [List.nil_append, rest, hrest]
      · rw [List.length_append]
        omega
      · rw [List.length_append]
        omega
  · have hshort : ¬ b < m₂.length := by omega
    simp only [if_neg hfill, if_neg hshort]
    refine .of_blocks (n := count b m) ?_ ?_ ?_ ?_
    · rw [firsts_append hle, h.acc]
    · rw [rest, List.drop_append_of_le_length hle, ← rest, ← h.buf]
    · rw [List.length_append]
      omega
    · rw [List.length_append]
      omega

/-- The pieces of a stream come to the same as the stream. -/
theorem Absorbed.updates (hb : 0 < b) : ∀ (ms : List (List α)) {m : List α} {s : Absorber α σ},
    Absorbed b f init m s → Absorbed b f init (m ++ ms.flatten) (ms.foldl (Blocks.update b f) s)
  | [], m, s, h => by simpa using h
  | m₂ :: ms, m, s, h => by
    rw [List.foldl_cons, List.flatten_cons, ← List.append_assoc]
    exact Absorbed.updates hb ms (h.update hb m₂)

end Blocks
