import Mathlib

/-!
# Token buckets

A bucket fills by one token in each unit of time, up to `cap`, and every request that it grants
takes `cost` of them. How many it grants in a stretch of time is bounded by the stretch alone.
-/

namespace TokenBucket

structure Bucket where
  last : ℤ
  tokens : ℕ
deriving DecidableEq

variable (cap cost : ℕ)

/-- What is in the bucket at a time. -/
def Bucket.level (b : Bucket) (now : ℤ) : ℕ := min cap (b.tokens + (now - b.last)).toNat

/-- A bucket that nothing has been asked of is full. -/
def level (b : Option Bucket) (now : ℤ) : ℕ := (b.map fun b => b.level cap now).getD cap

/-- A request at a time, and whether it is granted. -/
def ask (b : Option Bucket) (now : ℤ) : Bucket × Bool :=
  if cost ≤ level cap b now then (⟨now, level cap b now - cost⟩, true)
  else (⟨now, level cap b now⟩, false)

/-- The answers to requests at these times. -/
def answers : Option Bucket → List ℤ → List Bool
  | _, [] => []
  | b, now :: nows => (ask cap cost b now).2 :: answers (some (ask cap cost b now).1) nows

/-- The times at which a request is granted. -/
def granted (b : Option Bucket) (nows : List ℤ) : List ℤ :=
  ((nows.zip (answers cap cost b nows)).filter (·.2)).map (·.1)

variable {cap cost} {b : Option Bucket} {now : ℤ} {nows : List ℤ}

theorem level_le (cap : ℕ) (b : Option Bucket) (now : ℤ) : level cap b now ≤ cap := by
  rcases b with _ | b
  · exact le_rfl
  · exact Nat.min_le_left _ _

theorem level_none (cap : ℕ) (now : ℤ) : level cap none now = cap := rfl

theorem level_some (b : Bucket) (now : ℤ) : level cap (some b) now = b.level cap now := rfl

/-- A bucket that is full at a time stays full. -/
theorem level_full {b : Bucket} (h : (cap : ℤ) ≤ b.tokens + (now - b.last)) {later : ℤ}
    (hl : now ≤ later) : level cap (some b) later = cap := by
  rw [level_some, Bucket.level]
  omega

@[simp] theorem granted_nil (b : Option Bucket) : granted cap cost b [] = [] := rfl

theorem granted_cons (b : Option Bucket) (now : ℤ) (nows : List ℤ) :
    granted cap cost b (now :: nows)
      = (if (ask cap cost b now).2 then [now] else [])
        ++ granted cap cost (some (ask cap cost b now).1) nows := by
  simp only [granted, answers, List.zip_cons_cons, List.filter_cons]
  split <;> simp

/-- What a request leaves is what was there, less the cost if it is granted. -/
theorem ask_tokens (cap cost : ℕ) (b : Option Bucket) (now : ℤ) :
    (ask cap cost b now).1.tokens + (if (ask cap cost b now).2 then cost else 0)
      = level cap b now ∧ (ask cap cost b now).1.last = now := by
  unfold ask
  split
  · next h => exact ⟨by simpa using Nat.sub_add_cancel h, rfl⟩
  · exact ⟨by simp, rfl⟩

theorem mem_of_granted : ∀ {nows : List ℤ} {b : Option Bucket} {t : ℤ},
    t ∈ granted cap cost b nows → t ∈ nows
  | [], _, _, h => h
  | now :: nows, b, t, h => by
    rw [granted_cons, List.mem_append] at h
    rcases h with h | h
    · split at h
      · exact List.mem_cons.mpr (.inl (List.mem_singleton.mp h))
      · exact absurd h List.not_mem_nil
    · exact List.mem_cons_of_mem now (mem_of_granted h)

/-- Nothing is granted before the first request. -/
theorem filter_granted {b : Option Bucket} {now stop : ℤ} (hsorted : ∀ t ∈ nows, now ≤ t)
    (h : stop < now) : (granted cap cost b (now :: nows)).filter (· ≤ stop) = [] := by
  refine List.filter_eq_nil_iff.mpr fun t ht => ?_
  rcases List.mem_cons.mp (mem_of_granted ht) with rfl | ht
  · simpa using h
  · have := hsorted t ht
    simpa using h.trans_le this

/-- The first request's share, where it is not too late. -/
theorem filter_granted_cons {b : Option Bucket} {now stop : ℤ} (h : now ≤ stop) :
    (((granted cap cost b (now :: nows)).filter (· ≤ stop)).length : ℤ)
      = (if (ask cap cost b now).2 then 1 else 0)
        + ((granted cap cost (some (ask cap cost b now).1) nows).filter (· ≤ stop)).length := by
  rw [granted_cons, List.filter_append, List.length_append]
  split <;> simp [h]

/-- Up to a time no more is granted than is in the bucket and flows into it. -/
theorem granted_le : ∀ {nows : List ℤ} {b : Bucket}, (∀ t ∈ nows, b.last ≤ t) →
    nows.Pairwise (· ≤ ·) → ∀ stop, b.last ≤ stop →
    ((((granted cap cost (some b) nows).filter (· ≤ stop)).length : ℤ) * cost)
      ≤ b.tokens + (stop - b.last)
  | [], b, _, _, stop, hb => by
    simp only [granted_nil, List.filter_nil, List.length_nil]
    omega
  | now :: nows, b, hlast, hsorted, stop, hb => by
    rw [List.pairwise_cons] at hsorted
    obtain ⟨htokens, hnow⟩ := ask_tokens cap cost (some b) now
    have hlevel : (level cap (some b) now : ℤ) ≤ b.tokens + (now - b.last) := by
      have := hlast now List.mem_cons_self
      rw [level_some, Bucket.level]
      omega
    rcases lt_or_ge stop now with hlate | hin
    · rw [filter_granted hsorted.1 hlate, List.length_nil]
      omega
    · have ih := granted_le (b := (ask cap cost (some b) now).1) (hnow.symm ▸ hsorted.1) hsorted.2
        stop (hnow.symm ▸ hin)
      rw [hnow] at ih
      rw [filter_granted_cons hin, add_mul]
      split at htokens <;> next h => simp only [h, Bool.false_eq_true, ↓reduceIte]; omega

/-- In any stretch of time, from whatever state. -/
theorem granted_window : ∀ {nows : List ℤ} {b : Option Bucket}, nows.Pairwise (· ≤ ·) →
    ∀ start stop : ℤ, start ≤ stop →
    ((((granted cap cost b nows).filter fun t => start ≤ t ∧ t ≤ stop).length : ℤ) * cost)
      ≤ cap + (stop - start)
  | [], b, _, start, stop, hle => by
    simp only [granted_nil, List.filter_nil, List.length_nil]
    omega
  | now :: nows, b, hsorted, start, stop, hle => by
    have hsorted' := List.pairwise_cons.mp hsorted
    obtain ⟨htokens, hnow⟩ := ask_tokens cap cost b now
    rcases lt_or_ge now start with hearly | hin
    · have hout : (if (ask cap cost b now).2 then [now] else []).filter
          (fun t => decide (start ≤ t ∧ t ≤ stop)) = [] := by
        split <;> simp [hearly]
      rw [granted_cons, List.filter_append, hout, List.nil_append]
      exact granted_window hsorted'.2 start stop hle
    -- from the first request of the stretch on, a full bucket at most
    have hmono : ((granted cap cost b (now :: nows)).filter fun t => start ≤ t ∧ t ≤ stop).length
        ≤ ((granted cap cost b (now :: nows)).filter (· ≤ stop)).length :=
      (List.monotone_filter_right _ fun t h => by simp_all).length_le
    have hcap := level_le cap b now
    have hmul : ((((granted cap cost b (now :: nows)).filter fun t => start ≤ t ∧ t ≤ stop).length : ℤ)
        * cost) ≤ (((granted cap cost b (now :: nows)).filter (· ≤ stop)).length : ℤ) * cost :=
      mul_le_mul_of_nonneg_right (by exact_mod_cast hmono) (by positivity)
    refine hmul.trans ?_
    rcases lt_or_ge stop now with hlate | hstop
    · rw [filter_granted hsorted'.1 hlate, List.length_nil]
      omega
    · have htail : ((((granted cap cost (some (ask cap cost b now).1) nows).filter
          (· ≤ stop)).length : ℤ) * cost) ≤ _ :=
        granted_le (hnow.symm ▸ hsorted'.1) hsorted'.2 stop (hnow.symm ▸ hstop)
      rw [hnow] at htail
      rw [filter_granted_cons hstop, add_mul]
      split at htokens <;> next h => simp only [h, Bool.false_eq_true, ↓reduceIte]; omega

end TokenBucket
