import Mathlib

/-!
# Sliding windows

Positive numbers are taken at most once, in any order, each unless it is further behind the
greatest one taken than the window is wide. The numbers taken are remembered in a ring of `n`
blocks of `b` bits, in which the blocks that the greatest number moves over are cleared.
-/

namespace SlidingWindow

/-! ## Taking numbers -/

/-- Whether `c` is still to be taken where these are. -/
def Fits (width : ℕ) (seen : List ℕ) (c : ℕ) : Prop := c ∉ seen ∧ ∀ a ∈ seen, a ≤ c + width

instance (width : ℕ) (seen : List ℕ) (c : ℕ) : Decidable (Fits width seen c) :=
  inferInstanceAs (Decidable (_ ∧ _))

/-- What is taken of the numbers offered, the last one first. -/
def taken (fits : List ℕ → ℕ → Bool) : List ℕ → List ℕ → List ℕ
  | seen, [] => seen
  | seen, c :: cs => taken fits (if fits seen c then c :: seen else seen) cs

theorem taken_nodup {fits : List ℕ → ℕ → Bool} (hfits : ∀ seen c, fits seen c → c ∉ seen) :
    ∀ {cs seen : List ℕ}, seen.Nodup → (taken fits seen cs).Nodup
  | [], _, h => h
  | c :: cs, seen, h => by
    rw [taken]
    split
    · next hc => exact taken_nodup hfits (List.nodup_cons.mpr ⟨hfits seen c hc, h⟩)
    · exact taken_nodup hfits h

/-! ## The ring -/

/-- The greatest number taken, and the bits of each block. -/
structure Ring where
  last : ℕ
  bit : ℕ → ℕ → Prop

variable (b n : ℕ)

/-- The number's block has not been given to another one. -/
def Ring.Live (r : Ring) (c : ℕ) : Prop := c / b ≤ r.last / b ∧ r.last / b < c / b + n

/-- The bit of a number. -/
def Ring.at (r : Ring) (c : ℕ) : Prop := r.bit (c / b % n) (c % b)

/-- The block is one of `top` after the greatest number's. -/
def Ring.Passed (r : Ring) (top j : ℕ) : Prop := ∃ i, 1 ≤ i ∧ i ≤ top ∧ (i + r.last / b) % n = j

/-- The greatest number is now `c`, which `top` blocks are cleared for. -/
def Ring.advance (r : Ring) (top c : ℕ) : Ring where
  last := c
  bit j k := r.bit j k ∧ ¬ r.Passed b n top j

def Ring.mark (r : Ring) (c : ℕ) : Ring where
  last := r.last
  bit j k := r.bit j k ∨ (j = c / b % n ∧ k = c % b)

/-- The numbers taken have their bits as long as they are live. -/
structure Covers (r : Ring) (seen : List ℕ) : Prop where
  le : ∀ a ∈ seen, a ≤ r.last
  marked : ∀ a ∈ seen, r.Live b n a → r.at b n a

/-- No other live number has one. -/
def Exact (r : Ring) (seen : List ℕ) : Prop := ∀ a, r.Live b n a → r.at b n a → a ∈ seen

variable {b n} {r : Ring} {seen : List ℕ} {c top : ℕ}

/-- Of `n` blocks that follow one another no two have the same remainder. -/
theorem eq_of_mod {x y z : ℕ} (hx : x ≤ z) (hxz : z < x + n) (hy : y ≤ z) (hyz : z < y + n)
    (h : x % n = y % n) : x = y := by
  rcases Nat.le_total x y with hle | hle
  · have hd : (y - x) % n = 0 := Nat.sub_mod_eq_zero_of_mod_eq h.symm
    rw [Nat.mod_eq_of_lt (by omega)] at hd
    omega
  · have hd : (x - y) % n = 0 := Nat.sub_mod_eq_zero_of_mod_eq h
    rw [Nat.mod_eq_of_lt (by omega)] at hd
    omega

/-- The bits of live numbers are their own. -/
theorem Ring.Live.eq {x : ℕ} (hc : r.Live b n c) (hx : r.Live b n x) (hj : x / b % n = c / b % n)
    (hk : x % b = c % b) : x = c := by
  have hdiv : x / b = c / b := eq_of_mod hx.1 hx.2 hc.1 hc.2 hj
  rw [← Nat.div_add_mod x b, ← Nat.div_add_mod c b, hdiv, hk]

theorem Ring.live_of_window (hb : 0 < b) (hn : 0 < n) (hle : c ≤ r.last)
    (h : r.last ≤ c + (n - 1) * b) : r.Live b n c := by
  refine ⟨Nat.div_le_div_right hle, ?_⟩
  have hdiv : r.last / b ≤ c / b + (n - 1) := by
    calc r.last / b ≤ (c + (n - 1) * b) / b := Nat.div_le_div_right h
      _ = c / b + (n - 1) := Nat.add_mul_div_right c (n - 1) hb
  omega

/-- A block that stays live is not cleared, however few blocks are. -/
theorem Ring.not_passed {a : ℕ} (htop : top ≤ c / b - r.last / b) (ha : a / b ≤ r.last / b)
    (hlive : c / b < a / b + n) : ¬ r.Passed b n top (a / b % n) := by
  rintro ⟨i, hi, hit, h⟩
  have hle : i + r.last / b ≤ c / b := by omega
  have hlt : c / b < i + r.last / b + n := by omega
  have heq := eq_of_mod hle hlt (by omega) hlive h
  omega

theorem Covers.advance (h : Covers b n r seen) (hc : r.last < c)
    (htop : top ≤ c / b - r.last / b) : Covers b n (r.advance b n top c) seen where
  le a ha := (h.le a ha).trans hc.le
  marked a ha hlive := by
    have hle : a / b ≤ r.last / b := Nat.div_le_div_right (h.le a ha)
    have hlast : r.last / b ≤ c / b := Nat.div_le_div_right hc.le
    exact ⟨h.marked a ha ⟨hle, hlast.trans_lt hlive.2⟩, Ring.not_passed htop hle hlive.2⟩

/-- With all of the blocks cleared that the greatest number moves over, no bit is left in them. -/
theorem Exact.advance (h : Exact b n r seen) (hn : 0 < n) (hc : r.last < c)
    (htop : top = min (c / b - r.last / b) n) : Exact b n (r.advance b n top c) seen := by
  rintro a hlive ⟨hbit, hpass⟩
  have hlast : r.last / b ≤ c / b := Nat.div_le_div_right hc.le
  refine h a ⟨?_, hlast.trans_lt hlive.2⟩ hbit
  by_contra hgt
  have h1 : a / b ≤ c / b := hlive.1
  -- a block after the old one is cleared, at once or as one of all `n`
  apply hpass
  by_cases hfar : c / b - r.last / b ≤ n
  · exact ⟨a / b - r.last / b, by omega, by omega, by rw [Nat.sub_add_cancel (by omega)]⟩
  · have hlt := Nat.mod_lt (a / b - r.last / b - 1) hn
    refine ⟨(a / b - r.last / b - 1) % n + 1, by omega, by omega, ?_⟩
    have hsum : (a / b - r.last / b - 1) + (1 + r.last / b) = a / b := by omega
    rw [Nat.add_assoc, Nat.mod_add_mod, hsum]

theorem Covers.mark (h : Covers b n r seen) (hc : c ≤ r.last) :
    Covers b n (r.mark b n c) (c :: seen) where
  le a ha := by
    rcases List.mem_cons.mp ha with rfl | ha
    · exact hc
    · exact h.le a ha
  marked a ha hlive := by
    rcases List.mem_cons.mp ha with rfl | ha
    · exact .inr ⟨rfl, rfl⟩
    · exact .inl (h.marked a ha hlive)

theorem Exact.mark (h : Exact b n r seen) (hc : r.Live b n c) :
    Exact b n (r.mark b n c) (c :: seen) := by
  rintro a hlive (hbit | ⟨hj, hk⟩)
  · exact List.mem_cons_of_mem c (h a hlive hbit)
  · exact List.mem_cons.mpr (.inl (Ring.Live.eq hc hlive hj hk))

end SlidingWindow
