import PolarWG.Prims

/-!
# Bytes and numbers

Numbers low byte first, in parts.
-/

namespace PolarWG

theorem leDec_append : ∀ bs cs : Bytes, leDec (bs ++ cs) = leDec bs + 256 ^ bs.length * leDec cs
  | [], cs => by simp [leDec]
  | b :: bs, cs => by
    rw [List.cons_append, leDec, leDec, leDec_append bs, List.length_cons]
    ring

theorem leDec_lt : ∀ bs : Bytes, leDec bs < 256 ^ bs.length
  | [] => by simp [leDec]
  | b :: bs => by
    have hb := b.toNat_lt
    have ih := leDec_lt bs
    rw [leDec, List.length_cons, pow_succ]
    omega

theorem leDec_zeros : ∀ n : ℕ, leDec (zeros n) = 0
  | 0 => rfl
  | n + 1 => by
    show (0 : UInt8).toNat + 256 * leDec (zeros n) = 0
    rw [leDec_zeros n]
    rfl

theorem leEnc_append : ∀ j k n : ℕ, leEnc (j + k) n = leEnc j n ++ leEnc k (n / 256 ^ j)
  | 0, k, n => by simp [leEnc]
  | j + 1, k, n => by
    rw [Nat.succ_add, leEnc, leEnc, leEnc_append j k, Nat.div_div_eq_div_mul, pow_succ',
      List.cons_append]

theorem leEnc_mod : ∀ k n : ℕ, leEnc k (n % 256 ^ k) = leEnc k n
  | 0, _ => rfl
  | k + 1, n => by
    have hlow : n % 256 ^ (k + 1) % 256 = n % 256 :=
      Nat.mod_mod_of_dvd n (Dvd.intro_left (256 ^ k) rfl)
    have hhigh : n % 256 ^ (k + 1) / 256 = n / 256 % 256 ^ k := by
      rw [pow_succ', Nat.mod_mul_right_div_self]
    rw [leEnc, leEnc, hhigh, leEnc_mod k]
    congr 1
    exact UInt8.toNat_inj.mp (by simp)

theorem length_slice_le (off n : ℕ) (m : Bytes) : (slice off n m).length ≤ n := by
  rw [slice, List.length_take]
  exact Nat.min_le_left _ _

theorem slice_append (off n : ℕ) (m : Bytes) (k : ℕ) :
    slice off (n + k) m = slice off n m ++ slice (off + n) k m := by
  rw [slice, slice, slice, List.take_add, List.drop_drop]

/-- What is past the end counts as zeros. -/
theorem leDec_slice_add (off n k : ℕ) (m : Bytes) :
    leDec (slice off (n + k) m) = leDec (slice off n m) + 256 ^ n * leDec (slice (off + n) k m) := by
  rw [slice_append, leDec_append]
  by_cases h : off + n ≤ m.length
  · have hlen : (slice off n m).length = n := by
      rw [slice, List.length_take, List.length_drop]
      omega
    rw [hlen]
  · have hnil : slice (off + n) k m = [] := by
      rw [slice, List.drop_eq_nil_of_le (by omega), List.take_nil]
    rw [hnil]
    simp [leDec]

end PolarWG
