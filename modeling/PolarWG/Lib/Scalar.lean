import Mathlib

/-!
# Numbers by their bits

The highest bit first, as square-and-multiply and the ladders of elliptic curves go through them.
-/

namespace Scalar

/-- The number that has these bits. -/
def ofBits (bits : List Bool) : ℕ := bits.foldl (fun n bit => 2 * n + bit.toNat) 0

/-- The `k` low bits. -/
def bits (k n : ℕ) : List Bool := (List.range k).reverse.map n.testBit

theorem bits_succ (k n : ℕ) : bits (k + 1) n = n.testBit k :: bits k n := by
  simp [bits, List.range_succ]

theorem foldl_bits (n : ℕ) : ∀ k m : ℕ,
    (bits k n).foldl (fun n bit => 2 * n + bit.toNat) m = m * 2 ^ k + n % 2 ^ k
  | 0, m => by simp [bits, Nat.mod_one]
  | k + 1, m => by
    rw [bits_succ, List.foldl_cons, foldl_bits n k, Nat.toNat_testBit, Nat.mod_pow_succ]
    ring

theorem ofBits_bits (k n : ℕ) : ofBits (bits k n) = n % 2 ^ k := by
  rw [ofBits, foldl_bits, zero_mul, zero_add]

/-- A power modulo `m`, by squaring and multiplying. -/
def powMod (m a : ℕ) (bits : List Bool) : ℕ :=
  bits.foldl (fun r bit => if bit then r * r * a % m else r * r % m) (1 % m)

theorem powMod_eq (m a : ℕ) (bits : List Bool) : powMod m a bits = a ^ ofBits bits % m := by
  have hfold : ∀ (bits : List Bool) (n : ℕ),
      bits.foldl (fun r bit => if bit then r * r * a % m else r * r % m) (a ^ n % m)
        = a ^ bits.foldl (fun n bit => 2 * n + bit.toNat) n % m := by
    intro bits
    induction bits with
    | nil => exact fun _ => rfl
    | cons bit bits ih =>
      intro n
      rw [List.foldl_cons, List.foldl_cons, ← ih]
      congr 1
      have hsq : a ^ n % m * (a ^ n % m) ≡ a ^ (2 * n) [MOD m] := by
        rw [two_mul, pow_add]
        exact (Nat.mod_modEq _ _).mul (Nat.mod_modEq _ _)
      cases bit
      · exact hsq
      · rw [if_pos rfl, Bool.toNat_true, pow_succ]
        exact hsq.mul_right a
  exact hfold bits 0

end Scalar
