import PolarWG.U128

/-!
# Two words carry like one

The accumulator of two words stands for the number it holds, modulo `2 ^ 128`: no carry is lost
between its words. So the multiplications written over it are those written over 128 bits, whatever
the limbs.
-/

namespace PolarWG

def U128.val (t : U128) : ℕ := t.lo.toNat + 2 ^ 64 * t.hi.toNat

def FeWords.fe (f : FeWords) : Fe :=
  ⟨f.l0.toNat, f.l1.toNat, f.l2.toNat, f.l3.toNat, f.l4.toNat⟩

/-! ## The accumulator -/

theorem addcarryU64_eq (carry : Bool) (a b : UInt64) :
    (addcarryU64 carry a b).2.toNat + 2 ^ 64 * (addcarryU64 carry a b).1.toNat
      = carry.toNat + a.toNat + b.toNat := by
  have ha := a.toNat_lt
  have hb := b.toNat_lt
  simp only [addcarryU64, UInt64.toNat_add, UInt64.toNat_ofNat']
  by_cases h : 2 ^ 64 ≤ carry.toNat + a.toNat + b.toNat
  · rw [decide_eq_true h, Bool.toNat_true]
    have := carry.toNat_le
    omega
  · rw [decide_eq_false h, Bool.toNat_false]
    omega

theorem u128Mul64_val (a b : UInt64) : (u128Mul64 a b).val = a.toNat * b.toNat := by
  have hlt : a.toNat * b.toNat / 2 ^ 64 < 2 ^ 64 := by
    rw [Nat.div_lt_iff_lt_mul (by positivity)]
    exact Nat.mul_lt_mul'' a.toNat_lt b.toNat_lt
  simp only [U128.val, u128Mul64, umul128, UInt64.toNat_mul, UInt64.toNat_ofNat',
    Nat.mod_eq_of_lt hlt]
  exact Nat.mod_add_div _ _

theorem u128Add_val (a b : U128) : (u128Add a b).val = (a.val + b.val) % 2 ^ 128 := by
  have hlo := addcarryU64_eq false a.lo b.lo
  have hhi := addcarryU64_eq (addcarryU64 false a.lo b.lo).1 a.hi b.hi
  have h₀ := (addcarryU64 false a.lo b.lo).2.toNat_lt
  have h₁ := (addcarryU64 (addcarryU64 false a.lo b.lo).1 a.hi b.hi).2.toNat_lt
  simp only [U128.val, u128Add, Bool.toNat_false] at hlo hhi ⊢
  omega

theorem u128AddU64_val (a : U128) (b : UInt64) :
    (u128AddU64 a b).val = (a.val + b.toNat) % 2 ^ 128 := by
  have : u128AddU64 a b = u128Add a ⟨b, 0⟩ := rfl
  rw [this, u128Add_val]
  simp [U128.val]

theorem u128Shr51_toNat (a : U128) : (u128Shr51 a).toNat = a.val / 2 ^ 51 % 2 ^ 64 := by
  have hlo := a.lo.toNat_lt
  have hhi := a.hi.toNat_lt
  have hlow : a.lo.toNat / 2 ^ 51 < 2 ^ 13 := by omega
  have hshl : a.hi.toNat * 2 ^ 13 % 2 ^ 64 = 2 ^ 13 * (a.hi.toNat % 2 ^ 51) := by omega
  simp only [u128Shr51, UInt64.toNat_or, UInt64.toNat_shiftRight, UInt64.toNat_shiftLeft,
    Nat.shiftRight_eq_div_pow, Nat.shiftLeft_eq]
  rw [show (51 : UInt64).toNat % 64 = 51 by decide, show (13 : UInt64).toNat % 64 = 13 by decide,
    hshl, Nat.or_comm, ← Nat.two_pow_add_eq_or_of_lt hlow]
  simp only [U128.val]
  omega

theorem lo_toNat (a : U128) : a.lo.toNat = a.val % 2 ^ 64 := by
  have := a.lo.toNat_lt
  simp only [U128.val]
  omega

theorem and_mask51_toNat (x : UInt64) : (x &&& mask51U64).toNat = x.toNat &&& mask51 := by
  rw [UInt64.toNat_and]
  rfl

theorem shr51_toNat (x : UInt64) : (x >>> 51).toNat = x.toNat >>> 51 := by
  rw [UInt64.toNat_shiftRight]
  rfl

/-! ## The multiplications -/

theorem limbDotShim_val (f : FeWords) (g0 g1 g2 g3 g4 : UInt64) :
    (limbDotShim f g0 g1 g2 g3 g4).val
      = (limbDot f.fe g0.toNat g1.toNat g2.toNat g3.toNat g4.toNat).val := by
  simp only [limbDotShim, u128Add_val, u128Mul64_val, limbDot, wordMul, wordAdd, bind, FeWords.fe]
  omega

/-- What is carried and what is kept agree as long as the sums do. -/
theorem feCarryShim_fe {t0 t1 t2 t3 t4 : U128} :
    (feCarryShim t0 t1 t2 t3 t4).fe = (feCarry t0.val t1.val t2.val t3.val t4.val).val := by
  simp only [feCarryShim, feCarry, FeWords.fe, wordCast, wordAdd, wordMul, bind, pure,
    u128AddU64_val, u128Shr51_toNat, lo_toNat, and_mask51_toNat, shr51_toNat, UInt64.toNat_add,
    UInt64.toNat_mul, Nat.shiftRight_eq_div_pow]
  rfl

theorem mul19_toNat (x : UInt64) : (x * 19).toNat = (wordMul 64 x.toNat 19).val := by
  rw [UInt64.toNat_mul]
  rfl

theorem feMulShim_fe (f g : FeWords) : (feMulShim f g).fe = (feMul f.fe g.fe).val := by
  simp only [feMulShim, feCarryShim_fe, limbDotShim_val, mul19_toNat]
  rfl

theorem feMul121666Shim_fe (f : FeWords) : (feMul121666Shim f).fe = (feMul121666 f.fe).val := by
  have hlt : ∀ x : UInt64, x.toNat * 121665 % 2 ^ 128 = x.toNat * 121665 := fun x => by
    have := x.toNat_lt
    omega
  simp only [feMul121666Shim, feCarryShim_fe, u128Mul64_val]
  simp only [feMul121666, wordMul, bind, FeWords.fe, hlt]
  rfl

/-- The accumulator of two words is one of 128 bits, and the field's multiplications over it are
those over 128 bits, whatever words the limbs are. -/
theorem shim_refines :
    ((∀ a b, (u128Mul64 a b).val = (wordMul 128 a.toNat b.toNat).val)
      ∧ (∀ a b, (u128Add a b).val = (wordAdd 128 a.val b.val).val)
      ∧ (∀ a b, (u128AddU64 a b).val = (wordAdd 128 a.val b.toNat).val)
      ∧ (∀ a, (u128Shr51 a).toNat = (wordCast 64 (a.val >>> 51)).val)
      ∧ ∀ a : U128, (a.lo &&& mask51U64).toNat = a.val % 2 ^ 64 &&& mask51)
    ∧ (∀ f g, (feMulShim f g).fe = (feMul f.fe g.fe).val)
    ∧ (∀ f, (feSqShim f).fe = (feSq f.fe).val)
    ∧ ∀ f, (feMul121666Shim f).fe = (feMul121666 f.fe).val := by
  refine ⟨⟨fun a b => ?_, u128Add_val, u128AddU64_val, fun a => ?_, fun a => ?_⟩, feMulShim_fe,
    fun f => feMulShim_fe f f, feMul121666Shim_fe⟩
  · have hlt : a.toNat * b.toNat < 2 ^ 64 * 2 ^ 64 := Nat.mul_lt_mul'' a.toNat_lt b.toNat_lt
    rw [u128Mul64_val]
    exact (Nat.mod_eq_of_lt (by omega)).symm
  · rw [u128Shr51_toNat, ← Nat.shiftRight_eq_div_pow]
    rfl
  · rw [and_mask51_toNat, lo_toNat]

end PolarWG
