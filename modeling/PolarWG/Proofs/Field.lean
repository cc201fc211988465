import PolarWG.Curve25519
import PolarWG.Lib.Montgomery

/-!
# The field

What the operations on limbs compute modulo `2 ^ 255 - 19`. Products and what comes out of bytes
are tight; sums and differences of tight limbs are loose, which is what products take.
-/

namespace PolarWG

def p25519 : ℕ := 2 ^ 255 - 19

abbrev Fp := ZMod p25519

namespace Fe

def val (f : Fe) : ℕ :=
  f.l0 + 2 ^ 51 * f.l1 + 2 ^ 102 * f.l2 + 2 ^ 153 * f.l3 + 2 ^ 204 * f.l4

def elem (f : Fe) : Fp := (f.val : Fp)

structure Tight (f : Fe) : Prop where
  l0 : f.l0 < 2 ^ 51
  l1 : f.l1 < 2 ^ 51 + 2 ^ 13
  l2 : f.l2 < 2 ^ 51
  l3 : f.l3 < 2 ^ 51
  l4 : f.l4 < 2 ^ 51

structure Loose (f : Fe) : Prop where
  l0 : f.l0 ≤ 2 ^ 53
  l1 : f.l1 ≤ 2 ^ 53
  l2 : f.l2 ≤ 2 ^ 53
  l3 : f.l3 ≤ 2 ^ 53
  l4 : f.l4 ≤ 2 ^ 53

theorem Tight.loose {f : Fe} (h : f.Tight) : f.Loose := by
  obtain ⟨h0, h1, h2, h3, h4⟩ := h
  exact ⟨by omega, by omega, by omega, by omega, by omega⟩

end Fe

variable {f g h : Fe}

theorem cast_eq_of_add_mul {a b k : ℕ} (h : a + p25519 * k = b) : (a : Fp) = b := by
  have := congrArg (Nat.cast (R := Fp)) h
  rwa [Nat.cast_add, Nat.cast_mul, ZMod.natCast_self, zero_mul, add_zero] at this

theorem and_mask51 (x : ℕ) : x &&& mask51 = x % 2 ^ 51 := Nat.and_two_pow_sub_one_eq_mod x 51

/-! ## Sums and differences -/

theorem feAdd_spec (hf : f.Tight) (hg : g.Tight) :
    (feAdd f g).Returns fun h => h.Loose ∧ h.elem = f.elem + g.elem := by
  obtain ⟨f0, f1, f2, f3, f4⟩ := hf
  obtain ⟨g0, g1, g2, g3, g4⟩ := hg
  unfold feAdd
  rw [wordAdd_eq (by omega), wordAdd_eq (by omega), wordAdd_eq (by omega), wordAdd_eq (by omega),
    wordAdd_eq (by omega)]
  simp only [Traced.pure_bind]
  refine .pure ⟨⟨?_, ?_, ?_, ?_, ?_⟩, ?_⟩ <;> try (simp only []; omega)
  unfold Fe.elem
  rw [← Nat.cast_add]
  congr 1
  simp only [Fe.val]
  ring

theorem limbSub_eq {x bias y : ℕ} (hb : x + bias < 2 ^ 64) (hy : y ≤ bias) :
    limbSub x bias y = pure (x + bias - y) := by
  unfold limbSub
  rw [wordAdd_eq hb, Traced.pure_bind, wordSub_eq (by omega) hb]

/-- The bias is twice the modulus, limb by limb no less than tight limbs. -/
theorem feSub_spec (hf : f.Tight) (hg : g.Tight) :
    (feSub f g).Returns fun h => h.Loose ∧ h.elem = f.elem - g.elem := by
  obtain ⟨f0, f1, f2, f3, f4⟩ := hf
  obtain ⟨g0, g1, g2, g3, g4⟩ := hg
  unfold feSub
  rw [limbSub_eq (by omega) (by omega), limbSub_eq (by omega) (by omega),
    limbSub_eq (by omega) (by omega), limbSub_eq (by omega) (by omega),
    limbSub_eq (by omega) (by omega)]
  simp only [Traced.pure_bind]
  refine .pure ⟨⟨?_, ?_, ?_, ?_, ?_⟩, ?_⟩ <;> try (simp only []; omega)
  unfold Fe.elem
  rw [eq_sub_iff_add_eq, ← Nat.cast_add]
  refine (cast_eq_of_add_mul (k := 2) ?_).symm
  simp only [Fe.val, p25519]
  omega

/-! ## Products -/

theorem limbDot_eq {A g0 g1 g2 g3 g4 : ℕ} (h0 : f.l0 * g0 ≤ A) (h1 : f.l1 * g1 ≤ A)
    (h2 : f.l2 * g2 ≤ A) (h3 : f.l3 * g3 ≤ A) (h4 : f.l4 * g4 ≤ A) (hA : 5 * A < 2 ^ 128) :
    limbDot f g0 g1 g2 g3 g4
      = pure (f.l0 * g0 + f.l1 * g1 + f.l2 * g2 + f.l3 * g3 + f.l4 * g4) := by
  unfold limbDot
  rw [wordMul_eq (by omega), wordMul_eq (by omega), wordMul_eq (by omega), wordMul_eq (by omega),
    wordMul_eq (by omega)]
  simp only [Traced.pure_bind]
  rw [wordAdd_eq (by omega), Traced.pure_bind, wordAdd_eq (by omega), Traced.pure_bind,
    wordAdd_eq (by omega), Traced.pure_bind, wordAdd_eq (by omega)]

theorem feCarry_spec {t0 t1 t2 t3 t4 : ℕ} (h0 : t0 < 2 ^ 113) (h1 : t1 < 2 ^ 113)
    (h2 : t2 < 2 ^ 113) (h3 : t3 < 2 ^ 113) (h4 : t4 < 2 ^ 109) :
    (feCarry t0 t1 t2 t3 t4).Returns fun h => h.Tight
      ∧ h.elem = (t0 + 2 ^ 51 * t1 + 2 ^ 102 * t2 + 2 ^ 153 * t3 + 2 ^ 204 * t4 : ℕ) := by
  have hlow : ∀ x, x % 2 ^ 64 % 2 ^ 51 = x % 2 ^ 51 := fun x =>
    Nat.mod_mod_of_dvd x (Nat.pow_dvd_pow 2 (by decide))
  unfold feCarry
  simp only [Nat.shiftRight_eq_div_pow, and_mask51, hlow]
  obtain ⟨c0, hc0⟩ : ∃ c, t0 / 2 ^ 51 = c := ⟨_, rfl⟩
  rw [hc0, wordCast_eq (by omega), Traced.pure_bind, wordAdd_eq (by omega), Traced.pure_bind]
  obtain ⟨c1, hc1⟩ : ∃ c, (t1 + c0) / 2 ^ 51 = c := ⟨_, rfl⟩
  rw [hc1, wordCast_eq (by omega), Traced.pure_bind, wordAdd_eq (by omega), Traced.pure_bind]
  obtain ⟨c2, hc2⟩ : ∃ c, (t2 + c1) / 2 ^ 51 = c := ⟨_, rfl⟩
  rw [hc2, wordCast_eq (by omega), Traced.pure_bind, wordAdd_eq (by omega), Traced.pure_bind]
  obtain ⟨c3, hc3⟩ : ∃ c, (t3 + c2) / 2 ^ 51 = c := ⟨_, rfl⟩
  rw [hc3, wordCast_eq (by omega), Traced.pure_bind, wordAdd_eq (by omega), Traced.pure_bind]
  obtain ⟨c4, hc4⟩ : ∃ c, (t4 + c3) / 2 ^ 51 = c := ⟨_, rfl⟩
  rw [hc4, wordCast_eq (by omega), Traced.pure_bind, wordMul_eq (by omega), Traced.pure_bind,
    wordAdd_eq (by omega), Traced.pure_bind]
  obtain ⟨c5, hc5⟩ : ∃ c, (t0 % 2 ^ 51 + c4 * 19) / 2 ^ 51 = c := ⟨_, rfl⟩
  rw [hc5, wordAdd_eq (by omega), Traced.pure_bind]
  refine .pure ⟨⟨?_, ?_, ?_, ?_, ?_⟩, cast_eq_of_add_mul (k := c4) ?_⟩ <;>
    simp only [Fe.val, p25519] <;> omega

theorem feMul_spec (hf : f.Loose) (hg : g.Loose) :
    (feMul f g).Returns fun h => h.Tight ∧ h.elem = f.elem * g.elem := by
  obtain ⟨f0, f1, f2, f3, f4⟩ := hf
  obtain ⟨g0, g1, g2, g3, g4⟩ := hg
  have hlow : ∀ {x y : ℕ}, x ≤ 2 ^ 53 → y ≤ 2 ^ 53 → x * y ≤ 2 ^ 106 := fun hx hy =>
    (Nat.mul_le_mul hx hy).trans (by norm_num)
  have hhigh : ∀ {x y : ℕ}, x ≤ 2 ^ 53 → y ≤ 2 ^ 53 → x * (y * 19) ≤ 19 * 2 ^ 106 := fun hx hy =>
    (Nat.mul_le_mul hx (Nat.mul_le_mul_right 19 hy)).trans (by norm_num)
  have hany : ∀ {x y : ℕ}, x ≤ 2 ^ 53 → y ≤ 2 ^ 53 → x * y ≤ 19 * 2 ^ 106 := fun hx hy =>
    (hlow hx hy).trans (by norm_num)
  unfold feMul
  rw [wordMul_eq (by omega), wordMul_eq (by omega), wordMul_eq (by omega), wordMul_eq (by omega)]
  simp only [Traced.pure_bind]
  rw [limbDot_eq (hany f0 g0) (hhigh f1 g4) (hhigh f2 g3) (hhigh f3 g2) (hhigh f4 g1) (by norm_num),
    limbDot_eq (hany f0 g1) (hany f1 g0) (hhigh f2 g4) (hhigh f3 g3) (hhigh f4 g2) (by norm_num),
    limbDot_eq (hany f0 g2) (hany f1 g1) (hany f2 g0) (hhigh f3 g4) (hhigh f4 g3) (by norm_num),
    limbDot_eq (hany f0 g3) (hany f1 g2) (hany f2 g1) (hany f3 g0) (hhigh f4 g4) (by norm_num),
    limbDot_eq (hlow f0 g4) (hlow f1 g3) (hlow f2 g2) (hlow f3 g1) (hlow f4 g0) (by norm_num)]
  simp only [Traced.pure_bind]
  refine (feCarry_spec ?_ ?_ ?_ ?_ ?_).mono fun h hh => ⟨hh.1, ?_⟩
  · have := hany f0 g0; have := hhigh f1 g4; have := hhigh f2 g3; have := hhigh f3 g2
    have := hhigh f4 g1; omega
  · have := hany f0 g1; have := hany f1 g0; have := hhigh f2 g4; have := hhigh f3 g3
    have := hhigh f4 g2; omega
  · have := hany f0 g2; have := hany f1 g1; have := hany f2 g0; have := hhigh f3 g4
    have := hhigh f4 g3; omega
  · have := hany f0 g3; have := hany f1 g2; have := hany f2 g1; have := hany f3 g0
    have := hhigh f4 g4; omega
  · have := hlow f0 g4; have := hlow f1 g3; have := hlow f2 g2; have := hlow f3 g1
    have := hlow f4 g0; omega
  · rw [hh.2, Fe.elem, Fe.elem, ← Nat.cast_mul]
    refine cast_eq_of_add_mul (k := f.l1 * g.l4 + f.l2 * g.l3 + f.l3 * g.l2 + f.l4 * g.l1
      + 2 ^ 51 * (f.l2 * g.l4 + f.l3 * g.l3 + f.l4 * g.l2)
      + 2 ^ 102 * (f.l3 * g.l4 + f.l4 * g.l3) + 2 ^ 153 * (f.l4 * g.l4)) ?_
    simp only [Fe.val, p25519]
    ring

theorem feSq_spec (hf : f.Loose) :
    (feSq f).Returns fun h => h.Tight ∧ h.elem = f.elem ^ 2 :=
  (feMul_spec hf hf).mono fun _ h => ⟨h.1, h.2.trans (sq _).symm⟩

theorem feMul121666_spec (hf : f.Loose) :
    (feMul121666 f).Returns fun h => h.Tight ∧ h.elem = 121665 * f.elem := by
  obtain ⟨f0, f1, f2, f3, f4⟩ := hf
  unfold feMul121666
  rw [wordMul_eq (by omega), wordMul_eq (by omega), wordMul_eq (by omega), wordMul_eq (by omega),
    wordMul_eq (by omega)]
  simp only [Traced.pure_bind]
  refine (feCarry_spec (by omega) (by omega) (by omega) (by omega) (by omega)).mono
    fun h hh => ⟨hh.1, hh.2.trans ?_⟩
  rw [Fe.elem, show (121665 : Fp) = (121665 : ℕ) from Nat.cast_ofNat.symm, ← Nat.cast_mul]
  congr 1
  simp only [Fe.val]
  ring

/-! ## The inverse -/

theorem feSqn_spec : ∀ (n : ℕ) {f : Fe}, f.Tight →
    (feSqn n f).Returns fun h => h.Tight ∧ h.elem = f.elem ^ 2 ^ n
  | 0, f, hf => .pure ⟨hf, by rw [pow_zero, pow_one]⟩
  | n + 1, f, hf => by
    refine (feSq_spec hf.loose).bind fun h hh => (feSqn_spec n hh.1).mono fun k hk => ⟨hk.1, ?_⟩
    rw [hk.2, hh.2, ← pow_mul, Nat.pow_succ']

/-- Tight limbs of a power. -/
def Fe.Power (z : Fp) (n : ℕ) (f : Fe) : Prop := f.Tight ∧ f.elem = z ^ n

section Powers

variable {z : Fp} {m n : ℕ}

theorem feMul_power (hf : f.Power z m) (hg : g.Power z n) :
    (feMul f g).Returns (Fe.Power z (m + n)) :=
  (feMul_spec hf.1.loose hg.1.loose).mono fun h hh =>
    ⟨hh.1, by rw [hh.2, hf.2, hg.2, pow_add]⟩

theorem feSq_power (hf : f.Power z n) : (feSq f).Returns (Fe.Power z (2 * n)) :=
  (feSq_spec hf.1.loose).mono fun h hh => ⟨hh.1, by rw [hh.2, hf.2, ← pow_mul, Nat.mul_comm]⟩

theorem feSqn_power (k : ℕ) (hf : f.Power z n) : (feSqn k f).Returns (Fe.Power z (n * 2 ^ k)) :=
  (feSqn_spec k hf.1).mono fun h hh => ⟨hh.1, by rw [hh.2, hf.2, ← pow_mul]⟩

end Powers

theorem feInvert_spec (hf : f.Tight) :
    (feInvert f).Returns (Fe.Power f.elem (p25519 - 2)) := by
  have hz : f.Power f.elem 1 := ⟨hf, (pow_one _).symm⟩
  unfold feInvert
  refine (feSq_power hz).bind fun a2 h2 => ?_
  refine (feSq_power h2).bind fun a4 h4 => ?_
  refine (feSq_power h4).bind fun a8 h8 => ?_
  refine (feMul_power hz h8).bind fun a9 h9 => ?_
  refine (feMul_power h2 h9).bind fun a11 h11 => ?_
  refine (feSq_power h11).bind fun a22 h22 => ?_
  refine (feMul_power h9 h22).bind fun b5 h5 => ?_
  refine (feSq_power h5).bind fun _ h => ?_
  refine (feSqn_power 4 h).bind fun _ h => ?_
  refine (feMul_power h h5).bind fun b10 h10 => ?_
  refine (feSq_power h10).bind fun _ h => ?_
  refine (feSqn_power 9 h).bind fun _ h => ?_
  refine (feMul_power h h10).bind fun b20 h20 => ?_
  refine (feSq_power h20).bind fun _ h => ?_
  refine (feSqn_power 19 h).bind fun _ h => ?_
  refine (feMul_power h h20).bind fun b40 h40 => ?_
  refine (feSq_power h40).bind fun _ h => ?_
  refine (feSqn_power 9 h).bind fun _ h => ?_
  refine (feMul_power h h10).bind fun b50 h50 => ?_
  refine (feSq_power h50).bind fun _ h => ?_
  refine (feSqn_power 49 h).bind fun _ h => ?_
  refine (feMul_power h h50).bind fun b100 h100 => ?_
  refine (feSq_power h100).bind fun _ h => ?_
  refine (feSqn_power 99 h).bind fun _ h => ?_
  refine (feMul_power h h100).bind fun b200 h200 => ?_
  refine (feSq_power h200).bind fun _ h => ?_
  refine (feSqn_power 49 h).bind fun _ h => ?_
  refine (feMul_power h h50).bind fun b250 h250 => ?_
  refine (feSq_power h250).bind fun _ h => ?_
  refine (feSqn_power 4 h).bind fun _ h => ?_
  refine (feMul_power h h11).mono fun _ h => ⟨h.1, h.2.trans (congrArg _ ?_)⟩
  norm_num [p25519]

end PolarWG
