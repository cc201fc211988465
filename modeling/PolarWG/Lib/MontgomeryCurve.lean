import PolarWG.Lib.Montgomery
import PolarWG.Lib.Scalar

/-!
# Montgomery curves

The curve `y² = x³ + A x² + x` over a field in which 2 is not 0, and the ladder on it: the two points of
a ladder are consecutive multiples of the point that it starts with, in projective x-coordinates. Where
the x-coordinate of the point at infinity is taken to be 0 the ladder multiplies every point.
-/

namespace Montgomery

open PolarWG
open WeierstrassCurve.Affine (Point)

variable {K : Type*} [Field K]

/-- `W` is `y² = x³ + A x² + x` and has no singular point, and `a24` is its ladder's constant. -/
structure IsMontgomery (W : WeierstrassCurve.Affine K) (A a24 : K) : Prop where
  a₁ : W.a₁ = 0
  a₂ : W.a₂ = A
  a₃ : W.a₃ = 0
  a₄ : W.a₄ = 1
  a₆ : W.a₆ = 0
  two : (2 : K) ≠ 0
  smooth : A ^ 2 ≠ 4
  const : 4 * a24 + 2 = A

variable {W : WeierstrassCurve.Affine K} {A a24 x y : K}

theorem IsMontgomery.equation_iff (hW : IsMontgomery W A a24) :
    W.Equation x y ↔ y ^ 2 = x ^ 3 + A * x ^ 2 + x := by
  rw [WeierstrassCurve.Affine.equation_iff, hW.a₁, hW.a₂, hW.a₃, hW.a₄, hW.a₆]
  constructor <;> intro h <;> linear_combination h

theorem IsMontgomery.four (hW : IsMontgomery W A a24) : (4 : K) ≠ 0 := by
  rw [show (4 : K) = 2 * 2 by norm_num]
  exact mul_ne_zero hW.two hW.two

theorem IsMontgomery.nonsingular (hW : IsMontgomery W A a24) (h : y ^ 2 = x ^ 3 + A * x ^ 2 + x) :
    W.Nonsingular x y := by
  have hΔ : W.Δ = 4 * (4 * (A ^ 2 - 4)) := by
    rw [WeierstrassCurve.Δ, WeierstrassCurve.b₂, WeierstrassCurve.b₄, WeierstrassCurve.b₆,
      WeierstrassCurve.b₈, hW.a₁, hW.a₂, hW.a₃, hW.a₄, hW.a₆]
    ring
  refine (WeierstrassCurve.Affine.equation_iff_nonsingular_of_Δ_ne_zero ?_).mp (hW.equation_iff.mpr h)
  rw [hΔ]
  exact mul_ne_zero hW.four (mul_ne_zero hW.four (sub_ne_zero.mpr hW.smooth))

theorem IsMontgomery.negY (hW : IsMontgomery W A a24) (x y : K) : W.negY x y = -y := by
  rw [WeierstrassCurve.Affine.negY, hW.a₁, hW.a₃]
  ring

theorem IsMontgomery.addX (hW : IsMontgomery W A a24) (x₁ x₂ ℓ : K) :
    W.addX x₁ x₂ ℓ = ℓ ^ 2 - A - x₁ - x₂ := by
  rw [WeierstrassCurve.Affine.addX, hW.a₁, hW.a₂]
  ring

/-! ## Coordinates -/

/-- The x-coordinate, 0 at infinity. -/
def xCoord : W.Point → K
  | .zero => 0
  | .some x _ _ => x

/-- `R` is the x-coordinate of `P`, in projective coordinates. -/
def Rep : W.Point → K × K → Prop
  | .zero, R => R.1 ≠ 0 ∧ R.2 = 0
  | .some x _ _, R => R.2 ≠ 0 ∧ R.1 = x * R.2

theorem Rep.div {P : W.Point} {R : K × K} (h : Rep P R) : R.1 / R.2 = xCoord P := by
  rcases P with _ | ⟨x, y, hP⟩
  · rw [h.2, div_zero]
    rfl
  · rw [h.2, mul_div_cancel_right₀ x h.1]
    rfl

theorem Rep.eq_zero_iff {P : W.Point} {R : K × K} (h : Rep P R) : P = 0 ↔ R.2 = 0 := by
  rcases P with _ | ⟨x, y, hP⟩
  · exact ⟨fun _ => h.2, fun _ => rfl⟩
  · exact ⟨fun h0 => absurd h0 (Point.some_ne_zero hP), fun h0 => absurd h0 h.1⟩

theorem Rep.scale {P : W.Point} {R : K × K} (h : Rep P R) {c : K} (hc : c ≠ 0) :
    Rep P (c * R.1, c * R.2) := by
  rcases P with _ | ⟨x, y, hP⟩
  · exact ⟨mul_ne_zero hc h.1, by rw [h.2, mul_zero]⟩
  · exact ⟨mul_ne_zero hc h.1, by rw [h.2]; ring⟩

@[simp] theorem rep_neg {P : W.Point} {R : K × K} : Rep (-P) R ↔ Rep P R := by
  rcases P with _ | ⟨x, y, hP⟩ <;> exact Iff.rfl

/-- A point with an x-coordinate other than 0 is one that has the coordinate. -/
theorem rep_xCoord {P : W.Point} (h : xCoord P ≠ 0) : Rep P (xCoord P, 1) := by
  rcases P with _ | ⟨x, y, hP⟩
  · exact absurd rfl h
  · exact ⟨one_ne_zero, (mul_one x).symm⟩

theorem Rep.unique {P : W.Point} {R S : K × K} (h : Rep P R) (h' : Rep P S) :
    ∃ c ≠ 0, R = (c * S.1, c * S.2) := by
  rcases P with _ | ⟨x, y, hP⟩
  · refine ⟨R.1 / S.1, div_ne_zero h.1 h'.1, Prod.ext ?_ ?_⟩
    · exact (div_mul_cancel₀ R.1 h'.1).symm
    · rw [h.2, h'.2, mul_zero]
  · refine ⟨R.2 / S.2, div_ne_zero h.1 h'.1, Prod.ext ?_ ?_⟩
    · rw [h.2, h'.2, mul_left_comm, div_mul_cancel₀ R.2 h'.1]
    · exact (div_mul_cancel₀ R.2 h'.1).symm

/-! ## The formulas -/

/-- The x-coordinates of a sum and a difference. -/
theorem IsMontgomery.mul_addX (hW : IsMontgomery W A a24) {x₁ y₁ x₂ y₂ ℓ₁ ℓ₂ : K}
    (h₁ : y₁ ^ 2 = x₁ ^ 3 + A * x₁ ^ 2 + x₁) (h₂ : y₂ ^ 2 = x₂ ^ 3 + A * x₂ ^ 2 + x₂)
    (hne : x₁ - x₂ ≠ 0) (hs : ℓ₁ * (x₁ - x₂) = y₁ - y₂) (hd : ℓ₂ * (x₁ - x₂) = y₁ + y₂) :
    W.addX x₁ x₂ ℓ₁ * W.addX x₁ x₂ ℓ₂ * (x₁ - x₂) ^ 2 = (x₁ * x₂ - 1) ^ 2 := by
  rw [hW.addX, hW.addX]
  refine mul_right_cancel₀ (pow_ne_zero 2 hne) ?_
  have e₁ : (ℓ₁ ^ 2 - A - x₁ - x₂) * (x₁ - x₂) ^ 2
      = (y₁ - y₂) ^ 2 - (A + x₁ + x₂) * (x₁ - x₂) ^ 2 := by
    rw [← hs]
    ring
  have e₂ : (ℓ₂ ^ 2 - A - x₁ - x₂) * (x₁ - x₂) ^ 2
      = (y₁ + y₂) ^ 2 - (A + x₁ + x₂) * (x₁ - x₂) ^ 2 := by
    rw [← hd]
    ring
  calc _ = ((ℓ₁ ^ 2 - A - x₁ - x₂) * (x₁ - x₂) ^ 2)
        * ((ℓ₂ ^ 2 - A - x₁ - x₂) * (x₁ - x₂) ^ 2) := by ring
    _ = (y₁ ^ 2 - y₂ ^ 2) ^ 2 - 2 * ((A + x₁ + x₂) * (x₁ - x₂) ^ 2) * (y₁ ^ 2 + y₂ ^ 2)
        + ((A + x₁ + x₂) * (x₁ - x₂) ^ 2) ^ 2 := by
      rw [e₁, e₂]
      ring
    _ = _ := by
      rw [h₁, h₂]
      ring

theorem diffAdd_eq (x₁ : K) (X Z X' Z' : K) : diffAdd x₁ (X, Z) (X', Z')
    = (4 * (X * X' - Z * Z') ^ 2, 4 * x₁ * (X' * Z - X * Z') ^ 2) := by
  unfold diffAdd
  ext <;> ring

/-- The ladder commutes with homomorphisms. -/
theorem map_ladder {R : Type*} [CommRing R] (f : R →+* K) (a24 x₁ : R) (bits : List Bool) :
    ladder (f a24) (f x₁) bits = (f (ladder a24 x₁ bits).1, f (ladder a24 x₁ bits).2) := by
  have hstep : ∀ (s : (R × R) × (R × R)) (bit : Bool),
      doubleAdd (f a24) (f x₁) (Prod.map (Prod.map f f) (Prod.map f f) s) bit
        = Prod.map (Prod.map f f) (Prod.map f f) (doubleAdd a24 x₁ s bit) := fun s bit => by
    cases bit <;> simp [doubleAdd, double, diffAdd]
  have hfold : ∀ (bits : List Bool) (s : (R × R) × (R × R)),
      bits.foldl (doubleAdd (f a24) (f x₁)) (Prod.map (Prod.map f f) (Prod.map f f) s)
        = Prod.map (Prod.map f f) (Prod.map f f) (bits.foldl (doubleAdd a24 x₁) s) := by
    intro bits
    induction bits with
    | nil => exact fun _ => rfl
    | cons bit bits ih =>
      intro s
      rw [List.foldl_cons, hstep, ih]
      rfl
  have hstart : Prod.map (Prod.map f f) (Prod.map f f) (((1 : R), (0 : R)), (x₁, (1 : R)))
      = ((1, 0), (f x₁, 1)) := by simp
  have := congrArg Prod.fst (hfold bits ((1, 0), (x₁, 1)))
  rw [hstart] at this
  rw [ladder_eq, ladder_eq, this]
  rfl

/-- From the coordinate 0 the ladder comes to 0 or to infinity. -/
theorem ladder_zero (a24 : K) (bits : List Bool) :
    (ladder a24 0 bits).1 * (ladder a24 0 bits).2 = 0 := by
  have hdouble : ∀ R : K × K, R.1 * R.2 = 0 → (double a24 R).1 * (double a24 R).2 = 0 := fun R h => by
    have : (double a24 R).2 = 4 * (R.1 * R.2) * ((R.1 + R.2) ^ 2 + a24 * (4 * (R.1 * R.2))) := by
      unfold double
      ring
    rw [this, h]
    ring
  have hadd : ∀ R S : K × K, (diffAdd 0 R S).1 * (diffAdd 0 R S).2 = 0 := fun R S => by
    unfold diffAdd
    ring
  have hfold : ∀ (bits : List Bool) {s : (K × K) × (K × K)}, s.1.1 * s.1.2 = 0 → s.2.1 * s.2.2 = 0 →
      (bits.foldl (doubleAdd a24 0) s).1.1 * (bits.foldl (doubleAdd a24 0) s).1.2 = 0 := by
    intro bits
    induction bits with
    | nil => exact fun h _ => h
    | cons bit bits ih =>
      intro s h h'
      rw [List.foldl_cons]
      cases bit
      · exact ih (hdouble _ h) (hadd _ _)
      · exact ih (hadd _ _) (hdouble _ h')
  rw [ladder_eq]
  exact hfold bits (mul_zero _) (zero_mul _)

/-! ## Points of low order -/

theorem double_eq (hc : 4 * a24 + 2 = A) (R : K × K) : double a24 R
    = ((R.1 ^ 2 - R.2 ^ 2) ^ 2, 4 * R.1 * R.2 * (R.1 ^ 2 + A * R.1 * R.2 + R.2 ^ 2)) := by
  subst hc
  unfold double
  ext <;> ring

theorem eq_zero_of_sq {a y z : K} (ha : ¬ IsSquare a) (h : y ^ 2 = a * z ^ 2) : z = 0 := by
  by_contra hz
  refine ha ⟨y / z, ?_⟩
  field_simp
  exact h.symm

/-- Where `A² - 4` is not a square only infinity and the coordinate 0 are doubled to infinity. -/
theorem double_infinite (hc : 4 * a24 + 2 = A) (h4 : (4 : K) ≠ 0) (h₁ : ¬ IsSquare (A ^ 2 - 4))
    (R : K × K) : (double a24 R).2 = 0 ↔ R.1 = 0 ∨ R.2 = 0 := by
  rw [double_eq hc]
  constructor
  · intro h
    rcases mul_eq_zero.mp h with h | h
    · rcases mul_eq_zero.mp h with h | h
      · exact .inl ((mul_eq_zero.mp h).resolve_left h4)
      · exact .inr h
    · refine .inr (eq_zero_of_sq h₁ (y := 2 * R.1 + A * R.2) ?_)
      linear_combination 4 * h
  · rintro (h | h) <;> rw [h] <;> ring

/-- The coordinates whose fourth multiple is 0. -/
theorem four_zero (hc : 4 * a24 + 2 = A) (h2 : (2 : K) ≠ 0) {s t : K} (hs : s ^ 2 = A + 2)
    (ht : t ^ 2 = s ^ 2 + 2 * s) (h₂ : ¬ IsSquare (2 - A)) (h₃ : ¬ IsSquare (s ^ 2 - 2 * s)) {u : K} :
    (double a24 (double a24 (u, 1))).1 = 0 ↔ u = 1 + s + t ∨ u = 1 + s - t := by
  have hsq : (double a24 (double a24 (u, 1))).1
      = (((u ^ 2 - 1) ^ 2 - 4 * u * (u ^ 2 + A * u + 1))
        * ((u ^ 2 - 1) ^ 2 + 4 * u * (u ^ 2 + A * u + 1))) ^ 2 := by
    rw [double_eq hc, double_eq hc]
    ring
  have hfac : (u ^ 2 - 1) ^ 2 - 4 * u * (u ^ 2 + A * u + 1)
      = (u - (1 + s + t)) * (u - (1 + s - t)) * ((u - (1 - s)) ^ 2 - (s ^ 2 - 2 * s)) := by
    have : (u - (1 + s + t)) * (u - (1 + s - t)) = (u - (1 + s)) ^ 2 - (s ^ 2 + 2 * s) := by
      rw [← ht]
      ring
    rw [this]
    linear_combination 4 * u ^ 2 * hs
  rw [hsq, pow_eq_zero_iff two_ne_zero, hfac]
  constructor
  · intro h
    rcases mul_eq_zero.mp h with h | h
    · rcases mul_eq_zero.mp h with h | h
      · rcases mul_eq_zero.mp h with h | h
        · exact .inl (sub_eq_zero.mp h)
        · exact .inr (sub_eq_zero.mp h)
      · exact absurd (eq_zero_of_sq h₃ (y := u - (1 - s)) (z := 1) (by linear_combination h)) one_ne_zero
    · -- a square but for `2 - A`
      have hu := eq_zero_of_sq h₂ (y := u ^ 2 + 2 * u + 1) (z := 2 * u) (by linear_combination h)
      obtain rfl := (mul_eq_zero.mp hu).resolve_left h2
      norm_num at h
  · rintro (rfl | rfl) <;> ring

/-- The coordinates whose eighth multiple is infinity. -/
theorem eight_infinite (hc : 4 * a24 + 2 = A) (h2 : (2 : K) ≠ 0) {s t : K} (hs : s ^ 2 = A + 2)
    (ht : t ^ 2 = s ^ 2 + 2 * s) (h₁ : ¬ IsSquare (A ^ 2 - 4)) (h₂ : ¬ IsSquare (2 - A))
    (h₃ : ¬ IsSquare (s ^ 2 - 2 * s)) (u : K) :
    (double a24 (double a24 (double a24 (u, 1)))).2 = 0
      ↔ u ∈ [0, 1, -1, 1 + s + t, 1 + s - t] := by
  have h4 : (4 : K) ≠ 0 := by
    rw [show (4 : K) = 2 * 2 by norm_num]
    exact mul_ne_zero h2 h2
  have hone : (double a24 (u, 1)).1 = 0 ↔ u = 1 ∨ u = -1 := by
    rw [double_eq hc, pow_eq_zero_iff two_ne_zero, sub_eq_zero, sq_eq_sq_iff_eq_or_eq_neg]
  rw [double_infinite hc h4 h₁, four_zero hc h2 hs ht h₂ h₃, double_infinite hc h4 h₁, hone,
    double_infinite hc h4 h₁]
  simp only [List.mem_cons, List.not_mem_nil, or_false, one_ne_zero]
  tauto

/-! ## Doubling and adding points -/

variable [DecidableEq K]

theorem IsMontgomery.rep_double (hW : IsMontgomery W A a24) {P : W.Point} {R : K × K}
    (h : Rep P R) : Rep (P + P) (double a24 R) := by
  obtain ⟨X, Z⟩ := R
  rcases P with _ | ⟨x, y, hP⟩
  · obtain ⟨hX, rfl⟩ : X ≠ 0 ∧ Z = 0 := h
    have hd : double a24 (X, 0) = (X ^ 4, 0) := by
      unfold double
      ext <;> ring
    rw [hd]
    exact ⟨pow_ne_zero 4 hX, rfl⟩
  obtain ⟨hZ, rfl⟩ : Z ≠ 0 ∧ X = x * Z := h
  have heq := hW.equation_iff.mp hP.1
  have hd : double a24 (x * Z, Z) = (Z ^ 4 * (x ^ 2 - 1) ^ 2, Z ^ 4 * (4 * y ^ 2)) := by
    unfold double
    refine Prod.ext (by ring) ?_
    rw [heq, ← hW.const]
    ring
  rw [hd]
  have hZ4 : Z ^ 4 ≠ 0 := pow_ne_zero 4 hZ
  by_cases hy : y = 0
  · -- a point of order 2
    have h2 : y = W.negY x y := by rw [hW.negY, hy, neg_zero]
    rw [Point.add_self_of_Y_eq h2]
    refine ⟨mul_ne_zero hZ4 (pow_ne_zero 2 fun h1 => hW.smooth ?_), by rw [hy]; ring⟩
    have hx : x * (A * x + 2) = 0 := by
      rw [hy] at heq
      linear_combination -heq - x * h1
    have hx0 : x ≠ 0 := fun h0 => by
      rw [h0] at h1
      norm_num at h1
    have hAx := (mul_eq_zero.mp hx).resolve_left hx0
    linear_combination -A ^ 2 * h1 + (A * x - 2) * hAx
  have h2 : y ≠ W.negY x y := fun h0 => by
    rw [hW.negY] at h0
    have : 2 * y = 0 := by linear_combination h0
    exact hy ((mul_eq_zero.mp this).resolve_left hW.two)
  rw [Point.add_self_of_Y_ne h2]
  refine ⟨mul_ne_zero hZ4 (mul_ne_zero hW.four (pow_ne_zero 2 hy)), ?_⟩
  have hslope : W.slope x x y y * (2 * y) = 3 * x ^ 2 + 2 * A * x + 1 := by
    rw [WeierstrassCurve.Affine.slope_of_Y_ne rfl h2, hW.negY, hW.a₁, hW.a₂, hW.a₄,
      show y - -y = 2 * y by ring, div_mul_cancel₀ _ (mul_ne_zero hW.two hy)]
    ring
  rw [hW.addX]
  set ℓ := W.slope x x y y
  show Z ^ 4 * (x ^ 2 - 1) ^ 2 = (ℓ ^ 2 - A - x - x) * (Z ^ 4 * (4 * y ^ 2))
  linear_combination (-Z ^ 4 * (ℓ * (2 * y) + (3 * x ^ 2 + 2 * A * x + 1))) * hslope
    + Z ^ 4 * 4 * (A + 2 * x) * heq

/-- Points whose difference has the x-coordinate `x₁`. -/
theorem IsMontgomery.rep_diffAdd (hW : IsMontgomery W A a24) {P Q : W.Point} {R S : K × K} {x₁ : K}
    (hP : Rep P R) (hQ : Rep Q S) (hd : Rep (Q - P) (x₁, 1)) (hx : x₁ ≠ 0) :
    Rep (P + Q) (diffAdd x₁ R S) := by
  have h4 := hW.four
  rcases P with _ | ⟨x, y, hPn⟩
  · -- the sum is the difference
    rw [← Point.zero_def] at hd ⊢
    rw [sub_zero] at hd
    rw [zero_add]
    obtain ⟨s, hs, rfl⟩ := hQ.unique hd
    obtain ⟨X, Z⟩ := R
    obtain ⟨hX, rfl⟩ : X ≠ 0 ∧ Z = 0 := hP
    have hc : 4 * x₁ * (X * s) ^ 2 ≠ 0 :=
      mul_ne_zero (mul_ne_zero h4 hx) (pow_ne_zero 2 (mul_ne_zero hX hs))
    convert hd.scale hc using 1
    rw [diffAdd_eq]
    ext <;> ring
  rcases Q with _ | ⟨x', y', hQn⟩
  · -- the sum is the difference, reversed
    rw [← Point.zero_def] at hd ⊢
    rw [zero_sub, rep_neg] at hd
    rw [add_zero]
    obtain ⟨s, hs, rfl⟩ := hP.unique hd
    obtain ⟨X, Z⟩ := S
    obtain ⟨hX, rfl⟩ : X ≠ 0 ∧ Z = 0 := hQ
    have hc : 4 * x₁ * (X * s) ^ 2 ≠ 0 :=
      mul_ne_zero (mul_ne_zero h4 hx) (pow_ne_zero 2 (mul_ne_zero hX hs))
    convert hd.scale hc using 1
    rw [diffAdd_eq]
    ext <;> ring
  obtain ⟨X, Z⟩ := R
  obtain ⟨X', Z'⟩ := S
  obtain ⟨hZ, rfl⟩ : Z ≠ 0 ∧ X = x * Z := hP
  obtain ⟨hZ', rfl⟩ : Z' ≠ 0 ∧ X' = x' * Z' := hQ
  have hZZ : 4 * (Z * Z') ^ 2 ≠ 0 := mul_ne_zero h4 (pow_ne_zero 2 (mul_ne_zero hZ hZ'))
  rw [diffAdd_eq]
  by_cases hxx : x' = x
  · -- opposite points, as the difference is not infinity
    have hcases : Point.some x' y' hQn = .some x y hPn ∨ Point.some x' y' hQn = -.some x y hPn :=
      Point.X_eq_iff.mp hxx
    rcases hcases with heq | hneg
    · rw [heq, sub_self] at hd
      exact absurd hd.2 one_ne_zero
    · rw [hneg, add_neg_cancel]
      rw [hneg, ← neg_add', rep_neg] at hd
      have hdbl := hW.rep_double (P := .some x y hPn) (R := (x, 1)) ⟨one_ne_zero, (mul_one x).symm⟩
      obtain ⟨c, hc, he⟩ := hdbl.unique hd
      have h1 : (x ^ 2 - 1) ^ 2 = c * x₁ := by
        have := (Prod.ext_iff.mp he).1
        simp only [double] at this
        linear_combination this
      subst hxx
      refine ⟨?_, by ring⟩
      have : 4 * (x' * Z * (x' * Z') - Z * Z') ^ 2 = 4 * (Z * Z') ^ 2 * (c * x₁) := by
        rw [← h1]
        ring
      rw [this]
      exact mul_ne_zero hZZ (mul_ne_zero hc hx)
  have hne : x' - x ≠ 0 := sub_ne_zero.mpr hxx
  have hxx' : x ≠ x' := fun h => hxx h.symm
  have hx₁ : W.addX x' x (W.slope x' x y' (W.negY x y)) = x₁ := by
    rw [sub_eq_add_neg, Point.neg_some, Point.add_of_X_ne hxx] at hd
    have := hd.2
    rw [mul_one] at this
    exact this.symm
  rw [add_comm, Point.add_of_X_ne hxx]
  have hs : W.slope x' x y' y * (x' - x) = y' - y := by
    rw [WeierstrassCurve.Affine.slope_of_X_ne hxx, div_mul_cancel₀ _ hne]
  have hs' : W.slope x' x y' (W.negY x y) * (x' - x) = y' + y := by
    rw [WeierstrassCurve.Affine.slope_of_X_ne hxx, div_mul_cancel₀ _ hne, hW.negY]
    ring
  have hprod := hW.mul_addX (hW.equation_iff.mp hQn.1) (hW.equation_iff.mp hPn.1) hne hs hs'
  rw [hx₁] at hprod
  set x₂ := W.addX x' x (W.slope x' x y' y)
  refine ⟨?_, ?_⟩
  · show 4 * x₁ * (x' * Z' * Z - x * Z * Z') ^ 2 ≠ 0
    have : 4 * x₁ * (x' * Z' * Z - x * Z * Z') ^ 2 = 4 * (Z * Z') ^ 2 * (x₁ * (x' - x) ^ 2) := by
      ring
    rw [this]
    exact mul_ne_zero hZZ (mul_ne_zero hx (pow_ne_zero 2 hne))
  · show 4 * (x * Z * (x' * Z') - Z * Z') ^ 2 = x₂ * (4 * x₁ * (x' * Z' * Z - x * Z * Z') ^ 2)
    linear_combination -4 * (Z * Z') ^ 2 * hprod

/-! ## The ladder -/

theorem IsMontgomery.rep_doubleAdd (hW : IsMontgomery W A a24) {P : W.Point} {x₁ : K}
    (hP : Rep P (x₁, 1)) (hx : x₁ ≠ 0) {n : ℕ} {s : (K × K) × (K × K)} (h : Rep (n • P) s.1)
    (h' : Rep ((n + 1) • P) s.2) (bit : Bool) :
    Rep ((2 * n + bit.toNat) • P) (doubleAdd a24 x₁ s bit).1
      ∧ Rep ((2 * n + bit.toNat + 1) • P) (doubleAdd a24 x₁ s bit).2 := by
  have hd : (n + 1) • P - n • P = P := by rw [succ_nsmul, add_sub_cancel_left]
  have hsum := hW.rep_diffAdd h h' (hd.symm ▸ hP) hx
  have h1 := hW.rep_double h
  have h2 := hW.rep_double h'
  rw [← add_nsmul] at hsum h1 h2
  cases bit
  · rw [Bool.toNat_false, add_zero, two_mul]
    exact ⟨h1, by rwa [show n + n + 1 = n + (n + 1) from add_assoc n n 1]⟩
  · rw [Bool.toNat_true]
    exact ⟨by rwa [show 2 * n + 1 = n + (n + 1) by ring],
      by rwa [show 2 * n + 1 + 1 = n + 1 + (n + 1) by ring]⟩

theorem IsMontgomery.rep_ladder (hW : IsMontgomery W A a24) {P : W.Point} {x₁ : K}
    (hP : Rep P (x₁, 1)) (hx : x₁ ≠ 0) (bits : List Bool) :
    Rep (Scalar.ofBits bits • P) (ladder a24 x₁ bits) := by
  have hfold : ∀ (bits : List Bool) {n : ℕ} {s : (K × K) × (K × K)}, Rep (n • P) s.1 →
      Rep ((n + 1) • P) s.2 →
      Rep (bits.foldl (fun n bit => 2 * n + bit.toNat) n • P) (bits.foldl (doubleAdd a24 x₁) s).1 := by
    intro bits
    induction bits with
    | nil => exact fun h _ => h
    | cons bit bits ih =>
      intro n s h h'
      obtain ⟨h1, h2⟩ := hW.rep_doubleAdd hP hx h h' bit
      exact ih h1 h2
  rw [ladder_eq]
  refine hfold bits ?_ ?_
  · rw [zero_nsmul]
    exact ⟨one_ne_zero, rfl⟩
  · rwa [zero_add, one_nsmul]

/-- A point with the x-coordinate 0 is infinity or of order 2. -/
theorem IsMontgomery.add_self_of_xCoord (hW : IsMontgomery W A a24) {P : W.Point}
    (h : xCoord P = 0) : P + P = 0 := by
  rcases P with _ | ⟨x, y, hP⟩
  · rfl
  · have hy := hW.equation_iff.mp hP.1
    obtain rfl : x = 0 := h
    obtain rfl : y = 0 := pow_eq_zero_iff two_ne_zero |>.mp (by rw [hy]; ring)
    refine Point.add_self_of_Y_eq ?_
    rw [hW.negY, neg_zero]

/-- The multiples of a point with the x-coordinate 0 have it too. -/
theorem IsMontgomery.xCoord_nsmul (hW : IsMontgomery W A a24) {P : W.Point} (h : xCoord P = 0)
    (n : ℕ) : xCoord (n • P) = 0 := by
  have h2 := hW.add_self_of_xCoord h
  rw [← Nat.div_add_mod n 2, add_nsmul, mul_nsmul, two_nsmul, h2, nsmul_zero, zero_add]
  rcases Nat.mod_two_eq_zero_or_one n with h0 | h1
  · rw [h0, zero_nsmul]
    rfl
  · rwa [h1, one_nsmul]

/-- The ladder multiplies. -/
theorem IsMontgomery.xCoord_ladder (hW : IsMontgomery W A a24) (P : W.Point) (bits : List Bool) :
    (ladder a24 (xCoord P) bits).1 / (ladder a24 (xCoord P) bits).2 = xCoord (Scalar.ofBits bits • P) := by
  by_cases hx : xCoord P = 0
  · rw [hW.xCoord_nsmul hx, hx]
    rcases mul_eq_zero.mp (ladder_zero a24 bits) with h | h
    · rw [h, zero_div]
    · rw [h, div_zero]
  · exact (hW.rep_ladder (rep_xCoord hx) hx bits).div

end Montgomery
