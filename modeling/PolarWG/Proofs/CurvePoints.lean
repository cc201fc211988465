import PolarWG.Proofs.X25519
import PolarWG.Lib.Pocklington
import PolarWG.Lib.FrobeniusPoints

/-!
# The points of Curve25519

The field is a field, and the orders of the points that the curve and its twist have are known well
enough to tell which of them clamped scalars take to infinity.
-/

namespace PolarWG

open Montgomery FrobeniusPoints
open WeierstrassCurve.Affine (Point)
open WeierstrassCurve.Affine

/-! ## Primes -/

/-- The order of the base point. -/
def baseOrder : ℕ := 2 ^ 252 + 27742317777372353535851937790883648493

/-- The order of the twist's point with the coordinate 2. -/
def twistOrder : ℕ := 2 ^ 253 - 55484635554744707071703875581767296995

def knownPrimes : List ℕ :=
  [127, 2281, 3911, 8053, 28859, 75707, 132049, 531581, 1224481, 8574133]

def certificates : List Pocklington.Entry :=
  [⟨1919519569386763, 2, [8574133, 127]⟩,
   ⟨75445702479781427272750846543864801, 7, [1919519569386763, 75707]⟩,
   ⟨74058212732561358302231226437062788676166966415465897661863160754340907, 2,
     [75445702479781427272750846543864801, 132049]⟩,
   ⟨p25519, 2, [74058212732561358302231226437062788676166966415465897661863160754340907]⟩,
   ⟨1257559732178653, 2, [1224481, 531581]⟩,
   ⟨4434155615661930479, 17, [1257559732178653]⟩,
   ⟨172054593956031949258510691, 2, [4434155615661930479]⟩,
   ⟨19757330305831588566944191468367130476339, 2, [172054593956031949258510691]⟩,
   ⟨276602624281642239937218680557139826668747, 2, [19757330305831588566944191468367130476339]⟩,
   ⟨baseOrder, 2, [276602624281642239937218680557139826668747]⟩,
   ⟨5171003929967, 5, [28859, 2281]⟩,
   ⟨22561162540501040539, 3, [5171003929967]⟩,
   ⟨1013266244677, 2, [3911, 8053]⟩,
   ⟨203852586375664218368381551393371968928013, 2, [22561162540501040539, 1013266244677]⟩,
   ⟨104719073621178708975837602950775180438320278101, 2,
     [203852586375664218368381551393371968928013]⟩,
   ⟨27413359092552162435694767700453926735143482401279781, 2,
     [104719073621178708975837602950775180438320278101]⟩,
   ⟨twistOrder, 2, [27413359092552162435694767700453926735143482401279781]⟩]

/-! ## What there is to compute -/

/-- What the curve's equation gives for the square of the y-coordinate. -/
def ySquare (u : ℕ) : ℕ := u ^ 3 + 486662 * u ^ 2 + u

/-- By Euler's criterion 1 for a square and -1 for another. -/
def legendre (a : ℕ) : Fp := (Scalar.powMod p25519 a (Scalar.bits 255 (p25519 / 2)) : ℕ)

/-- A coordinate of order 8. -/
def order8 : ℕ := 325606250916557431795983626356110631294008115727848805560023387167927233504

/-- The roots of `A + 2` and of `s² + 2s`. -/
def rootS : Fp := 48802004052532134862652268456126542835229456083994414501085850622543968879637

def rootT : Fp := 9419646817042520280929207674573521722699544364553716324202964768580523173815

/-- The coordinates of the points whose order divides 8. -/
def lowOrder : List Fp := [0, 1, -1, (order8 : ℕ),
  39382357235489614581723060781553021112529911719440698176882885853963445705823]

theorem computed :
    Pocklington.chain knownPrimes certificates = true
    ∧ ((2 : Fp) ≠ 0 ∧ (486662 ^ 2 : Fp) ≠ 4 ∧ (4 * 121665 + 2 : Fp) = 486662
      ∧ ((9 : ℕ) : Fp) ≠ 0 ∧ ((2 : ℕ) : Fp) ≠ 0 ∧ ((order8 : ℕ) : Fp) ≠ 0
      ∧ ((p25519 - 1 : ℕ) : Fp) ≠ 0 ∧ rootS ^ 2 = 486662 + 2 ∧ rootT ^ 2 = rootS ^ 2 + 2 * rootS
      ∧ lowOrder = [0, 1, -1, 1 + rootS + rootT, 1 + rootS - rootT])
    -- whose multiples are infinity
    ∧ ((ladder (121665 : Fp) (9 : ℕ) (Scalar.bits 253 baseOrder)).2 = 0
      ∧ (ladder (121665 : Fp) (2 : ℕ) (Scalar.bits 253 twistOrder)).2 = 0
      ∧ (ladder (121665 : Fp) (order8 : ℕ) [true, false, false]).2 ≠ 0
      ∧ (ladder (121665 : Fp) (order8 : ℕ) [true, false, false, false]).2 = 0
      ∧ (ladder (121665 : Fp) (p25519 - 1 : ℕ) [true, false]).2 ≠ 0
      ∧ (ladder (121665 : Fp) (p25519 - 1 : ℕ) [true, false, false]).2 = 0)
    -- the base point and the point of order 8 are on the curve, the other two are on its twist
    ∧ (legendre (ySquare 9) = (1 : ℤ) ∧ legendre (ySquare order8) = (1 : ℤ)
      ∧ legendre (ySquare 2) = (-1 : ℤ) ∧ legendre (ySquare (p25519 - 1)) = (-1 : ℤ))
    -- no squares
    ∧ (legendre (486662 ^ 2 - 4) ≠ 1 ∧ ((486662 ^ 2 - 4 : ℕ) : Fp) = 486662 ^ 2 - 4
      ∧ (486662 ^ 2 - 4 : Fp) ≠ 0)
    ∧ (legendre (p25519 + 2 - 486662) ≠ 1 ∧ ((p25519 + 2 - 486662 : ℕ) : Fp) = 2 - 486662
      ∧ (2 - 486662 : Fp) ≠ 0)
    ∧ legendre (rootS ^ 2 - 2 * rootS).val ≠ 1
      ∧ (((rootS ^ 2 - 2 * rootS).val : ℕ) : Fp) = rootS ^ 2 - 2 * rootS
      ∧ (rootS ^ 2 - 2 * rootS : Fp) ≠ 0 := by
  decide +kernel

theorem certified {n : ℕ} (h : n ∈ certificates.map Pocklington.Entry.number) : n.Prime := by
  obtain ⟨e, he, rfl⟩ := List.mem_map.mp h
  refine Pocklington.chain_prime computed.1 ?_ e he
  simp only [knownPrimes, List.forall_mem_cons]
  norm_num

theorem p25519_prime : p25519.Prime := certified (by simp [certificates])

theorem baseOrder_prime : baseOrder.Prime := certified (by simp [certificates])

theorem twistOrder_prime : twistOrder.Prime := certified (by simp [certificates])

instance : Fact p25519.Prime := ⟨p25519_prime⟩

/-! ## The curve -/

/-- `y² = x³ + 486662 x² + x`. -/
def curve25519Curve : WeierstrassCurve.Affine Fp := ⟨0, 486662, 0, 1, 0⟩

/-- Where every coordinate is a point's. -/
abbrev FpBar : Type := AlgebraicClosure Fp

noncomputable instance : DecidableEq FpBar := Classical.decEq FpBar

abbrev CurvePoint : Type := (curve25519Curve⁄FpBar).Point

theorem ne_of_fp {a b : Fp} (h : a ≠ b) : algebraMap Fp FpBar a ≠ algebraMap Fp FpBar b :=
  fun he => h ((algebraMap Fp FpBar).injective he)

theorem curve_montgomery : IsMontgomery (curve25519Curve⁄FpBar) (algebraMap Fp FpBar 486662)
    (algebraMap Fp FpBar 121665) where
  a₁ := map_zero (algebraMap Fp FpBar)
  a₂ := rfl
  a₃ := map_zero (algebraMap Fp FpBar)
  a₄ := map_one (algebraMap Fp FpBar)
  a₆ := map_zero (algebraMap Fp FpBar)
  two := by
    have : algebraMap Fp FpBar 2 ≠ algebraMap Fp FpBar 0 := ne_of_fp computed.2.1.1
    rwa [map_zero, map_ofNat] at this
  smooth := by
    have : algebraMap Fp FpBar (486662 ^ 2) ≠ algebraMap Fp FpBar 4 :=
      ne_of_fp computed.2.1.2.1
    rwa [map_pow, map_ofNat _ 4] at this
  const := by
    rw [← computed.2.1.2.2.1, map_add, map_mul, map_ofNat _ 4, map_ofNat _ 2]

/-- Every coordinate is a point's. -/
theorem exists_point (u : Fp) : ∃ P : CurvePoint, xCoord P = algebraMap Fp FpBar u := by
  set x := algebraMap Fp FpBar u
  obtain ⟨y, hy⟩ := IsAlgClosed.exists_pow_nat_eq
    (x ^ 3 + algebraMap Fp FpBar 486662 * x ^ 2 + x) (n := 2) (by norm_num)
  exact ⟨.some x y (curve_montgomery.nonsingular hy), rfl⟩

/-- The coordinate of a multiple, as the ladder computes it. -/
def multiple (n : ℕ) (u : Fp) : Fp :=
  let r := ladder ((121665 : ℕ) : Fp) u (Scalar.bits 255 n)
  r.1 * r.2 ^ (p25519 - 2)

theorem pow_sub_two (z : Fp) : z ^ (p25519 - 2) = z⁻¹ := by
  rcases eq_or_ne z 0 with rfl | hz
  · rw [inv_zero, zero_pow (by norm_num [p25519])]
  · refine eq_inv_of_mul_eq_one_left ?_
    rw [← pow_succ, show p25519 - 2 + 1 = p25519 - 1 from rfl]
    exact ZMod.pow_card_sub_one_eq_one hz

theorem multiple_spec {n : ℕ} (hn : n < 2 ^ 255) {u : Fp} {P : CurvePoint}
    (hP : xCoord P = algebraMap Fp FpBar u) :
    xCoord (n • P) = algebraMap Fp FpBar (multiple n u) := by
  have h := curve_montgomery.xCoord_ladder P (Scalar.bits 255 n)
  rw [hP, map_ladder, Scalar.ofBits_bits, Nat.mod_eq_of_lt hn] at h
  rw [← h, multiple, Nat.cast_ofNat, pow_sub_two, map_mul, map_inv₀, div_eq_mul_inv]

/-- A multiple is infinity when the ladder's denominator is 0. -/
theorem nsmul_eq_zero_iff {u : Fp} (hu : u ≠ 0) {P : CurvePoint}
    (hP : xCoord P = algebraMap Fp FpBar u) (bits : List Bool) :
    Scalar.ofBits bits • P = 0 ↔ (ladder (121665 : Fp) u bits).2 = 0 := by
  have hx : xCoord P ≠ 0 := by
    rw [hP, ← map_zero (algebraMap Fp FpBar)]
    exact ne_of_fp hu
  have h := (curve_montgomery.rep_ladder (rep_xCoord hx) hx bits).eq_zero_iff
  rw [h, hP, map_ladder]
  exact map_eq_zero (algebraMap Fp FpBar)

/-! ## Orders -/

theorem pow_mod_cast (m a k n : ℕ) (hn : n < 2 ^ k) :
    ((a : ℕ) : ZMod m) ^ n = (Scalar.powMod m a (Scalar.bits k n) : ℕ) := by
  rw [Scalar.powMod_eq, Scalar.ofBits_bits, Nat.mod_eq_of_lt hn, ZMod.natCast_mod, Nat.cast_pow]

theorem euler_pow (a : ℕ) : (a : Fp) ^ (p25519 / 2) = legendre a :=
  pow_mod_cast p25519 a 255 (p25519 / 2) (by norm_num [p25519])

theorem signed_point {u : ℕ} {ε : ℤ} (hε : ε = 1 ∨ ε = -1) {P : CurvePoint}
    (hP : xCoord P = algebraMap Fp FpBar u) (h : legendre (ySquare u) = (ε : Fp)) :
    P ∈ signed FpBar curve25519Curve ε := by
  have hcard : Fintype.card Fp = p25519 := ZMod.card p25519
  have hodd : Odd (Fintype.card Fp) := by
    rw [hcard]
    exact p25519_prime.odd_of_ne_two (by norm_num [p25519])
  refine signed_of_pow curve_montgomery hodd hP (v := (ySquare u : ℕ)) ?_ hε ?_
  · rw [ySquare]
    simp only [Nat.cast_add, Nat.cast_mul, Nat.cast_pow, map_add, map_mul, map_pow, Nat.cast_ofNat]
  · rw [hcard, euler_pow, h]

theorem signed_multiple {ε : ℤ} (hε : ε = 1 ∨ ε = -1) {P Q : CurvePoint}
    (hP : P ∈ signed FpBar curve25519Curve ε) (hQ : Q ∈ signed FpBar curve25519Curve ε)
    (hco : (addOrderOf P).Coprime (addOrderOf Q)) :
    ∃ m, 0 < m ∧ Nat.card (signed FpBar curve25519Curve ε) = addOrderOf P * addOrderOf Q * m
      ∧ addOrderOf P * addOrderOf Q * m ≤ 2 * (p25519 + 1) := by
  have := finite_signed (K := FpBar) (W := curve25519Curve) hε
  have hdP := addOrderOf_dvd_natCard (⟨P, hP⟩ : signed FpBar curve25519Curve ε)
  have hdQ := addOrderOf_dvd_natCard (⟨Q, hQ⟩ : signed FpBar curve25519Curve ε)
  rw [AddSubgroup.addOrderOf_mk] at hdP hdQ
  obtain ⟨m, hm⟩ := Nat.Coprime.mul_dvd_of_dvd_of_dvd hco hdP hdQ
  have hle : Nat.card (signed FpBar curve25519Curve ε) ≤ 2 * (p25519 + 1) :=
    (card_signed_le hε).trans_eq (congrArg (fun n => 2 * (n + 1)) (ZMod.card p25519))
  have hpos : 0 < Nat.card (signed FpBar curve25519Curve ε) := Nat.card_pos
  exact ⟨m, Nat.pos_of_mul_pos_left (hm ▸ hpos), hm, hm ▸ hle⟩

theorem coprime_two_pow {r : ℕ} (hr : r.Prime) (h2 : 2 ≠ r) (k : ℕ) : (2 ^ k).Coprime r :=
  Nat.Coprime.pow_left k ((Nat.coprime_primes Nat.prime_two hr).mpr h2)

theorem addOrderOf_point {u : Fp} (hu : u ≠ 0) {P : CurvePoint}
    (hP : xCoord P = algebraMap Fp FpBar u) {r : ℕ} (hr : r.Prime) (hlt : r < 2 ^ 253)
    (h : (ladder (121665 : Fp) u (Scalar.bits 253 r)).2 = 0) : addOrderOf P = r := by
  have := Fact.mk hr
  refine addOrderOf_eq_prime ?_ fun h0 => ?_
  · have hz := (nsmul_eq_zero_iff hu hP _).mpr h
    rwa [Scalar.ofBits_bits, Nat.mod_eq_of_lt hlt] at hz
  · rw [h0] at hP
    exact hu ((map_eq_zero (algebraMap Fp FpBar)).mp hP.symm)

theorem addOrderOf_base {G : CurvePoint} (hG : xCoord G = algebraMap Fp FpBar (9 : ℕ)) :
    addOrderOf G = baseOrder := by
  obtain ⟨-, ⟨-, -, -, h9, -⟩, ⟨horder, -⟩, -⟩ := computed
  exact addOrderOf_point h9 hG baseOrder_prime (by norm_num [baseOrder]) horder

/-- The order of the curve is that of the base point, 9, and that of a point of order 8. -/
theorem card_curve : Nat.card (signed FpBar curve25519Curve 1) ∣ 8 * baseOrder := by
  obtain ⟨G, hG⟩ := exists_point (9 : ℕ)
  obtain ⟨T, hT⟩ := exists_point order8
  obtain ⟨-, ⟨-, -, -, -, -, h0, -⟩, ⟨-, -, hfour, height, -⟩, ⟨hsG, hsT, -⟩, -⟩ := computed
  have hGo := addOrderOf_base hG
  have hTo : addOrderOf T = 2 ^ (2 + 1) := by
    refine addOrderOf_eq_prime_pow (p := 2) (n := 2) (fun h4 => ?_) ?_
    · exact hfour ((nsmul_eq_zero_iff h0 hT [true, false, false]).mp h4)
    · exact (nsmul_eq_zero_iff h0 hT [true, false, false, false]).mpr height
  obtain ⟨m, hpos, hm, hle⟩ := signed_multiple (.inl rfl)
    (signed_point (.inl rfl) hT hsT) (signed_point (.inl rfl) hG hsG)
    (by rw [hTo, hGo]; exact coprime_two_pow baseOrder_prime (by norm_num [baseOrder]) 3)
  rw [hm, hTo, hGo]
  rw [hTo, hGo] at hle
  simp only [p25519, baseOrder] at hle ⊢
  obtain rfl : m = 1 := by omega
  exact dvd_rfl

/-- The order of the twist is that of its point 2, and 4 or 8, as it has a point of order 4. -/
theorem card_twist : Nat.card (signed FpBar curve25519Curve (-1)) ∣ 8 * twistOrder := by
  obtain ⟨G, hG⟩ := exists_point (2 : ℕ)
  obtain ⟨T, hT⟩ := exists_point (p25519 - 1 : ℕ)
  obtain ⟨-, ⟨-, -, -, -, h2, -, h0, -⟩, ⟨-, horder, -, -, htwo, hfour⟩, ⟨-, -, hsG, hsT⟩, -⟩ :=
    computed
  have hGo : addOrderOf G = twistOrder :=
    addOrderOf_point h2 hG twistOrder_prime (by norm_num [twistOrder]) horder
  have hTo : addOrderOf T = 2 ^ (1 + 1) := by
    refine addOrderOf_eq_prime_pow (p := 2) (n := 1) (fun h4 => ?_) ?_
    · exact htwo ((nsmul_eq_zero_iff h0 hT [true, false]).mp h4)
    · exact (nsmul_eq_zero_iff h0 hT [true, false, false]).mpr hfour
  obtain ⟨m, hpos, hm, hle⟩ := signed_multiple (.inr rfl) (signed_point (.inr rfl) hT hsT)
    (signed_point (.inr rfl) hG hsG)
    (by rw [hTo, hGo]; exact coprime_two_pow twistOrder_prime (by norm_num [twistOrder]) 2)
  rw [hm, hTo, hGo]
  rw [hTo, hGo] at hle
  simp only [p25519, twistOrder] at hle ⊢
  obtain rfl | rfl : m = 1 ∨ m = 2 := by omega
  · exact ⟨2, rfl⟩
  · exact dvd_rfl

/-- The points that a number takes to infinity which neither order divides. -/
theorem eight_nsmul {P : CurvePoint} {u : Fp} (hP : xCoord P = algebraMap Fp FpBar u) {n : ℕ}
    (hn : n • P = 0) (hb : ¬ baseOrder ∣ n) (ht : ¬ twistOrder ∣ n) : 8 • P = 0 := by
  rcases exists_signed P u hP with h | h
  · exact torsion baseOrder_prime card_curve h hn hb
  · exact torsion twistOrder_prime card_twist h hn ht

/-- A positive multiple of 8 below `2 ^ 255`, as every clamped scalar is. -/
structure Clamped (n : ℕ) : Prop where
  eight : 8 ∣ n
  pos : 0 < n
  lt : n < 2 ^ 255

theorem Clamped.coprime {n : ℕ} (h : Clamped n) {r : ℕ} (hr : r.Prime) (hlt : 2 ^ 252 ≤ r) {d : ℕ}
    (hd : d < 2 ^ 252) (hpos : 0 < d) : ¬ r ∣ d * n := by
  obtain ⟨⟨c, rfl⟩, h0, h255⟩ := h
  intro hdvd
  have hle : ∀ {a : ℕ}, r ∣ a → 0 < a → a < 2 ^ 252 → False := fun hra ha0 ha => by
    have := Nat.le_of_dvd ha0 hra
    omega
  rcases hr.dvd_mul.mp hdvd with h | h
  · exact hle h hpos hd
  rcases hr.dvd_mul.mp h with h | h
  · exact hle h (by norm_num) (by norm_num)
  · exact hle h (by omega) (by omega)

/-- Whether a clamped scalar takes a point to 0 depends on the point alone. -/
theorem multiple_eq_zero_iff {n : ℕ} (hn : Clamped n) {u : Fp} {P : CurvePoint}
    (hP : xCoord P = algebraMap Fp FpBar u) : multiple n u = 0 ↔ 8 • P = 0 := by
  have hspec := multiple_spec hn.lt hP
  constructor
  · intro h0
    rw [h0, map_zero] at hspec
    have h2 := curve_montgomery.add_self_of_xCoord hspec
    rw [← two_nsmul, ← mul_nsmul'] at h2
    exact eight_nsmul hP h2
      (hn.coprime baseOrder_prime (by norm_num [baseOrder]) (by norm_num) (by norm_num))
      (hn.coprime twistOrder_prime (by norm_num [twistOrder]) (by norm_num) (by norm_num))
  · intro h8
    obtain ⟨c, hc⟩ := hn.eight
    have h0 : n • P = 0 := by rw [hc, mul_comm, mul_nsmul', h8, nsmul_zero]
    rw [h0] at hspec
    exact (map_eq_zero (algebraMap Fp FpBar)).mp hspec.symm

/-! ## Points of low order -/

theorem not_isSquare {a : ℕ} {x : Fp} (h : legendre a ≠ 1) (ha : (a : Fp) = x) (h0 : x ≠ 0) :
    ¬ IsSquare x := by
  subst ha
  rwa [ZMod.euler_criterion p25519 h0, euler_pow]

theorem double_lowOrder (u : Fp) :
    (double 121665 (double 121665 (double 121665 (u, 1)))).2 = 0 ↔ u ∈ lowOrder := by
  obtain ⟨-, ⟨h2, -, hconst, -, -, -, -, hs, ht, hlow⟩, -, -, ⟨l₁, e₁, n₁⟩, ⟨l₂, e₂, n₂⟩,
    l₃, e₃, n₃⟩ := computed
  rw [hlow]
  exact eight_infinite hconst h2 hs ht (not_isSquare l₁ e₁ n₁) (not_isSquare l₂ e₂ n₂)
    (not_isSquare l₃ e₃ n₃) u

theorem map_double (R : Fp × Fp) :
    double (algebraMap Fp FpBar 121665) (algebraMap Fp FpBar R.1, algebraMap Fp FpBar R.2)
    = (algebraMap Fp FpBar (double 121665 R).1, algebraMap Fp FpBar (double 121665 R).2) := by
  simp [double]

/-- The points of the list, and no others. -/
theorem eight_nsmul_iff {u : Fp} {P : CurvePoint} (hP : xCoord P = algebraMap Fp FpBar u) :
    8 • P = 0 ↔ u ∈ lowOrder := by
  by_cases hu : u = 0
  · subst hu
    have h2 := curve_montgomery.add_self_of_xCoord (hP.trans (map_zero _))
    have h8 : 8 • P = 0 := by
      rw [show 8 = 2 * 4 from rfl, mul_nsmul, two_nsmul, h2, nsmul_zero]
    exact iff_of_true h8 (by simp [lowOrder])
  have hx : xCoord P ≠ 0 := by
    rw [hP, ← map_zero (algebraMap Fp FpBar)]
    exact ne_of_fp hu
  have h1 : Rep P (algebraMap Fp FpBar (u, (1 : Fp)).1, algebraMap Fp FpBar (u, (1 : Fp)).2) := by
    have := rep_xCoord hx
    rwa [hP, ← map_one (algebraMap Fp FpBar)] at this
  have hdbl : ∀ {Q : CurvePoint} {R : Fp × Fp},
      Rep Q (algebraMap Fp FpBar R.1, algebraMap Fp FpBar R.2) →
      Rep (Q + Q) (algebraMap Fp FpBar (double 121665 R).1,
        algebraMap Fp FpBar (double 121665 R).2) :=
    fun {Q R} h => map_double R ▸ curve_montgomery.rep_double h
  have h8 := hdbl (hdbl (hdbl h1))
  have heq : P + P + (P + P) + (P + P + (P + P)) = 8 • P := by
    simp only [← two_nsmul, ← mul_nsmul']
  rw [heq] at h8
  rw [h8.eq_zero_iff, map_eq_zero, double_lowOrder]

end PolarWG
