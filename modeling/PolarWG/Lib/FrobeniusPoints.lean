import PolarWG.Lib.MontgomeryCurve

/-!
# The points that Frobenius fixes and those that it negates

A curve over a finite field, and its points over a larger field. A point whose x-coordinate is in the
finite field is one that Frobenius fixes, which is a point over the finite field, or one that it negates,
which is a point of the twist. Both kinds are finite groups of about the size of the field.
-/

namespace FrobeniusPoints

open WeierstrassCurve.Affine (Point)
open WeierstrassCurve.Affine
open Polynomial

variable {k K : Type*} [Field k] [Field K] [Algebra k K] {W : WeierstrassCurve.Affine k}

/-- What points are told apart by up to their signs. -/
def coordinate : (W⁄K).Point → Option K
  | .zero => none
  | .some x _ _ => some x

theorem eq_or_eq_neg {P Q : (W⁄K).Point} (h : coordinate P = coordinate Q) : P = Q ∨ P = -Q := by
  rcases P with _ | ⟨x, y, hP⟩ <;> rcases Q with _ | ⟨x', y', hQ⟩
  · exact .inl rfl
  · cases h
  · cases h
  · exact Point.X_eq_iff.mp (Option.some.inj h)

variable [Fintype k] [DecidableEq K]

variable (K W) in
noncomputable def frobenius : (W⁄K).Point →+ (W⁄K).Point :=
  Point.map (S := k) (FiniteField.frobeniusAlgHom k K)

variable (K W) in
/-- The points that Frobenius multiplies by `ε`, a sign. -/
noncomputable def signed (ε : ℤ) : AddSubgroup (W⁄K).Point :=
  (frobenius K W).eqLocus (zsmulAddGroupHom ε)

theorem mem_signed {ε : ℤ} {P : (W⁄K).Point} : P ∈ signed K W ε ↔ frobenius K W P = ε • P := Iff.rfl

theorem frobenius_some {x y : K} (h : (W⁄K).Nonsingular x y) :
    ∃ h', frobenius K W (.some x y h) = .some (x ^ Fintype.card k) (y ^ Fintype.card k) h' := ⟨_, rfl⟩

theorem pow_of_signed {ε : ℤ} (hε : ε = 1 ∨ ε = -1) {x y : K} {h : (W⁄K).Nonsingular x y}
    (hP : Point.some x y h ∈ signed K W ε) : x ^ Fintype.card k = x := by
  obtain ⟨h', hf⟩ := frobenius_some h
  have heq := hf.symm.trans (mem_signed.mp hP)
  rcases hε with rfl | rfl
  · rw [one_zsmul] at heq
    exact (Point.some.inj heq).1
  · rw [neg_one_zsmul, Point.neg_some] at heq
    exact (Point.some.inj heq).1

/-- A point with an x-coordinate in the finite field is of one of the two kinds. -/
theorem exists_signed (P : (W⁄K).Point) (u : k) (hx : Montgomery.xCoord P = algebraMap k K u) :
    P ∈ signed K W 1 ∨ P ∈ signed K W (-1) := by
  rcases P with _ | ⟨x, y, h⟩
  · exact .inl (zero_mem _)
  obtain rfl : x = algebraMap k K u := hx
  obtain ⟨h', hf⟩ := frobenius_some h
  have hpow : algebraMap k K u ^ Fintype.card k = algebraMap k K u := by
    rw [← map_pow, FiniteField.pow_card]
  have hcases : Point.some _ _ h' = .some _ _ h ∨ Point.some _ _ h' = -.some _ _ h :=
    Point.X_eq_iff.mp hpow
  rcases hcases with heq | heq
  · refine .inl (mem_signed.mpr ?_)
    rw [one_zsmul, hf, heq]
  · refine .inr (mem_signed.mpr ?_)
    rw [neg_one_zsmul, hf, heq]

theorem card_le_of_subset {ε : ℤ} (hε : ε = 1 ∨ ε = -1) {s : Finset (W⁄K).Point}
    (hs : ∀ P ∈ s, P ∈ signed K W ε) : s.card ≤ 2 * (Fintype.card k + 1) := by
  have hne : (X ^ Fintype.card k - X : K[X]) ≠ 0 :=
    FiniteField.X_pow_card_sub_X_ne_zero K Fintype.one_lt_card
  set roots := (X ^ Fintype.card k - X : K[X]).roots.toFinset with hroots
  have hcard : roots.card ≤ Fintype.card k := by
    refine (Multiset.toFinset_card_le _).trans ((Polynomial.card_roots' _).trans ?_)
    rw [FiniteField.X_pow_card_sub_X_natDegree_eq K Fintype.one_lt_card]
  have hmaps : ∀ P ∈ s, coordinate P ∈ Finset.insertNone roots := fun P hP => by
    rcases P with _ | ⟨x, y, h⟩
    · exact Finset.none_mem_insertNone
    · refine Finset.some_mem_insertNone.mpr ?_
      rw [hroots, Multiset.mem_toFinset, Polynomial.mem_roots hne]
      simp [pow_of_signed hε (hs _ hP)]
  have hfibre : ∀ b ∈ Finset.insertNone roots, (s.filter fun P => coordinate P = b).card ≤ 2 := by
    intro b _
    rcases (s.filter fun P => coordinate P = b).eq_empty_or_nonempty with h0 | ⟨Q, hQ⟩
    · rw [h0, Finset.card_empty]
      exact Nat.zero_le 2
    · refine (Finset.card_le_card fun P hP => ?_).trans (Finset.card_le_two (a := Q) (b := -Q))
      have h1 := (Finset.mem_filter.mp hP).2
      have h2 := (Finset.mem_filter.mp hQ).2
      rw [Finset.mem_insert, Finset.mem_singleton]
      exact eq_or_eq_neg (h1.trans h2.symm)
  refine (Finset.card_le_mul_card_image_of_maps_to hmaps 2 hfibre).trans ?_
  rw [Finset.card_insertNone]
  exact Nat.mul_le_mul_left 2 (Nat.succ_le_succ hcard)

theorem finite_signed {ε : ℤ} (hε : ε = 1 ∨ ε = -1) : Finite (signed K W ε) := by
  by_contra hno
  rw [not_finite_iff_infinite] at hno
  obtain ⟨s, hs, hcard⟩ := (Set.infinite_coe_iff.mp hno).exists_subset_card_eq
    (2 * (Fintype.card k + 1) + 1)
  have := card_le_of_subset hε (s := s) fun P hP => hs hP
  omega

theorem card_signed_le {ε : ℤ} (hε : ε = 1 ∨ ε = -1) :
    Nat.card (signed K W ε) ≤ 2 * (Fintype.card k + 1) := by
  have := finite_signed (K := K) (W := W) hε
  have hfin : (signed K W ε : Set (W⁄K).Point).Finite := Set.toFinite _
  have hle := card_le_of_subset hε (s := hfin.toFinset) fun P hP => hfin.mem_toFinset.mp hP
  rwa [← Set.ncard_eq_toFinset_card _ hfin] at hle

/-- On which side a point of a Montgomery curve is: whether the square of its y-coordinate is one in the
finite field. -/
theorem signed_of_pow {A a24 : K} (hW : Montgomery.IsMontgomery (W⁄K) A a24)
    (hodd : Odd (Fintype.card k)) {u v : k} {P : (W⁄K).Point}
    (hx : Montgomery.xCoord P = algebraMap k K u)
    (hv : algebraMap k K v = algebraMap k K u ^ 3 + A * algebraMap k K u ^ 2 + algebraMap k K u)
    {ε : ℤ} (hε : ε = 1 ∨ ε = -1) (hpow : v ^ (Fintype.card k / 2) = (ε : k)) : P ∈ signed K W ε := by
  rcases P with _ | ⟨x, y, h⟩
  · exact zero_mem _
  obtain rfl : x = algebraMap k K u := hx
  have hy : y ^ 2 = algebraMap k K v := (hW.equation_iff.mp h.1).trans hv.symm
  have hcard : 2 * (Fintype.card k / 2) + 1 = Fintype.card k := Nat.two_mul_div_two_add_one_of_odd hodd
  have hyq : y ^ Fintype.card k = (ε : K) * y := by
    rw [← hcard, pow_succ, pow_mul, hy, ← map_pow, hpow, map_intCast]
  have hxq : algebraMap k K u ^ Fintype.card k = algebraMap k K u := by
    rw [← map_pow, FiniteField.pow_card]
  obtain ⟨h', hf⟩ := frobenius_some h
  rw [mem_signed, hf]
  rcases hε with rfl | rfl
  · rw [one_zsmul, Point.some.injEq]
    exact ⟨hxq, by rw [hyq, Int.cast_one, one_mul]⟩
  · rw [neg_one_zsmul, Point.neg_some, Point.some.injEq]
    exact ⟨hxq, by rw [hyq, hW.negY]; simp⟩

/-! ## Torsion -/

/-- Elements that a number kills which has no factor in common with a large prime of the order. -/
theorem torsion {G : Type*} [AddCommGroup G] {H : AddSubgroup G} {r c : ℕ} (hr : r.Prime)
    (hcard : Nat.card H ∣ c * r) {P : G} (hP : P ∈ H) {n : ℕ} (hn : n • P = 0) (hrn : ¬ r ∣ n) :
    c • P = 0 := by
  have h1 : addOrderOf P ∣ n := addOrderOf_dvd_iff_nsmul_eq_zero.mpr hn
  have h2 : addOrderOf P ∣ c * r := by
    have := addOrderOf_dvd_natCard (⟨P, hP⟩ : H)
    rw [AddSubgroup.addOrderOf_mk] at this
    exact this.trans hcard
  have hco : (addOrderOf P).Coprime r :=
    ((hr.coprime_iff_not_dvd).mpr fun h => hrn (h.trans h1)).symm
  exact addOrderOf_dvd_iff_nsmul_eq_zero.mp (hco.dvd_of_dvd_mul_right h2)

end FrobeniusPoints
