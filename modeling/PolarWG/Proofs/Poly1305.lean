import PolarWG.Poly1305
import PolarWG.Proofs.Bytes

/-!
# Poly1305 over pieces

The limbs stand for a number modulo `2 ^ 130 - 5`, and a block adds its bytes to it and multiplies.
However a message is cut into pieces, what was absorbed is its full blocks, and the rest is
buffered.
-/

namespace PolarWG

def poly1305Prime : ℕ := 2 ^ 130 - 5

/-! ## Masks and words -/

theorem and_split {a b c d k : ℕ} (ha : a < 2 ^ k) (hc : c < 2 ^ k) :
    (2 ^ k * b + a) &&& (2 ^ k * d + c) = 2 ^ k * (b &&& d) + (a &&& c) := by
  have hac : a &&& c < 2 ^ k := Nat.and_lt_two_pow a hc
  refine Nat.eq_of_testBit_eq fun j => ?_
  rw [Nat.testBit_and, Nat.testBit_two_pow_mul_add _ ha, Nat.testBit_two_pow_mul_add _ hc,
    Nat.testBit_two_pow_mul_add _ hac]
  split <;> rw [Nat.testBit_and]

/-- A mask of `n` ones from bit `k`, and `m` from the first. -/
theorem and_runs (x : ℕ) {m n k : ℕ} (hm : m ≤ k) :
    x &&& (2 ^ k * (2 ^ n - 1) + (2 ^ m - 1)) = 2 ^ k * (x / 2 ^ k % 2 ^ n) + x % 2 ^ m := by
  have hpow : 2 ^ m ≤ 2 ^ k := Nat.pow_le_pow_right (by decide) hm
  have hpos : 0 < 2 ^ m := by positivity
  have hlow : x % 2 ^ k % 2 ^ m = x % 2 ^ m := Nat.mod_mod_of_dvd x (Nat.pow_dvd_pow 2 hm)
  conv_lhs => rw [← Nat.div_add_mod x (2 ^ k)]
  rw [and_split (Nat.mod_lt _ (by positivity)) (by omega), Nat.and_two_pow_sub_one_eq_mod,
    Nat.and_two_pow_sub_one_eq_mod, hlow]

theorem and_mask26 (x : ℕ) : x &&& mask26 = x % 2 ^ 26 := Nat.and_two_pow_sub_one_eq_mod x 26

theorem or_shl32 {lo hi k j : ℕ} (hk : k + j = 32) (hlo : lo < 2 ^ k) :
    lo ||| shl32 hi k = lo + hi % 2 ^ j * 2 ^ k := by
  have hshl : shl32 hi k = hi % 2 ^ j * 2 ^ k := by
    rw [shl32, Nat.shiftLeft_eq, ← hk, Nat.add_comm k j, pow_add, Nat.mul_mod_mul_right]
  rw [hshl, Nat.or_comm, Nat.mul_comm, ← Nat.two_pow_add_eq_or_of_lt hlo, Nat.add_comm]

theorem le32At_eq (bs : Bytes) (off : ℕ) : le32At bs off = leDec (slice off 4 bs) := by
  have hlen := length_slice_le off 4 bs
  have hlt := leDec_lt (slice off 4 bs)
  have hle : 256 ^ (slice off 4 bs).length ≤ 256 ^ 4 := Nat.pow_le_pow_right (by decide) hlen
  rw [le32At, le32dec, UInt32.toNat_ofNat']
  exact Nat.mod_eq_of_lt (by omega)

theorem le32At_lt (bs : Bytes) (off : ℕ) : le32At bs off < 2 ^ 32 := UInt32.toNat_lt _

/-- Sixteen bytes are four words. -/
theorem leDec_words (m : Bytes) (off : ℕ) : leDec (slice off 16 m) = le32At m off
    + 2 ^ 32 * le32At m (off + 4) + 2 ^ 64 * le32At m (off + 8) + 2 ^ 96 * le32At m (off + 12) := by
  simp only [le32At_eq]
  rw [show 16 = 4 + (4 + (4 + 4)) from rfl, leDec_slice_add, leDec_slice_add, leDec_slice_add]
  norm_num [Nat.add_assoc]
  ring

/-! ## The accumulator -/

namespace Limbs26

def val (h : Limbs26) : ℕ :=
  h.l0 + 2 ^ 26 * h.l1 + 2 ^ 52 * h.l2 + 2 ^ 78 * h.l3 + 2 ^ 104 * h.l4

/-- What a block leaves. -/
structure Tight (h : Limbs26) : Prop where
  l0 : h.l0 < 2 ^ 26
  l1 : h.l1 < 2 ^ 26 + 2 ^ 6
  l2 : h.l2 < 2 ^ 26
  l3 : h.l3 < 2 ^ 26
  l4 : h.l4 < 2 ^ 26

/-- What is multiplied. -/
structure Loose (h : Limbs26) : Prop where
  l0 : h.l0 ≤ 2 ^ 27
  l1 : h.l1 ≤ 2 ^ 27 + 2 ^ 6
  l2 : h.l2 ≤ 2 ^ 27
  l3 : h.l3 ≤ 2 ^ 27
  l4 : h.l4 ≤ 2 ^ 26 + 2 ^ 25

/-- The limbs of a key. -/
structure Clamped (r : Limbs26) : Prop where
  l0 : r.l0 ≤ 2 ^ 26
  l1 : r.l1 ≤ 2 ^ 26
  l2 : r.l2 ≤ 2 ^ 26
  l3 : r.l3 ≤ 2 ^ 26
  l4 : r.l4 ≤ 2 ^ 20

/-- Every limb is below its radix. -/
structure Full (h : Limbs26) : Prop where
  l0 : h.l0 < 2 ^ 26
  l1 : h.l1 < 2 ^ 26
  l2 : h.l2 < 2 ^ 26
  l3 : h.l3 < 2 ^ 26
  l4 : h.l4 < 2 ^ 26

end Limbs26

variable {h r : Limbs26}

theorem modEq_of_add_mul {a b k : ℕ} (hk : a + poly1305Prime * k = b) :
    a ≡ b [MOD poly1305Prime] := by
  rw [← hk]
  exact (Nat.add_mul_mod_self_left _ _ _).symm

theorem limbDot64_eq {A g0 g1 g2 g3 g4 : ℕ} (h0 : h.l0 * g0 ≤ A) (h1 : h.l1 * g1 ≤ A)
    (h2 : h.l2 * g2 ≤ A) (h3 : h.l3 * g3 ≤ A) (h4 : h.l4 * g4 ≤ A) (hA : 5 * A < 2 ^ 64) :
    limbDot64 h g0 g1 g2 g3 g4
      = pure (h.l0 * g0 + h.l1 * g1 + h.l2 * g2 + h.l3 * g3 + h.l4 * g4) := by
  unfold limbDot64
  rw [wordMul_eq (by omega), wordMul_eq (by omega), wordMul_eq (by omega), wordMul_eq (by omega),
    wordMul_eq (by omega)]
  simp only [Traced.pure_bind]
  rw [wordAdd_eq (by omega), Traced.pure_bind, wordAdd_eq (by omega), Traced.pure_bind,
    wordAdd_eq (by omega), Traced.pure_bind, wordAdd_eq (by omega)]

theorem poly1305Carry_spec {d0 d1 d2 d3 d4 : ℕ} (h0 : d0 < 2 ^ 60) (h1 : d1 < 2 ^ 60)
    (h2 : d2 < 2 ^ 60) (h3 : d3 < 2 ^ 60) (h4 : d4 < 2 ^ 55) :
    (poly1305Carry d0 d1 d2 d3 d4).Returns fun h => h.Tight ∧ h.val
      ≡ d0 + 2 ^ 26 * d1 + 2 ^ 52 * d2 + 2 ^ 78 * d3 + 2 ^ 104 * d4 [MOD poly1305Prime] := by
  have hlow : ∀ x, x % 2 ^ 32 % 2 ^ 26 = x % 2 ^ 26 := fun x =>
    Nat.mod_mod_of_dvd x (Nat.pow_dvd_pow 2 (by decide))
  unfold poly1305Carry
  simp only [Nat.shiftRight_eq_div_pow, and_mask26, hlow]
  obtain ⟨c0, hc0⟩ : ∃ c, d0 / 2 ^ 26 = c := ⟨_, rfl⟩
  rw [hc0, wordAdd_eq (by omega), Traced.pure_bind]
  obtain ⟨c1, hc1⟩ : ∃ c, (d1 + c0) / 2 ^ 26 = c := ⟨_, rfl⟩
  rw [hc1, wordAdd_eq (by omega), Traced.pure_bind]
  obtain ⟨c2, hc2⟩ : ∃ c, (d2 + c1) / 2 ^ 26 = c := ⟨_, rfl⟩
  rw [hc2, wordAdd_eq (by omega), Traced.pure_bind]
  obtain ⟨c3, hc3⟩ : ∃ c, (d3 + c2) / 2 ^ 26 = c := ⟨_, rfl⟩
  rw [hc3, wordAdd_eq (by omega), Traced.pure_bind]
  obtain ⟨c4, hc4⟩ : ∃ c, (d4 + c3) / 2 ^ 26 = c := ⟨_, rfl⟩
  rw [hc4, wordMul_eq (by omega), Traced.pure_bind, wordCast_eq (by omega), Traced.pure_bind,
    wordAdd_eq (by omega), Traced.pure_bind]
  obtain ⟨c5, hc5⟩ : ∃ c, (d0 % 2 ^ 26 + c4 * 5) / 2 ^ 26 = c := ⟨_, rfl⟩
  rw [hc5, wordAdd_eq (by omega), Traced.pure_bind]
  refine .pure ⟨⟨?_, ?_, ?_, ?_, ?_⟩, modEq_of_add_mul (k := c4) ?_⟩ <;>
    simp only [Limbs26.val, poly1305Prime] <;> omega

theorem poly1305Mul_spec (hh : h.Loose) (hr : r.Clamped) :
    (poly1305Mul h r).Returns fun k => k.Tight ∧ k.val ≡ h.val * r.val [MOD poly1305Prime] := by
  obtain ⟨h0, h1, h2, h3, h4⟩ := hh
  obtain ⟨r0, r1, r2, r3, r4⟩ := hr
  have hany : ∀ {x y : ℕ}, x ≤ 2 ^ 27 + 2 ^ 6 → y ≤ 2 ^ 26 → x * y ≤ (2 ^ 27 + 2 ^ 6) * 2 ^ 26 :=
    fun hx hy => Nat.mul_le_mul hx hy
  have hhigh : ∀ {x y : ℕ}, x ≤ 2 ^ 27 + 2 ^ 6 → y ≤ 2 ^ 26 →
      x * (y * 5) ≤ 5 * ((2 ^ 27 + 2 ^ 6) * 2 ^ 26) := fun hx hy =>
    (Nat.mul_le_mul hx (Nat.mul_le_mul_right 5 hy)).trans (by norm_num)
  have hlow : ∀ {x y : ℕ}, x ≤ 2 ^ 27 + 2 ^ 6 → y ≤ 2 ^ 26 →
      x * y ≤ 5 * ((2 ^ 27 + 2 ^ 6) * 2 ^ 26) := fun hx hy => (hany hx hy).trans (by norm_num)
  have h0' : h.l0 ≤ 2 ^ 27 + 2 ^ 6 := by omega
  have h2' : h.l2 ≤ 2 ^ 27 + 2 ^ 6 := by omega
  have h3' : h.l3 ≤ 2 ^ 27 + 2 ^ 6 := by omega
  have h4' : h.l4 ≤ 2 ^ 27 + 2 ^ 6 := by omega
  have r4' : r.l4 ≤ 2 ^ 26 := by omega
  unfold poly1305Mul
  rw [wordMul_eq (by omega), wordMul_eq (by omega), wordMul_eq (by omega), wordMul_eq (by omega)]
  simp only [Traced.pure_bind]
  rw [limbDot64_eq (hlow h0' r0) (hhigh h1 r4') (hhigh h2' r3) (hhigh h3' r2) (hhigh h4' r1)
      (by norm_num),
    limbDot64_eq (hlow h0' r1) (hlow h1 r0) (hhigh h2' r4') (hhigh h3' r3) (hhigh h4' r2)
      (by norm_num),
    limbDot64_eq (hlow h0' r2) (hlow h1 r1) (hlow h2' r0) (hhigh h3' r4') (hhigh h4' r3)
      (by norm_num),
    limbDot64_eq (hlow h0' r3) (hlow h1 r2) (hlow h2' r1) (hlow h3' r0) (hhigh h4' r4')
      (by norm_num),
    limbDot64_eq (hlow h0' r4') (hlow h1 r3) (hlow h2' r2) (hlow h3' r1) (hlow h4' r0)
      (by norm_num)]
  simp only [Traced.pure_bind]
  refine (poly1305Carry_spec ?_ ?_ ?_ ?_ ?_).mono fun k hk => ⟨hk.1, hk.2.trans ?_⟩
  · have := hlow h0' r0; have := hhigh h1 r4'; have := hhigh h2' r3; have := hhigh h3' r2
    have := hhigh h4' r1; omega
  · have := hlow h0' r1; have := hlow h1 r0; have := hhigh h2' r4'; have := hhigh h3' r3
    have := hhigh h4' r2; omega
  · have := hlow h0' r2; have := hlow h1 r1; have := hlow h2' r0; have := hhigh h3' r4'
    have := hhigh h4' r3; omega
  · have := hlow h0' r3; have := hlow h1 r2; have := hlow h2' r1; have := hlow h3' r0
    have := hhigh h4' r4'; omega
  · -- the top limbs are smaller, which is what the last carry needs
    have := Nat.mul_le_mul h0 r4; have := Nat.mul_le_mul h1 r3; have := Nat.mul_le_mul h2 r2
    have := Nat.mul_le_mul h3 r1; have := Nat.mul_le_mul h4 r0; omega
  · refine modEq_of_add_mul (k := h.l1 * r.l4 + h.l2 * r.l3 + h.l3 * r.l2 + h.l4 * r.l1
      + 2 ^ 26 * (h.l2 * r.l4 + h.l3 * r.l3 + h.l4 * r.l2)
      + 2 ^ 52 * (h.l3 * r.l4 + h.l4 * r.l3) + 2 ^ 78 * (h.l4 * r.l4)) ?_
    simp only [Limbs26.val, poly1305Prime]
    ring

/-! ## Words into limbs -/

/-- The limbs of four words. -/
theorem limbs_of_words {t0 t1 t2 : ℕ} (t3 : ℕ) (b0 : t0 < 2 ^ 32) (b1 : t1 < 2 ^ 32)
    (b2 : t2 < 2 ^ 32) :
    (t0 >>> 26 ||| shl32 t1 6) = t0 / 2 ^ 26 + t1 % 2 ^ 26 * 2 ^ 6
      ∧ (t1 >>> 20 ||| shl32 t2 12) = t1 / 2 ^ 20 + t2 % 2 ^ 20 * 2 ^ 12
      ∧ (t2 >>> 14 ||| shl32 t3 18) = t2 / 2 ^ 14 + t3 % 2 ^ 14 * 2 ^ 18 := by
  simp only [Nat.shiftRight_eq_div_pow]
  exact ⟨or_shl32 rfl (by omega), or_shl32 rfl (by omega), or_shl32 rfl (by omega)⟩

theorem poly1305Add_spec (hh : h.Tight) (m : Bytes) {b : ℕ} (hb : b ≤ 1) :
    (poly1305Add h m (b * 2 ^ 24)).Returns fun k => k.Loose
      ∧ k.val = h.val + (leDec (slice 0 16 m) + 2 ^ 128 * b) := by
  obtain ⟨h0, h1, h2, h3, h4⟩ := hh
  have hm := leDec_words m 0
  simp only [Nat.zero_add] at hm
  rw [hm]
  have b0 := le32At_lt m 0
  have b1 := le32At_lt m 4
  have b2 := le32At_lt m 8
  have b3 := le32At_lt m 12
  unfold poly1305Add
  simp only []
  generalize le32At m 0 = t0 at *
  generalize le32At m 4 = t1 at *
  generalize le32At m 8 = t2 at *
  generalize le32At m 12 = t3 at *
  obtain ⟨e1, e2, e3⟩ := limbs_of_words t3 b0 b1 b2
  have e4 : t3 >>> 8 ||| b * 2 ^ 24 = t3 / 2 ^ 8 + 2 ^ 24 * b := by
    rw [Nat.shiftRight_eq_div_pow, Nat.or_comm, Nat.mul_comm,
      ← Nat.two_pow_add_eq_or_of_lt (by omega), Nat.add_comm]
  rw [e1, e2, e3, e4]
  simp only [and_mask26]
  have hl1 : (t0 / 2 ^ 26 + t1 % 2 ^ 26 * 2 ^ 6) % 2 ^ 26 = t0 / 2 ^ 26 + 2 ^ 6 * (t1 % 2 ^ 20) := by
    omega
  have hl2 : (t1 / 2 ^ 20 + t2 % 2 ^ 20 * 2 ^ 12) % 2 ^ 26
      = t1 / 2 ^ 20 + 2 ^ 12 * (t2 % 2 ^ 14) := by omega
  have hl3 : (t2 / 2 ^ 14 + t3 % 2 ^ 14 * 2 ^ 18) % 2 ^ 26
      = t2 / 2 ^ 14 + 2 ^ 18 * (t3 % 2 ^ 8) := by omega
  rw [hl1, hl2, hl3]
  rw [wordAdd_eq (by omega), Traced.pure_bind, wordAdd_eq (by omega), Traced.pure_bind,
    wordAdd_eq (by omega), Traced.pure_bind, wordAdd_eq (by omega), Traced.pure_bind,
    wordAdd_eq (by omega), Traced.pure_bind]
  refine .pure ⟨⟨by simp only []; omega, by simp only []; omega, by simp only []; omega,
    by simp only []; omega, by simp only []; omega⟩, ?_⟩
  simp only [Limbs26.val]
  omega

/-! ## The key -/

def poly1305Clamp (n : ℕ) : ℕ := n &&& 0x0ffffffc0ffffffc0ffffffc0fffffff

theorem poly1305Clamp_words {t0 t1 t2 t3 : ℕ} (b0 : t0 < 2 ^ 32) (b1 : t1 < 2 ^ 32)
    (b2 : t2 < 2 ^ 32) :
    poly1305Clamp (t0 + 2 ^ 32 * t1 + 2 ^ 64 * t2 + 2 ^ 96 * t3) = t0 % 2 ^ 28
      + 2 ^ 32 * (2 ^ 2 * (t1 / 2 ^ 2 % 2 ^ 26)) + 2 ^ 64 * (2 ^ 2 * (t2 / 2 ^ 2 % 2 ^ 26))
      + 2 ^ 96 * (2 ^ 2 * (t3 / 2 ^ 2 % 2 ^ 26)) := by
  have hrun : ∀ x, x &&& 0xffffffc = 2 ^ 2 * (x / 2 ^ 2 % 2 ^ 26) := fun x => by
    have := and_runs x (m := 0) (n := 26) (k := 2) (by decide)
    rw [pow_zero, Nat.mod_one, Nat.add_zero] at this
    exact this
  have hsum : t0 + 2 ^ 32 * t1 + 2 ^ 64 * t2 + 2 ^ 96 * t3
      = 2 ^ 32 * (2 ^ 32 * (2 ^ 32 * t3 + t2) + t1) + t0 := by ring
  have hmask : 0x0ffffffc0ffffffc0ffffffc0fffffff
      = 2 ^ 32 * (2 ^ 32 * (2 ^ 32 * 0xffffffc + 0xffffffc) + 0xffffffc) + (2 ^ 28 - 1) := by norm_num
  rw [poly1305Clamp, hsum, hmask, and_split b0 (by norm_num), and_split b1 (by norm_num),
    and_split b2 (by norm_num), hrun, hrun, hrun, Nat.and_two_pow_sub_one_eq_mod]
  ring

theorem clamped_limb1 {t0 t1 : ℕ} (b0 : t0 < 2 ^ 32) :
    (t0 / 2 ^ 26 + t1 % 2 ^ 26 * 2 ^ 6) / 2 ^ 8 % 2 ^ 18 = t1 / 2 ^ 2 % 2 ^ 18
      ∧ (t0 / 2 ^ 26 + t1 % 2 ^ 26 * 2 ^ 6) % 2 ^ 2 = t0 / 2 ^ 26 % 2 ^ 2 := by omega

theorem clamped_limb2 {t1 t2 : ℕ} (b1 : t1 < 2 ^ 32) :
    (t1 / 2 ^ 20 + t2 % 2 ^ 20 * 2 ^ 12) / 2 ^ 14 % 2 ^ 12 = t2 / 2 ^ 2 % 2 ^ 12
      ∧ (t1 / 2 ^ 20 + t2 % 2 ^ 20 * 2 ^ 12) % 2 ^ 8 = t1 / 2 ^ 20 % 2 ^ 8 := by omega

theorem clamped_limb3 {t2 t3 : ℕ} (b2 : t2 < 2 ^ 32) :
    (t2 / 2 ^ 14 + t3 % 2 ^ 14 * 2 ^ 18) / 2 ^ 20 % 2 ^ 6 = t3 / 2 ^ 2 % 2 ^ 6
      ∧ (t2 / 2 ^ 14 + t3 % 2 ^ 14 * 2 ^ 18) % 2 ^ 14 = t2 / 2 ^ 14 % 2 ^ 14 := by omega

theorem poly1305Init_spec (key : Bytes) : (poly1305Init key).r.Clamped
    ∧ (poly1305Init key).r.val = poly1305Clamp (leDec (slice 0 16 key)) := by
  have hm := leDec_words key 0
  simp only [Nat.zero_add] at hm
  rw [hm]
  have b0 := le32At_lt key 0
  have b1 := le32At_lt key 4
  have b2 := le32At_lt key 8
  have b3 := le32At_lt key 12
  rw [poly1305Clamp_words b0 b1 b2]
  unfold poly1305Init
  simp only []
  generalize le32At key 0 = t0 at *
  generalize le32At key 4 = t1 at *
  generalize le32At key 8 = t2 at *
  generalize le32At key 12 = t3 at *
  obtain ⟨e1, e2, e3⟩ := limbs_of_words t3 b0 b1 b2
  have r0 : t0 &&& 0x3ffffff = t0 % 2 ^ 26 := Nat.and_two_pow_sub_one_eq_mod t0 26
  have r1 : ∀ x, x &&& 0x3ffff03 = 2 ^ 8 * (x / 2 ^ 8 % 2 ^ 18) + x % 2 ^ 2 := fun x =>
    and_runs x (m := 2) (n := 18) (k := 8) (by decide)
  have r2 : ∀ x, x &&& 0x3ffc0ff = 2 ^ 14 * (x / 2 ^ 14 % 2 ^ 12) + x % 2 ^ 8 := fun x =>
    and_runs x (m := 8) (n := 12) (k := 14) (by decide)
  have r3 : ∀ x, x &&& 0x3f03fff = 2 ^ 20 * (x / 2 ^ 20 % 2 ^ 6) + x % 2 ^ 14 := fun x =>
    and_runs x (m := 14) (n := 6) (k := 20) (by decide)
  have r4 : t3 >>> 8 &&& 0x00fffff = t3 / 2 ^ 8 % 2 ^ 20 := by
    rw [Nat.shiftRight_eq_div_pow]
    exact Nat.and_two_pow_sub_one_eq_mod _ 20
  rw [e1, e2, e3, r0, r1, r2, r3, r4]
  refine ⟨⟨by simp only []; omega, by simp only []; omega, by simp only []; omega,
    by simp only []; omega, by simp only []; omega⟩, ?_⟩
  simp only [Limbs26.val]
  rw [(clamped_limb1 b0).1, (clamped_limb1 b0).2, (clamped_limb2 b1).1, (clamped_limb2 b1).2,
    (clamped_limb3 b2).1, (clamped_limb3 b2).2]
  have w0 : t0 % 2 ^ 26 + 2 ^ 26 * (t0 / 2 ^ 26 % 2 ^ 2) = t0 % 2 ^ 28 := by omega
  have w1 : 2 ^ 18 * (t1 / 2 ^ 20 % 2 ^ 8) + t1 / 2 ^ 2 % 2 ^ 18 = t1 / 2 ^ 2 % 2 ^ 26 := by omega
  have w2 : 2 ^ 12 * (t2 / 2 ^ 14 % 2 ^ 14) + t2 / 2 ^ 2 % 2 ^ 12 = t2 / 2 ^ 2 % 2 ^ 26 := by omega
  have w3 : 2 ^ 6 * (t3 / 2 ^ 8 % 2 ^ 20) + t3 / 2 ^ 2 % 2 ^ 6 = t3 / 2 ^ 2 % 2 ^ 26 := by omega
  rw [← w0, ← w1, ← w2, ← w3]
  ring

/-! ## The end -/

theorem poly1305Full_spec (hh : h.Tight) :
    (poly1305Full h).Returns fun k => k.Full ∧ k.val ≡ h.val [MOD poly1305Prime] := by
  obtain ⟨h0, h1, h2, h3, h4⟩ := hh
  unfold poly1305Full
  simp only [Nat.shiftRight_eq_div_pow, and_mask26]
  obtain ⟨c1, hc1⟩ : ∃ c, h.l1 / 2 ^ 26 = c := ⟨_, rfl⟩
  rw [hc1, wordAdd_eq (by omega), Traced.pure_bind]
  obtain ⟨c2, hc2⟩ : ∃ c, (h.l2 + c1) / 2 ^ 26 = c := ⟨_, rfl⟩
  rw [hc2, wordAdd_eq (by omega), Traced.pure_bind]
  obtain ⟨c3, hc3⟩ : ∃ c, (h.l3 + c2) / 2 ^ 26 = c := ⟨_, rfl⟩
  rw [hc3, wordAdd_eq (by omega), Traced.pure_bind]
  obtain ⟨c4, hc4⟩ : ∃ c, (h.l4 + c3) / 2 ^ 26 = c := ⟨_, rfl⟩
  rw [hc4, wordMul_eq (by omega), Traced.pure_bind, wordAdd_eq (by omega), Traced.pure_bind]
  obtain ⟨c0, hc0⟩ : ∃ c, (h.l0 + c4 * 5) / 2 ^ 26 = c := ⟨_, rfl⟩
  rw [hc0, wordAdd_eq (by omega), Traced.pure_bind]
  -- a carry out of the top limb began at the second, which is then small
  have hsmall : h.l1 % 2 ^ 26 + c0 < 2 ^ 26 := by omega
  refine .pure ⟨⟨by simp only []; omega, hsmall, by simp only []; omega, by simp only []; omega,
    by simp only []; omega⟩, modEq_of_add_mul (k := c4) ?_⟩
  simp only [Limbs26.val, poly1305Prime]
  omega

theorem poly1305Reduce_spec (hh : h.Full) :
    (poly1305Reduce h).Returns fun k => k.Full ∧ k.val = h.val % poly1305Prime := by
  have hfull := hh
  obtain ⟨h0, h1, h2, h3, h4⟩ := hh
  unfold poly1305Reduce
  simp only [Nat.shiftRight_eq_div_pow, and_mask26]
  obtain ⟨c0, hc0⟩ : ∃ c, (h.l0 + 5) / 2 ^ 26 = c := ⟨_, rfl⟩
  rw [wordAdd_eq (by omega), Traced.pure_bind, hc0]
  obtain ⟨c1, hc1⟩ : ∃ c, (h.l1 + c0) / 2 ^ 26 = c := ⟨_, rfl⟩
  rw [wordAdd_eq (by omega), Traced.pure_bind, hc1]
  obtain ⟨c2, hc2⟩ : ∃ c, (h.l2 + c1) / 2 ^ 26 = c := ⟨_, rfl⟩
  rw [wordAdd_eq (by omega), Traced.pure_bind, hc2]
  obtain ⟨c3, hc3⟩ : ∃ c, (h.l3 + c2) / 2 ^ 26 = c := ⟨_, rfl⟩
  rw [wordAdd_eq (by omega), Traced.pure_bind, hc3, wordAdd_eq (by omega), Traced.pure_bind]
  by_cases htop : h.l4 + c3 = 2 ^ 26
  · have hmask : ((h.l4 + c3 + (2 ^ 32 - 1 <<< 26)) % 2 ^ 32 / 2 ^ 31 + (2 ^ 32 - 1)) % 2 ^ 32
        = 2 ^ 32 - 1 := by
      rw [htop]
      decide
    have hsel : ∀ a b, b < 2 ^ 32 →
        (a &&& ((2 ^ 32 - 1) ^^^ (2 ^ 32 - 1)) ||| b &&& (2 ^ 32 - 1)) = b := fun a b hb => by
      rw [Nat.xor_self, Nat.and_zero, Nat.zero_or, Nat.and_two_pow_sub_one_eq_mod,
        Nat.mod_eq_of_lt hb]
    have hzero : (h.l4 + c3 + (2 ^ 32 - 1 <<< 26)) % 2 ^ 32 = 0 := by
      rw [htop]
      decide
    rw [hmask, hzero, hsel _ _ (by omega), hsel _ _ (by omega), hsel _ _ (by omega),
      hsel _ _ (by omega), hsel _ _ (by omega)]
    refine .pure ⟨⟨by simp only []; omega, by simp only []; omega, by simp only []; omega,
      by simp only []; omega, by simp only []; omega⟩, ?_⟩
    have hval : h.val % poly1305Prime = h.val - poly1305Prime := by
      rw [Nat.mod_eq_sub_mod, Nat.mod_eq_of_lt] <;> simp only [Limbs26.val, poly1305Prime] <;> omega
    rw [hval]
    simp only [Limbs26.val, poly1305Prime]
    omega
  · have hmask : ((h.l4 + c3 + (2 ^ 32 - 1 <<< 26)) % 2 ^ 32 / 2 ^ 31 + (2 ^ 32 - 1)) % 2 ^ 32
        = 0 := by
      have hshl : 1 <<< 26 = 2 ^ 26 := rfl
      rw [hshl]
      omega
    have hsel : ∀ a b, a < 2 ^ 32 → (a &&& (0 ^^^ (2 ^ 32 - 1)) ||| b &&& 0) = a := fun a b ha => by
      rw [Nat.zero_xor, Nat.and_zero, Nat.or_zero, Nat.and_two_pow_sub_one_eq_mod,
        Nat.mod_eq_of_lt ha]
    rw [hmask, hsel _ _ (by omega), hsel _ _ (by omega), hsel _ _ (by omega),
      hsel _ _ (by omega), hsel _ _ (by omega)]
    refine .pure ⟨hfull, (Nat.mod_eq_of_lt ?_).symm⟩
    simp only [Limbs26.val, poly1305Prime]
    omega

/-- Four words are sixteen bytes. -/
theorem leEnc_words (f0 f1 f2 f3 : ℕ) :
    leEnc 16 (f0 % 2 ^ 32 + 2 ^ 32 * (f1 % 2 ^ 32) + 2 ^ 64 * (f2 % 2 ^ 32) + 2 ^ 96 * f3)
      = leEnc 4 (f0 % 2 ^ 32) ++ leEnc 4 (f1 % 2 ^ 32) ++ leEnc 4 (f2 % 2 ^ 32)
        ++ leEnc 4 (f3 % 2 ^ 32) := by
  have hword : ∀ a b : ℕ, leEnc 4 (a % 2 ^ 32 + 2 ^ 32 * b) = leEnc 4 (a % 2 ^ 32) := fun a b => by
    rw [← leEnc_mod 4 (_ + _), ← leEnc_mod 4 (a % _)]
    congr 1
    omega
  rw [show 16 = 4 + (4 + (4 + 4)) from rfl, leEnc_append 4, leEnc_append 4, leEnc_append 4]
  have e : f0 % 2 ^ 32 + 2 ^ 32 * (f1 % 2 ^ 32) + 2 ^ 64 * (f2 % 2 ^ 32) + 2 ^ 96 * f3
      = f0 % 2 ^ 32 + 2 ^ 32 * (f1 % 2 ^ 32 + 2 ^ 32 * (f2 % 2 ^ 32 + 2 ^ 32 * f3)) := by ring
  have hdiv : ∀ a b : ℕ, (a % 2 ^ 32 + 2 ^ 32 * b) / 256 ^ 4 = b := fun a b => by omega
  rw [e, hdiv, hdiv, hdiv, hword, hword, hword, ← leEnc_mod 4 f3, List.append_assoc,
    List.append_assoc]
  rfl

theorem poly1305Tag_spec (hh : h.Full) {s0 s1 s2 s3 : ℕ} (b0 : s0 < 2 ^ 32) (b1 : s1 < 2 ^ 32)
    (b2 : s2 < 2 ^ 32) (b3 : s3 < 2 ^ 32) :
    (poly1305Tag h s0 s1 s2 s3).Returns (· = leEnc 16
      ((h.val + (s0 + 2 ^ 32 * s1 + 2 ^ 64 * s2 + 2 ^ 96 * s3)) % 2 ^ 128)) := by
  obtain ⟨h0, h1, h2, h3, h4⟩ := hh
  unfold poly1305Tag
  simp only [Nat.shiftRight_eq_div_pow]
  rw [or_shl32 (j := 6) rfl h0, or_shl32 (j := 12) rfl (by omega), or_shl32 (j := 18) rfl (by omega),
    or_shl32 (j := 24) rfl (by omega)]
  obtain ⟨w0, hw0⟩ : ∃ w, h.l0 + h.l1 % 2 ^ 6 * 2 ^ 26 = w := ⟨_, rfl⟩
  obtain ⟨w1, hw1⟩ : ∃ w, h.l1 / 2 ^ 6 + h.l2 % 2 ^ 12 * 2 ^ 20 = w := ⟨_, rfl⟩
  obtain ⟨w2, hw2⟩ : ∃ w, h.l2 / 2 ^ 12 + h.l3 % 2 ^ 18 * 2 ^ 14 = w := ⟨_, rfl⟩
  obtain ⟨w3, hw3⟩ : ∃ w, h.l3 / 2 ^ 18 + h.l4 % 2 ^ 24 * 2 ^ 8 = w := ⟨_, rfl⟩
  have l0 : w0 < 2 ^ 32 := by omega
  have l1 : w1 < 2 ^ 32 := by omega
  have l2 : w2 < 2 ^ 32 := by omega
  have l3 : w3 < 2 ^ 32 := by omega
  have hval : h.val % 2 ^ 128 = w0 + 2 ^ 32 * w1 + 2 ^ 64 * w2 + 2 ^ 96 * w3 := by
    rw [← hw0, ← hw1, ← hw2, ← hw3, Limbs26.val]
    omega
  rw [hw0, hw1, hw2, hw3, Nat.add_mod, hval]
  clear hw0 hw1 hw2 hw3 hval h0 h1 h2 h3 h4
  rw [wordAdd_eq (by omega), Traced.pure_bind, wordAdd_eq (by omega), Traced.pure_bind]
  obtain ⟨f0, hf0⟩ : ∃ f, w0 + s0 = f := ⟨_, rfl⟩
  rw [hf0, wordAdd_eq (by omega), Traced.pure_bind, wordAdd_eq (by omega), Traced.pure_bind]
  obtain ⟨f1, hf1⟩ : ∃ f, f0 / 2 ^ 32 + (w1 + s1) = f := ⟨_, rfl⟩
  rw [hf1, wordAdd_eq (by omega), Traced.pure_bind, wordAdd_eq (by omega), Traced.pure_bind]
  obtain ⟨f2, hf2⟩ : ∃ f, f1 / 2 ^ 32 + (w2 + s2) = f := ⟨_, rfl⟩
  rw [hf2, wordAdd_eq (by omega), Traced.pure_bind]
  obtain ⟨f3, hf3⟩ : ∃ f, f2 / 2 ^ 32 + (w3 + s3) = f := ⟨_, rfl⟩
  rw [hf3]
  refine .pure ?_
  have hsum : (w0 + 2 ^ 32 * w1 + 2 ^ 64 * w2 + 2 ^ 96 * w3)
      + (s0 + 2 ^ 32 * s1 + 2 ^ 64 * s2 + 2 ^ 96 * s3)
      = f0 % 2 ^ 32 + 2 ^ 32 * (f1 % 2 ^ 32) + 2 ^ 64 * (f2 % 2 ^ 32) + 2 ^ 96 * f3 := by omega
  have hwords : leEnc 16 ((w0 + 2 ^ 32 * w1 + 2 ^ 64 * w2 + 2 ^ 96 * w3)
      + (s0 + 2 ^ 32 * s1 + 2 ^ 64 * s2 + 2 ^ 96 * s3))
      = leEnc 4 (f0 % 2 ^ 32) ++ leEnc 4 (f1 % 2 ^ 32) ++ leEnc 4 (f2 % 2 ^ 32)
        ++ leEnc 4 (f3 % 2 ^ 32) := by
    rw [hsum]
    exact leEnc_words _ _ _ _
  rw [← hwords, Nat.add_mod_mod, show 2 ^ 128 = 256 ^ 16 by norm_num, leEnc_mod]

/-! ## Pieces -/

/-- The first blocks of a text, each with its terminator; the last may be shorter. -/
def poly1305Absorb (r : ℕ) (m : Bytes) (n : ℕ) : ℕ :=
  (List.range n).foldl
    (fun a i => (a + leDec (slice (16 * i) 16 m ++ [1])) * r % poly1305Prime) 0

def poly1305Accumulate (r : ℕ) (m : Bytes) : ℕ := poly1305Absorb r m ((m.length + 15) / 16)

def poly1305Mac (key m : Bytes) : Bytes :=
  leEnc 16 ((poly1305Accumulate (poly1305Clamp (leDec (slice 0 16 key))) m
    + leDec (slice 16 16 key)) % 2 ^ 128)

variable {key M m : Bytes} {n : ℕ} {ctx : Poly1305Ctx}

theorem poly1305Absorb_succ (r : ℕ) (m : Bytes) (n : ℕ) : poly1305Absorb r m (n + 1)
    = (poly1305Absorb r m n + leDec (slice (16 * n) 16 m ++ [1])) * r % poly1305Prime := by
  rw [poly1305Absorb, List.range_succ, List.foldl_append]
  rfl

theorem poly1305Absorb_lt (r : ℕ) (m : Bytes) : ∀ n, poly1305Absorb r m n < poly1305Prime
  | 0 => by
    rw [poly1305Prime]
    exact Nat.two_pow_pos 0 |>.trans_le (by norm_num)
  | n + 1 => by
    rw [poly1305Absorb_succ]
    exact Nat.mod_lt _ (by rw [poly1305Prime]; norm_num)

/-- Full blocks do not change when more follows. -/
theorem poly1305Absorb_append (r : ℕ) : ∀ {n : ℕ}, 16 * n ≤ M.length →
    poly1305Absorb r (M ++ m) n = poly1305Absorb r M n
  | 0, _ => rfl
  | n + 1, h => by
    have hslice : slice (16 * n) 16 (M ++ m) = slice (16 * n) 16 M := by
      rw [slice, slice, List.drop_append_of_le_length (by omega),
        List.take_append_of_le_length (by rw [List.length_drop]; omega)]
    rw [poly1305Absorb_succ, poly1305Absorb_succ, poly1305Absorb_append r (by omega), hslice]

/-- The blocks of `M` before the `n`th are in the accumulator. -/
structure Absorbed (key M : Bytes) (n : ℕ) (ctx : Poly1305Ctx) : Prop where
  frame : ctx = { poly1305Init key with h := ctx.h, buf := ctx.buf }
  tight : ctx.h.Tight
  val : ctx.h.val
    ≡ poly1305Absorb (poly1305Clamp (leDec (slice 0 16 key))) M n [MOD poly1305Prime]

theorem Absorbed.init (key : Bytes) : Absorbed key [] 0 (poly1305Init key) :=
  ⟨rfl, ⟨Nat.two_pow_pos 26, Nat.add_pos_left (Nat.two_pow_pos 26) _, Nat.two_pow_pos 26,
    Nat.two_pow_pos 26, Nat.two_pow_pos 26⟩, rfl⟩

theorem Absorbed.append (h : Absorbed key M n ctx) (hn : 16 * n ≤ M.length) (m : Bytes) :
    Absorbed key (M ++ m) n ctx :=
  ⟨h.frame, h.tight, by rw [poly1305Absorb_append _ hn]; exact h.val⟩

theorem Absorbed.setBuf (h : Absorbed key M n ctx) (buf : Bytes) :
    Absorbed key M n { ctx with buf } :=
  ⟨by rw [h.frame], h.tight, h.val⟩

/-- One more block, given as sixteen bytes that stand for it. -/
theorem Absorbed.block (h : Absorbed key M n ctx) {b : ℕ} (hb : b ≤ 1)
    (hm : leDec (slice 0 16 m) + 2 ^ 128 * b = leDec (slice (16 * n) 16 M ++ [1])) :
    (poly1305Block ctx m (b * 2 ^ 24)).Returns fun ctx' =>
      Absorbed key M (n + 1) ctx' ∧ ctx'.buf = ctx.buf := by
  have hr : ctx.r = (poly1305Init key).r := by rw [h.frame]
  obtain ⟨hclamped, hrval⟩ := poly1305Init_spec key
  rw [poly1305Block, hr]
  refine (poly1305Add_spec h.tight m hb).bind fun k ⟨hloose, hk⟩ =>
    (poly1305Mul_spec hloose hclamped).bind fun l ⟨htight, hl⟩ => .pure ⟨⟨?_, htight, ?_⟩, rfl⟩
  · rw [h.frame]
  · rw [poly1305Absorb_succ]
    refine hl.trans (Nat.ModEq.trans ?_ (Nat.mod_modEq _ _).symm)
    rw [hk, hm, hrval]
    exact (h.val.add_right _).mul_right _

/-- A full block, as it stands in the text. -/
theorem Absorbed.fullBlock (h : Absorbed key M n ctx) (hn : 16 * (n + 1) ≤ M.length) :
    (poly1305Block ctx (slice (16 * n) 16 M) (1 <<< 24)).Returns fun ctx' =>
      Absorbed key M (n + 1) ctx' ∧ ctx'.buf = ctx.buf := by
  have hlen : (slice (16 * n) 16 M).length = 16 := by
    rw [slice, List.length_take, List.length_drop]
    omega
  have hself : slice 0 16 (slice (16 * n) 16 M) = slice (16 * n) 16 M := by
    rw [slice, List.drop_zero, List.take_of_length_le (by omega)]
  refine h.block (b := 1) le_rfl ?_
  rw [hself, leDec_append, hlen, show leDec [1] = 1 from rfl]
  norm_num

theorem Absorbed.blocks (h : Absorbed key M n ctx) (hn : 16 * n ≤ M.length) (hbuf : ctx.buf = []) :
    (poly1305Blocks ctx (M.drop (16 * n))).Returns fun ctx' =>
      Absorbed key M (M.length / 16) ctx' ∧ ctx'.buf = M.drop (16 * (M.length / 16)) := by
  have hcount : (M.drop (16 * n)).length / 16 = M.length / 16 - n := by
    rw [List.length_drop]
    omega
  have hrun : ∀ (k j : ℕ) (ctx : Poly1305Ctx), Absorbed key M (n + j) ctx → ctx.buf = [] →
      n + j + k = M.length / 16 → ((List.range' j k).foldlM
        (fun ctx i => poly1305Block ctx (slice (16 * i) 16 (M.drop (16 * n))) (1 <<< 24)) ctx).Returns
        fun ctx' => Absorbed key M (M.length / 16) ctx' ∧ ctx'.buf = [] := by
    intro k
    induction k with
    | zero => exact fun j c hc hcbuf hk => .pure ⟨hk ▸ hc, hcbuf⟩
    | succ k ih =>
      intro j c hc hcbuf hk
      have hslice : slice (16 * j) 16 (M.drop (16 * n)) = slice (16 * (n + j)) 16 M := by
        rw [slice, List.drop_drop, ← Nat.mul_add, slice]
      rw [List.range'_succ, List.foldlM_cons, hslice]
      refine (hc.fullBlock (by omega)).bind ?_
      rintro c' ⟨hc', hcbuf'⟩
      exact ih (j + 1) c' hc' (hcbuf'.trans hcbuf) (by omega)
  have hrest : (M.drop (16 * n)).drop (16 * (M.length / 16 - n)) = M.drop (16 * (M.length / 16)) := by
    rw [List.drop_drop]
    congr 1
    omega
  rw [poly1305Blocks, hcount, hrest, List.range_eq_range']
  refine (hrun (M.length / 16 - n) 0 ctx h hbuf (by omega)).bind ?_
  rintro c ⟨hc, hcbuf⟩
  refine .pure ?_
  split
  · exact ⟨hc.setBuf _, rfl⟩
  next hempty =>
    exact ⟨hc, hcbuf.trans (List.eq_nil_of_length_eq_zero (by omega)).symm⟩

/-- What the context is after the pieces of `M`. -/
def Updated (key M : Bytes) (ctx : Poly1305Ctx) : Prop :=
  Absorbed key M (M.length / 16) ctx ∧ ctx.buf = M.drop (16 * (M.length / 16))

theorem Updated.update (h : Updated key M ctx) (m : Bytes) :
    (poly1305Update ctx m).Returns (Updated key (M ++ m)) := by
  obtain ⟨habs, hbuf⟩ := h
  have hlen : ctx.buf.length = M.length % 16 := by
    rw [hbuf, List.length_drop]
    omega
  have hfull : 16 * (M.length / 16) ≤ M.length := by omega
  have hdrop : (M ++ m).drop (16 * (M.length / 16)) = ctx.buf ++ m := by
    rw [List.drop_append_of_le_length hfull, hbuf]
  have happ := habs.append hfull m
  have hall : (M ++ m).length = M.length + m.length := List.length_append
  unfold poly1305Update
  split
  next hpos =>
    simp only []
    split
    next hshort =>
      have hsame : (M ++ m).length / 16 = M.length / 16 := by omega
      refine .pure ⟨?_, ?_⟩
      · rw [hsame]
        exact happ.setBuf _
      · rw [hsame, hdrop]
    next hlong =>
      have hblock : ctx.buf ++ m.take (16 - ctx.buf.length)
          = slice (16 * (M.length / 16)) 16 (M ++ m) := by
        rw [slice, hdrop, List.take_append,
          List.take_of_length_le (show ctx.buf.length ≤ 16 by omega)]
      have hrest : m.drop (16 - ctx.buf.length) = (M ++ m).drop (16 * (M.length / 16 + 1)) := by
        rw [Nat.mul_add, ← List.drop_drop, hdrop, List.drop_append,
          List.drop_of_length_le (show ctx.buf.length ≤ 16 * 1 by omega), List.nil_append]
      rw [hblock, hrest]
      refine (happ.fullBlock (by omega)).bind ?_
      rintro c ⟨hc, -⟩
      exact (hc.setBuf []).blocks (by omega) rfl
  next hzero =>
    have hnil : ctx.buf = [] := List.eq_nil_of_length_eq_zero (by omega)
    have hm : m = (M ++ m).drop (16 * (M.length / 16)) := by
      rw [hdrop, hnil, List.nil_append]
    conv => enter [1, 2]; rw [hm]
    exact happ.blocks (by omega) hnil

theorem Updated.pieces : ∀ (ms : List Bytes) {M : Bytes} {ctx : Poly1305Ctx}, Updated key M ctx →
    (ms.foldlM poly1305Update ctx).Returns (Updated key (M ++ ms.flatten))
  | [], M, ctx, h => by
    rw [List.flatten_nil, List.append_nil]
    exact .pure h
  | m :: ms, M, ctx, h => by
    rw [List.foldlM_cons, List.flatten_cons, ← List.append_assoc]
    exact (h.update m).bind fun _ h' => pieces ms h'

theorem Absorbed.close (h : Absorbed key M ((M.length + 15) / 16) ctx) :
    (do
      let h ← poly1305Full ctx.h
      let h ← poly1305Reduce h
      poly1305Tag h ctx.s0 ctx.s1 ctx.s2 ctx.s3).Returns (· = poly1305Mac key M) := by
  refine (poly1305Full_spec h.tight).bind fun f ⟨hfull, hf⟩ =>
    (poly1305Reduce_spec hfull).bind fun g ⟨hg, hgval⟩ => ?_
  have hval : g.val = poly1305Accumulate (poly1305Clamp (leDec (slice 0 16 key))) M := by
    rw [hgval, hf.trans h.val, poly1305Accumulate]
    exact Nat.mod_eq_of_lt (poly1305Absorb_lt _ _ _)
  rw [h.frame]
  refine (poly1305Tag_spec hg (le32At_lt key 16) (le32At_lt key 20) (le32At_lt key 24)
    (le32At_lt key 28)).mono fun t ht => ?_
  rw [ht, hval, poly1305Mac, leDec_words key 16]

/-- The buffered bytes, closed by a one and zeros, are the last block. -/
theorem Updated.finish (h : Updated key M ctx) :
    (poly1305Finish ctx).Returns (· = poly1305Mac key M) := by
  obtain ⟨habs, hbuf⟩ := h
  have hlen : ctx.buf.length = M.length % 16 := by
    rw [hbuf, List.length_drop]
    omega
  unfold poly1305Finish
  split
  next hpos =>
    have hslice : slice (16 * (M.length / 16)) 16 M = ctx.buf := by
      rw [slice, ← hbuf, List.take_of_length_le (by omega)]
    have hpad : slice 0 16 ((ctx.buf ++ 1 :: zeros 16).take 16)
        = (ctx.buf ++ [1]) ++ zeros (15 - ctx.buf.length) := by
      rw [slice, List.drop_zero, List.take_take, Nat.min_self, List.append_cons,
        List.take_append, List.take_of_length_le (by simp; omega), zeros, zeros,
        List.take_replicate, List.length_append]
      congr 2
      simp only [List.length_singleton]
      omega
    have hblock := habs.block (b := 0) (m := (ctx.buf ++ 1 :: zeros 16).take 16) (Nat.zero_le _) (by
      rw [hslice, hpad, leDec_append, leDec_zeros, Nat.mul_zero, Nat.mul_zero, Nat.add_zero])
    rw [show M.length / 16 + 1 = (M.length + 15) / 16 by omega] at hblock
    refine hblock.bind ?_
    rintro c ⟨hc, -⟩
    exact hc.close
  next hzero =>
    rw [show M.length / 16 = (M.length + 15) / 16 by omega] at habs
    exact habs.close

theorem poly1305_returns (key : Bytes) (ms : List Bytes) :
    (poly1305 key ms).Returns (· = poly1305Mac key ms.flatten) :=
  (Updated.pieces ms ⟨Absorbed.init key, rfl⟩).bind fun _ h => h.finish

/-- However a message is cut, its tag is the reference tag, and nothing wraps around. -/
theorem poly1305_chunking (key : Bytes) (ms : List Bytes) :
    poly1305 key ms = ⟨poly1305Mac key ms.flatten, true⟩ :=
  (poly1305_returns key ms).eq

end PolarWG
