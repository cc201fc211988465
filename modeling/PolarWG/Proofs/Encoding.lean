import PolarWG.Proofs.Bytes
import PolarWG.Proofs.Field

/-!
# Field elements and bytes

Limbs come out of 32 bytes, low byte first, and go back reduced.
-/

namespace PolarWG

variable {f g h : Fe}

theorem Fe.val_lt (h0 : f.l0 < 2 ^ 51) (h1 : f.l1 < 2 ^ 51) (h2 : f.l2 < 2 ^ 51)
    (h3 : f.l3 < 2 ^ 51) (h4 : f.l4 < 2 ^ 51) : f.val < 2 ^ 255 := by
  unfold Fe.val
  omega

theorem byteAt_lt (s : Bytes) (i : ℕ) : byteAt s i < 256 := UInt8.toNat_lt _

theorem leDec_eq_sum : ∀ (bs : Bytes) {n : ℕ}, bs.length ≤ n →
    leDec bs = ∑ i ∈ Finset.range n, byteAt bs i * 256 ^ i
  | [], n, _ => by simp [leDec, byteAt]
  | b :: bs, 0, h => by simp at h
  | b :: bs, n + 1, h => by
    rw [Finset.sum_range_succ', leDec, leDec_eq_sum bs (Nat.le_of_succ_le_succ h), Finset.mul_sum,
      Nat.add_comm]
    congr 1
    · refine Finset.sum_congr rfl fun i _ => ?_
      rw [pow_succ]
      simp only [byteAt, List.getD_cons_succ]
      ring
    · simp [byteAt]

/-- Where a byte lies across two limbs, the part that is carried over is the next limb's low end. -/
theorem limbs_sum {b S : ℕ → ℕ} (h0 : S 0 = 0) (hS : ∀ n, S (n + 1) = S n + b n * 256 ^ n)
    {t0 t1 t2 t3 t4 : ℕ}
    (ht0 : t0 = b 0 * 2 ^ 0 + (b 1 * 2 ^ 8 + (b 2 * 2 ^ 16 + (b 3 * 2 ^ 24 + (b 4 * 2 ^ 32
      + (b 5 * 2 ^ 40 + b 6 % 2 ^ 3 * 2 ^ 48))))))
    (ht1 : t1 = b 6 / 2 ^ 3 * 2 ^ 0 + (b 7 * 2 ^ 5 + (b 8 * 2 ^ 13 + (b 9 * 2 ^ 21 + (b 10 * 2 ^ 29
      + (b 11 * 2 ^ 37 + b 12 % 2 ^ 6 * 2 ^ 45))))))
    (ht2 : t2 = b 12 / 2 ^ 6 * 2 ^ 0 + (b 13 * 2 ^ 2 + (b 14 * 2 ^ 10 + (b 15 * 2 ^ 18
      + (b 16 * 2 ^ 26 + (b 17 * 2 ^ 34 + (b 18 * 2 ^ 42 + b 19 % 2 ^ 1 * 2 ^ 50)))))))
    (ht3 : t3 = b 19 / 2 ^ 1 * 2 ^ 0 + (b 20 * 2 ^ 7 + (b 21 * 2 ^ 15 + (b 22 * 2 ^ 23
      + (b 23 * 2 ^ 31 + (b 24 * 2 ^ 39 + b 25 % 2 ^ 4 * 2 ^ 47))))))
    (ht4 : t4 = b 25 / 2 ^ 4 * 2 ^ 0 + (b 26 * 2 ^ 4 + (b 27 * 2 ^ 12 + (b 28 * 2 ^ 20
      + (b 29 * 2 ^ 28 + (b 30 * 2 ^ 36 + b 31 % 2 ^ 7 * 2 ^ 44)))))) :
    t0 + 2 ^ 51 * t1 + 2 ^ 102 * t2 + 2 ^ 153 * t3 + 2 ^ 204 * t4 + 2 ^ 255 * (b 31 / 2 ^ 7)
      = S 32 := by
  have s0 : t0 + 2 ^ 51 * (b 6 / 2 ^ 3) = S 7 := by
    have : S 1 = _ := hS 0; have : S 2 = _ := hS 1; have : S 3 = _ := hS 2
    have : S 4 = _ := hS 3; have : S 5 = _ := hS 4; have : S 6 = _ := hS 5
    have : S 7 = _ := hS 6
    clear ht1 ht2 ht3 ht4
    omega
  have s1 : S 7 + 2 ^ 51 * t1 + 2 ^ 102 * (b 12 / 2 ^ 6) = S 13 + 2 ^ 51 * (b 6 / 2 ^ 3) := by
    have : S 8 = _ := hS 7; have : S 9 = _ := hS 8; have : S 10 = _ := hS 9
    have : S 11 = _ := hS 10; have : S 12 = _ := hS 11; have : S 13 = _ := hS 12
    clear s0 ht0 ht2 ht3 ht4
    omega
  have s2 : S 13 + 2 ^ 102 * t2 + 2 ^ 153 * (b 19 / 2 ^ 1) = S 20 + 2 ^ 102 * (b 12 / 2 ^ 6) := by
    have : S 14 = _ := hS 13; have : S 15 = _ := hS 14; have : S 16 = _ := hS 15
    have : S 17 = _ := hS 16; have : S 18 = _ := hS 17; have : S 19 = _ := hS 18
    have : S 20 = _ := hS 19
    clear s0 s1 ht0 ht1 ht3 ht4
    omega
  have s3 : S 20 + 2 ^ 153 * t3 + 2 ^ 204 * (b 25 / 2 ^ 4) = S 26 + 2 ^ 153 * (b 19 / 2 ^ 1) := by
    have : S 21 = _ := hS 20; have : S 22 = _ := hS 21; have : S 23 = _ := hS 22
    have : S 24 = _ := hS 23; have : S 25 = _ := hS 24; have : S 26 = _ := hS 25
    clear s0 s1 s2 ht0 ht1 ht2 ht4
    omega
  have s4 : S 26 + 2 ^ 204 * t4 + 2 ^ 255 * (b 31 / 2 ^ 7) = S 32 + 2 ^ 204 * (b 25 / 2 ^ 4) := by
    have : S 27 = _ := hS 26; have : S 28 = _ := hS 27; have : S 29 = _ := hS 28
    have : S 30 = _ := hS 29; have : S 31 = _ := hS 30; have : S 32 = _ := hS 31
    clear s0 s1 s2 s3 ht0 ht1 ht2 ht3
    omega
  clear ht0 ht1 ht2 ht3 ht4
  omega

/-- The bytes of a text of 32, the last one's top bit left out, in limbs. -/
theorem feFrombytes_spec {s : Bytes} (hs : s.length = 32) :
    (feFrombytes s).Returns fun h => h.Tight ∧ h.val = leDec s % 2 ^ 255 := by
  have hb := byteAt_lt s
  have hlow : ∀ i k, k < 8 → byteAt s i &&& (2 ^ k - 1) < 2 ^ k := fun i k _ =>
    Nat.and_lt_two_pow _ (Nat.sub_lt (by positivity) one_pos)
  have hhigh : ∀ i k j, k + j = 8 → byteAt s i >>> k < 2 ^ j := fun i k j hkj => by
    rw [Nat.shiftRight_eq_div_pow]
    exact Nat.div_lt_of_lt_mul (by rw [← pow_add, hkj]; exact hb i)
  unfold feFrombytes
  refine .bind (orShl_spec (n := 51) ?_ (by decide)) fun t0 ⟨b0, ht0⟩ => ?_
  · exact ⟨rfl, 8, hb 0, rfl, 8, hb 1, rfl, 8, hb 2, rfl, 8, hb 3, rfl, 8, hb 4, rfl, 8, hb 5,
      rfl, 3, hlow 6 3 (by decide), rfl⟩
  refine .bind (orShl_spec (n := 51) ?_ (by decide)) fun t1 ⟨b1, ht1⟩ => ?_
  · exact ⟨rfl, 5, hhigh 6 3 5 rfl, rfl, 8, hb 7, rfl, 8, hb 8, rfl, 8, hb 9, rfl, 8, hb 10,
      rfl, 8, hb 11, rfl, 6, hlow 12 6 (by decide), rfl⟩
  refine .bind (orShl_spec (n := 51) ?_ (by decide)) fun t2 ⟨b2, ht2⟩ => ?_
  · exact ⟨rfl, 2, hhigh 12 6 2 rfl, rfl, 8, hb 13, rfl, 8, hb 14, rfl, 8, hb 15, rfl, 8, hb 16,
      rfl, 8, hb 17, rfl, 8, hb 18, rfl, 1, hlow 19 1 (by decide), rfl⟩
  refine .bind (orShl_spec (n := 51) ?_ (by decide)) fun t3 ⟨b3, ht3⟩ => ?_
  · exact ⟨rfl, 7, hhigh 19 1 7 rfl, rfl, 8, hb 20, rfl, 8, hb 21, rfl, 8, hb 22, rfl, 8, hb 23,
      rfl, 8, hb 24, rfl, 4, hlow 25 4 (by decide), rfl⟩
  refine .bind (orShl_spec (n := 51) ?_ (by decide)) fun t4 ⟨b4, ht4⟩ => ?_
  · exact ⟨rfl, 4, hhigh 25 4 4 rfl, rfl, 8, hb 26, rfl, 8, hb 27, rfl, 8, hb 28, rfl, 8, hb 29,
      rfl, 8, hb 30, rfl, 7, hlow 31 7 (by decide), rfl⟩
  have h3 : ∀ x, x &&& 0x07 = x % 2 ^ 3 := fun x => Nat.and_two_pow_sub_one_eq_mod x 3
  have h6 : ∀ x, x &&& 0x3f = x % 2 ^ 6 := fun x => Nat.and_two_pow_sub_one_eq_mod x 6
  have h1' : ∀ x, x &&& 0x01 = x % 2 ^ 1 := fun x => Nat.and_two_pow_sub_one_eq_mod x 1
  have h4' : ∀ x, x &&& 0x0f = x % 2 ^ 4 := fun x => Nat.and_two_pow_sub_one_eq_mod x 4
  have h7 : ∀ x, x &&& 0x7f = x % 2 ^ 7 := fun x => Nat.and_two_pow_sub_one_eq_mod x 7
  simp only [sumShl, Nat.shiftRight_eq_div_pow,
    h3, h6, h1', h4', h7, add_zero] at ht0 ht1 ht2 ht3 ht4
  have hval := limbs_sum (b := byteAt s) (S := fun n => ∑ i ∈ Finset.range n, byteAt s i * 256 ^ i)
    (Finset.sum_range_zero _) (fun n => Finset.sum_range_succ _ n) ht0 ht1 ht2 ht3 ht4
  rw [← leDec_eq_sum s hs.le] at hval
  refine .pure ⟨⟨b0, b1.trans (by norm_num), b2, b3, b4⟩, ?_⟩
  rw [← hval, Nat.add_mul_mod_self_left]
  exact (Nat.mod_eq_of_lt (Fe.val_lt (f := ⟨t0, t1, t2, t3, t4⟩) b0 b1 b2 b3 b4)).symm


/-- Adding 19 carries into bit 255 where the modulus fits in. -/
theorem mod_eq_add_mod {v q : ℕ} (hv : v < 2 * p25519) (hq : q = (v + 19) / 2 ^ 255) :
    v % p25519 = (v + 19 * q) % 2 ^ 255 := by
  unfold p25519 at hv ⊢
  rcases (show q = 0 ∨ q = 1 by omega) with rfl | rfl
  · rw [Nat.mod_eq_of_lt (by omega), Nat.mod_eq_of_lt (by omega)]
    omega
  · have h1 : v % (2 ^ 255 - 19) = v - (2 ^ 255 - 19) := by
      rw [Nat.mod_eq_sub_mod (by omega), Nat.mod_eq_of_lt (by omega)]
    have h2 : (v + 19 * 1) % 2 ^ 255 = v + 19 * 1 - 2 ^ 255 := by
      rw [Nat.mod_eq_sub_mod (by omega), Nat.mod_eq_of_lt (by omega)]
    rw [h1, h2]
    omega

theorem feReduce_spec (hf : f.Tight) :
    (feReduce f).Returns fun t => t.val = f.val % p25519
      ∧ t.l0 < 2 ^ 51 ∧ t.l1 < 2 ^ 51 ∧ t.l2 < 2 ^ 51 ∧ t.l3 < 2 ^ 51 ∧ t.l4 < 2 ^ 51 := by
  obtain ⟨f0, f1, f2, f3, f4⟩ := hf
  unfold feReduce
  simp only [Nat.shiftRight_eq_div_pow, and_mask51]
  rw [wordAdd_eq (by omega), Traced.pure_bind, wordAdd_eq (by omega), Traced.pure_bind,
    wordAdd_eq (by omega), Traced.pure_bind, wordAdd_eq (by omega), Traced.pure_bind,
    wordAdd_eq (by omega), Traced.pure_bind]
  obtain ⟨q, hq⟩ : ∃ q, (f.l4 + (f.l3 + (f.l2 + (f.l1 + (f.l0 + 19) / 2 ^ 51) / 2 ^ 51) / 2 ^ 51)
    / 2 ^ 51) / 2 ^ 51 = q := ⟨_, rfl⟩
  have hval : q = (f.val + 19) / 2 ^ 255 := by
    unfold Fe.val
    omega
  have hlt : f.val < 2 * p25519 := by
    unfold Fe.val p25519
    omega
  rw [hq]
  rw [wordMul_eq (by omega), Traced.pure_bind, wordAdd_eq (by omega), Traced.pure_bind,
    wordAdd_eq (by omega), Traced.pure_bind, wordAdd_eq (by omega), Traced.pure_bind,
    wordAdd_eq (by omega), Traced.pure_bind, wordAdd_eq (by omega), Traced.pure_bind]
  refine .pure ⟨?_, Nat.mod_lt _ (by norm_num), Nat.mod_lt _ (by norm_num),
    Nat.mod_lt _ (by norm_num), Nat.mod_lt _ (by norm_num), Nat.mod_lt _ (by norm_num)⟩
  rw [mod_eq_add_mod hlt hval]
  obtain ⟨k0, hk0⟩ : ∃ k, (f.l0 + 19 * q) / 2 ^ 51 = k := ⟨_, rfl⟩
  rw [hk0]
  obtain ⟨k1, hk1⟩ : ∃ k, (f.l1 + k0) / 2 ^ 51 = k := ⟨_, rfl⟩
  rw [hk1]
  obtain ⟨k2, hk2⟩ : ∃ k, (f.l2 + k1) / 2 ^ 51 = k := ⟨_, rfl⟩
  rw [hk2]
  obtain ⟨k3, hk3⟩ : ∃ k, (f.l3 + k2) / 2 ^ 51 = k := ⟨_, rfl⟩
  rw [hk3]
  have hsum : f.val + 19 * q = (f.l0 + 19 * q) % 2 ^ 51 + 2 ^ 51 * ((f.l1 + k0) % 2 ^ 51)
      + 2 ^ 102 * ((f.l2 + k1) % 2 ^ 51) + 2 ^ 153 * ((f.l3 + k2) % 2 ^ 51)
      + 2 ^ 204 * ((f.l4 + k3) % 2 ^ 51) + 2 ^ 255 * ((f.l4 + k3) / 2 ^ 51) := by
    unfold Fe.val
    omega
  rw [hsum, Nat.add_mul_mod_self_left]
  exact (Nat.mod_eq_of_lt (Fe.val_lt (f := ⟨_, _, _, _, _⟩) (Nat.mod_lt _ (by norm_num))
    (Nat.mod_lt _ (by norm_num)) (Nat.mod_lt _ (by norm_num)) (Nat.mod_lt _ (by norm_num))
    (Nat.mod_lt _ (by norm_num)))).symm

theorem leEnc_eq_map : ∀ k n : ℕ, leEnc k n = (List.range k).map fun i => UInt8.ofNat (n / 256 ^ i)
  | 0, _ => rfl
  | k + 1, n => by
    rw [leEnc, leEnc_eq_map k, List.range_succ_eq_map, List.map_cons, List.map_map]
    simp only [pow_zero, Nat.div_one, Function.comp_def, Nat.succ_eq_add_one, pow_succ',
      Nat.div_div_eq_div_mul]

theorem ofNat_eq_ofNat {x y : ℕ} (h : x % 256 = y % 256) : UInt8.ofNat x = UInt8.ofNat y :=
  UInt8.toNat_inj.mp (by simpa using h)

theorem feStore_spec {t : Fe} (h0 : t.l0 < 2 ^ 51) (h1 : t.l1 < 2 ^ 51) (h2 : t.l2 < 2 ^ 51)
    (h3 : t.l3 < 2 ^ 51) (h4 : t.l4 < 2 ^ 51) :
    (feStore t).Returns (· = leEnc 32 t.val) := by
  have hor : ∀ {x y k : ℕ}, x < 2 ^ k → x ||| y * 2 ^ k = x + y * 2 ^ k := fun {x y k} hx => by
    rw [Nat.or_comm, Nat.mul_comm, ← Nat.two_pow_add_eq_or_of_lt hx, Nat.add_comm]
  unfold feStore
  rw [wordShl_eq (by omega), Traced.pure_bind, wordShl_eq (by omega), Traced.pure_bind,
    wordShl_eq (by omega), Traced.pure_bind, wordShl_eq (by omega), Traced.pure_bind]
  simp only [Nat.shiftRight_eq_div_pow]
  rw [hor (by omega), hor (by omega), hor (by omega), hor (by omega)]
  refine .pure ?_
  rw [leEnc_eq_map]
  obtain ⟨l0, l1, l2, l3, l4⟩ := t
  simp only [Fe.val] at *
  simp only [List.map_cons, List.map_nil, List.range, List.range.loop]
  repeat' apply congrArg₂ List.cons
  all_goals first | rfl | (refine ofNat_eq_ofNat ?_; omega)

/-- The bytes of the number that the limbs stand for, reduced. -/
theorem feTobytes_spec (hf : f.Tight) :
    (feTobytes f).Returns (· = leEnc 32 f.elem.val) := by
  refine (feReduce_spec hf).bind fun t ⟨ht, h0, h1, h2, h3, h4⟩ => ?_
  refine (feStore_spec h0 h1 h2 h3 h4).mono fun bs hbs => ?_
  rw [hbs, ht, Fe.elem, ZMod.val_natCast]

end PolarWG
