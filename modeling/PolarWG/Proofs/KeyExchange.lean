import PolarWG.Proofs.CurvePoints
import PolarWG.Proofs.Aead
import PolarWG.Proofs.Blake2s

/-!
# The key exchange

What `curve25519_portable.c` computes is a multiple of a point, so two ends come to one secret, and
which public keys it refuses does not depend on the secret. With that the primitives of this
repository are what the session's results ask for.
-/

namespace PolarWG

open Montgomery
open WeierstrassCurve.Affine (Point)

/-! ## Multiples -/

theorem multiple_comm {m n : ℕ} (hm : m < 2 ^ 255) (hn : n < 2 ^ 255) (u : Fp) :
    multiple m (multiple n u) = multiple n (multiple m u) := by
  obtain ⟨P, hP⟩ := exists_point u
  have hmn := multiple_spec hm (multiple_spec hn hP)
  have hnm := multiple_spec hn (multiple_spec hm hP)
  refine (algebraMap Fp FpBar).injective ?_
  rw [← hmn, ← hnm, ← mul_nsmul', ← mul_nsmul', mul_comm]

/-- No public key is of low order. -/
theorem multiple_ne_zero {m n : ℕ} (hm : Clamped m) (hn : Clamped n) :
    multiple m (multiple n (9 : ℕ)) ≠ 0 := by
  obtain ⟨G, hG⟩ := exists_point (9 : ℕ)
  rw [Ne, multiple_eq_zero_iff hm (multiple_spec hn.lt hG), ← mul_nsmul',
    ← addOrderOf_dvd_iff_nsmul_eq_zero, addOrderOf_base hG]
  exact hn.coprime baseOrder_prime (by norm_num [baseOrder]) (by norm_num) (by norm_num)

theorem multiple_lowOrder {n : ℕ} (hn : Clamped n) (u : Fp) : multiple n u = 0 ↔ u ∈ lowOrder := by
  obtain ⟨P, hP⟩ := exists_point u
  rw [multiple_eq_zero_iff hn hP, eight_nsmul_iff hP]

/-! ## Bytes -/

theorem x25519_multiple (k u : Bytes) :
    x25519 k u = leEnc 32 (multiple (decodeScalar k) (decodeUCoordinate u)).val := rfl

theorem decodeUCoordinate_leEnc (v : Fp) : decodeUCoordinate (leEnc 32 v.val) = v := by
  have hv : v.val < 2 ^ 255 := v.val_lt.trans (by decide)
  rw [decodeUCoordinate_eq (length_leEnc 32 _), leDec_leEnc,
    Nat.mod_eq_of_lt (hv.trans (by norm_num)), Nat.mod_eq_of_lt hv, ZMod.natCast_zmod_val]

theorem clampSecret_eq (a b : UInt8) (mid : Bytes) (hmid : mid.length = 30) :
    curve25519ClampSecret (a :: (mid ++ [b])) = (a &&& 248) :: (mid ++ [b &&& 127 ||| 64]) := by
  simp [curve25519ClampSecret, ← hmid]

theorem clamp_masks : ∀ n : Fin 256, 8 ∣ n.val &&& 248
    ∧ 64 ≤ n.val &&& 127 ||| 64 ∧ n.val &&& 127 ||| 64 < 128 := by
  decide +kernel

theorem clamp_low (a : UInt8) : 8 ∣ (a &&& 248).toNat := by
  rw [UInt8.toNat_and]
  exact (clamp_masks ⟨a.toNat, a.toNat_lt⟩).1

theorem clamp_high (b : UInt8) : 64 ≤ (b &&& 127 ||| 64).toNat ∧ (b &&& 127 ||| 64).toNat < 128 := by
  rw [UInt8.toNat_or, UInt8.toNat_and]
  exact (clamp_masks ⟨b.toNat, b.toNat_lt⟩).2

theorem clamped_decodeScalar {k : Bytes} (hk : k.length = 32) : Clamped (decodeScalar k) := by
  obtain ⟨a, k, rfl⟩ := List.exists_cons_of_length_eq_add_one hk
  obtain ⟨mid, b, rfl⟩ := List.eq_nil_or_concat k |>.resolve_left (by rintro rfl; cases hk)
  rw [List.concat_eq_append] at hk ⊢
  have hmid : mid.length = 30 := by simpa using hk
  have hlt := leDec_lt mid
  obtain ⟨hlow, hhigh⟩ := clamp_high b
  have ha := (a &&& 248).toNat_lt
  obtain ⟨c, hc⟩ := clamp_low a
  have hval : decodeScalar (a :: (mid ++ [b]))
      = (a &&& 248).toNat + 256 * (leDec mid + 256 ^ 30 * (b &&& 127 ||| 64).toNat) := by
    rw [decodeScalar, clampSecret_eq a b mid hmid, leDec, leDec_append, hmid]
    simp [leDec]
  rw [hmid] at hlt
  rw [hval]
  refine ⟨⟨c + 32 * (leDec mid + 256 ^ 30 * (b &&& 127 ||| 64).toNat), by omega⟩, by omega, by omega⟩

theorem foldl_or_eq_zero : ∀ (bs : Bytes) (b : UInt8),
    bs.foldl (· ||| ·) b = 0 ↔ b = 0 ∧ bs = zeros bs.length
  | [], b => by simp [zeros]
  | c :: bs, b => by
    have h : b ||| c = 0 ↔ b = 0 ∧ c = 0 := UInt8.or_eq_zero_iff
    have hz : zeros (bs.length + 1) = 0 :: zeros bs.length := rfl
    rw [List.foldl_cons, foldl_or_eq_zero bs, h, List.length_cons, hz, List.cons.injEq, and_assoc]

theorem leEnc_eq_zeros {v : Fp} : leEnc 32 v.val = zeros 32 ↔ v = 0 := by
  constructor
  · intro h
    have := decodeUCoordinate_leEnc v
    rw [h] at this
    rw [← this]
    rfl
  · rintro rfl
    rfl

/-! ## The functions -/

theorem length_basepoint : basepoint.length = 32 := rfl

theorem curve25519GeneratePublic_eq (priv : Bytes) : curve25519GeneratePublic priv
    = pure (leEnc 32 (multiple (decodeScalar priv) (9 : ℕ)).val, 1) := by
  rw [curve25519GeneratePublic, (x25519Ladder_returns length_basepoint).eq]
  rfl

theorem curve25519_eq (priv : Bytes) {pub : Bytes} (hpub : pub.length = 32) :
    curve25519 priv pub
      = pure (leEnc 32 (multiple (decodeScalar priv) (decodeUCoordinate pub)).val,
          if multiple (decodeScalar priv) (decodeUCoordinate pub) = 0 then 0 else 1) := by
  rw [curve25519, (x25519Ladder_returns hpub).eq]
  change pure (x25519 priv pub, if (x25519 priv pub).foldl (· ||| ·) 0 ≠ 0 then 1 else 0) = _
  have hzero : (x25519 priv pub).foldl (· ||| ·) 0 = 0
      ↔ multiple (decodeScalar priv) (decodeUCoordinate pub) = 0 := by
    rw [foldl_or_eq_zero, x25519_multiple, length_leEnc, leEnc_eq_zeros]
    exact and_iff_right rfl
  rw [x25519_multiple] at hzero ⊢
  by_cases h : multiple (decodeScalar priv) (decodeUCoordinate pub) = 0
  · rw [if_pos h, if_neg (not_not.mpr (hzero.mpr h))]
  · rw [if_neg h, if_pos (fun h0 => h (hzero.mp h0))]

theorem length_generatePublic (priv : Bytes) :
    (curve25519GeneratePublic priv).val.1.length = 32 := by
  rw [curve25519GeneratePublic_eq]
  exact length_leEnc 32 _

theorem curve25519_public (a b : Bytes) : curve25519 a (curve25519GeneratePublic b).val.1
    = pure (leEnc 32 (multiple (decodeScalar a) (multiple (decodeScalar b) (9 : ℕ))).val,
        if multiple (decodeScalar a) (multiple (decodeScalar b) (9 : ℕ)) = 0 then 0 else 1) := by
  have hdec : decodeUCoordinate (curve25519GeneratePublic b).val.1
      = multiple (decodeScalar b) (9 : ℕ) := by
    rw [curve25519GeneratePublic_eq]
    exact decodeUCoordinate_leEnc _
  rw [curve25519_eq a (length_generatePublic b), hdec]

/-- The output is the coordinate of the scalar's multiple of any point that the input is the
coordinate of, on the curve or on its twist. -/
theorem curve25519_multiplies {priv pub : Bytes} (hpriv : priv.length = 32) (hpub : pub.length = 32)
    {P : CurvePoint} (hP : xCoord P = algebraMap Fp FpBar (decodeUCoordinate pub)) :
    ∃ v : Fp, xCoord (decodeScalar priv • P) = algebraMap Fp FpBar v
      ∧ curve25519 priv pub = pure (leEnc 32 v.val, if v = 0 then 0 else 1) :=
  ⟨_, multiple_spec (clamped_decodeScalar hpriv).lt hP, curve25519_eq priv hpub⟩

theorem curve25519_multiplies_base : ∃ G : CurvePoint,
    xCoord G = algebraMap Fp FpBar (decodeUCoordinate basepoint)
    ∧ ∃ v : Fp, xCoord (decodeScalar (zeros 32) • G) = algebraMap Fp FpBar v
      ∧ curve25519 (zeros 32) basepoint = pure (leEnc 32 v.val, if v = 0 then 0 else 1) := by
  obtain ⟨G, hG⟩ := exists_point (decodeUCoordinate basepoint)
  exact ⟨G, hG, curve25519_multiplies rfl length_basepoint hG⟩

/-- Two ends come to one secret from each other's public keys, and it is not all zero. -/
theorem curve25519_shared {a b : Bytes} (ha : a.length = 32) (hb : b.length = 32) :
    ∃ ss, ss.length = 32 ∧ ss ≠ zeros 32
      ∧ curve25519 a (curve25519GeneratePublic b).val.1 = pure (ss, 1)
      ∧ curve25519 b (curve25519GeneratePublic a).val.1 = pure (ss, 1) := by
  have hca := clamped_decodeScalar ha
  have hcb := clamped_decodeScalar hb
  have hne := multiple_ne_zero hca hcb
  refine ⟨_, length_leEnc 32 (multiple (decodeScalar a) (multiple (decodeScalar b) (9 : ℕ))).val,
    mt leEnc_eq_zeros.mp hne, ?_, ?_⟩
  · rw [curve25519_public, if_neg hne]
  · rw [curve25519_public, multiple_comm hcb.lt hca.lt, if_neg hne]

theorem curve25519_shared_ends : ∃ ss, ss.length = 32 ∧ ss ≠ zeros 32
    ∧ curve25519 (zeros 32) (curve25519GeneratePublic (List.replicate 32 7)).val.1 = pure (ss, 1)
    ∧ curve25519 (List.replicate 32 7) (curve25519GeneratePublic (zeros 32)).val.1 = pure (ss, 1) :=
  curve25519_shared rfl rfl

/-- Which public keys are refused is a matter of five coordinates, and not of the secret. -/
theorem curve25519_refuses {priv pub : Bytes} (hpriv : priv.length = 32) (hpub : pub.length = 32) :
    ((curve25519 priv pub).val.2 = 0 ↔ decodeUCoordinate pub ∈ lowOrder)
      ∧ ((curve25519 priv pub).val.1 = zeros 32 ↔ decodeUCoordinate pub ∈ lowOrder) := by
  have hlow := multiple_lowOrder (clamped_decodeScalar hpriv) (decodeUCoordinate pub)
  rw [curve25519_eq priv hpub, ← hlow]
  generalize multiple (decodeScalar priv) (decodeUCoordinate pub) = v
  refine ⟨?_, leEnc_eq_zeros⟩
  change (if v = 0 then 0 else 1) = 0 ↔ v = 0
  by_cases h : v = 0
  · simp only [h, if_true]
  · simp only [h, if_false, one_ne_zero]

/-- The zero of `2 ^ 255 - 19`, which is not canonical. -/
theorem curve25519_refuses_noncanonical :
    ((curve25519 (zeros 32) (leEnc 32 p25519)).val.2 = 0
      ↔ decodeUCoordinate (leEnc 32 p25519) ∈ lowOrder)
    ∧ ((curve25519 (zeros 32) (leEnc 32 p25519)).val.1 = zeros 32
      ↔ decodeUCoordinate (leEnc 32 p25519) ∈ lowOrder) :=
  curve25519_refuses rfl (length_leEnc 32 _)

/-! ## The primitives of this repository -/

/-- An array of `n` bytes, as the C functions take and fill them. -/
def fit (n : ℕ) (bs : Bytes) : Bytes := (bs ++ zeros n).take n

theorem length_fit (n : ℕ) (bs : Bytes) : (fit n bs).length = n := by
  simp [fit, zeros]

/-- `none` where the function returns 0. -/
def filled (r : Bytes × ℕ) : Option Bytes := if r.2 = 0 then none else some r.1

/-- The portable implementations, and the platform's `inet_pton`. -/
def Prims.portable (inetPton : ℕ → Text → Option Bytes) : Prims where
  blake2s n key input := fit n (PolarWG.blake2s n key input)
  chacha20poly1305Encrypt key nonce ad src := (PolarWG.chacha20poly1305Encrypt src ad nonce key).val
  chacha20poly1305Decrypt key nonce ad src := (PolarWG.chacha20poly1305Decrypt src ad nonce key).val
  xchacha20poly1305Decrypt key nonce ad src := (xchacha20Poly1305Decrypt src ad nonce key).val
  curve25519 secret pub := filled (PolarWG.curve25519 (fit 32 secret) (fit 32 pub)).val
  curve25519GeneratePublic secret := filled (PolarWG.curve25519GeneratePublic (fit 32 secret)).val
  inetPton := inetPton

theorem fit_eq {n : ℕ} {bs : Bytes} (h : bs.length = n) : fit n bs = bs := by
  rw [fit, ← h, List.take_left]

section
variable (inetPton : ℕ → Text → Option Bytes)

theorem portable_generatePublic (secret : Bytes) :
    (Prims.portable inetPton).curve25519GeneratePublic secret
      = some (PolarWG.curve25519GeneratePublic (fit 32 secret)).val.1 := rfl

theorem portable_curve25519 (a pub : Bytes) : (Prims.portable inetPton).curve25519 a pub
    = if multiple (decodeScalar (fit 32 a)) (decodeUCoordinate (fit 32 pub)) = 0 then none
      else some (leEnc 32
        (multiple (decodeScalar (fit 32 a)) (decodeUCoordinate (fit 32 pub))).val) := by
  change filled (PolarWG.curve25519 (fit 32 a) (fit 32 pub)).val = _
  rw [curve25519_eq _ (length_fit 32 pub)]
  generalize multiple (decodeScalar (fit 32 a)) (decodeUCoordinate (fit 32 pub)) = v
  change filled (leEnc 32 v.val, if v = 0 then 0 else 1) = _
  by_cases h : v = 0
  · rw [if_pos h, if_pos h]
    rfl
  · rw [if_neg h, if_neg h]
    rfl

theorem portable_eq_none (a pub : Bytes) : (Prims.portable inetPton).curve25519 a pub = none
    ↔ decodeUCoordinate (fit 32 pub) ∈ lowOrder := by
  rw [portable_curve25519, ← multiple_lowOrder (clamped_decodeScalar (length_fit 32 a))]
  simp only [ite_eq_left_iff, reduceCtorEq, imp_false, not_not]

theorem portable_public (a b : Bytes) {pub : Bytes}
    (h : (Prims.portable inetPton).curve25519GeneratePublic b = some pub) :
    (Prims.portable inetPton).curve25519 a pub
      = some (leEnc 32 (multiple (decodeScalar (fit 32 a))
          (multiple (decodeScalar (fit 32 b)) (9 : ℕ))).val) := by
  obtain rfl := Option.some.inj ((portable_generatePublic inetPton b).symm.trans h)
  have hne := multiple_ne_zero (clamped_decodeScalar (length_fit 32 a))
    (clamped_decodeScalar (length_fit 32 b))
  change filled (curve25519 (fit 32 a) (fit 32 _)).val = _
  rw [fit_eq (length_generatePublic _), curve25519_public, if_neg hne]
  rfl

/-- The primitives of this repository are what the session's results ask of them. -/
theorem portable_lawful : (Prims.portable inetPton).Lawful where
  generate secret := ⟨_, portable_generatePublic inetPton secret⟩
  lowOrder a b pub h := by
    rw [portable_eq_none] at h ⊢
    exact h
  agree a b pubA pubB hA hB := by
    rw [portable_public inetPton a b hB, portable_public inetPton b a hA,
      multiple_comm (clamped_decodeScalar (length_fit 32 b)).lt
        (clamped_decodeScalar (length_fit 32 a)).lt]
  proper a b pub h := by
    rw [portable_public inetPton b a h]
    exact Option.some_ne_none _
  nonzero a pub ss h := by
    rw [portable_curve25519, Option.ite_none_left_eq_some] at h
    obtain ⟨h0, hss⟩ := h
    obtain rfl := Option.some.inj hss
    exact mt leEnc_eq_zeros.mp h0
  lengthPublic a pub h := by
    obtain rfl := Option.some.inj ((portable_generatePublic inetPton a).symm.trans h)
    exact length_generatePublic _
  lengthHash n key input := length_fit n _
  lengthSealed key nonce ad src := by
    have hseal := (sealsExactly_96 ad (nonce96 (le64enc nonce)) key).seals src
    exact (congrArg (·.val.length) hseal).trans (length_aeadSeal _ _ _ _)
  opened key nonce ad src :=
    ((sealsExactly_96 ad (nonce96 (le64enc nonce)) key).opens _ src).mpr rfl

end

end PolarWG
