import PolarWG.Proofs.Encoding

/-!
# X25519

The function of RFC 7748, section 5, over the field, and that the portable implementation computes
it without a word ever wrapping around.
-/

namespace PolarWG

/-! ## The function -/

/-- The last byte's top bit is left out. -/
def decodeUCoordinate (u : Bytes) : Fp := (leDec (u.set 31 (u.getD 31 0 &&& 127)) : ℕ)

def decodeScalar (k : Bytes) : ℕ := leDec (curve25519ClampSecret k)

/-- Bits 254 to 0. -/
def scalarBits (k : ℕ) : List Bool := (List.range 255).reverse.map k.testBit

def x25519 (k u : Bytes) : Bytes :=
  let r := ladder (121665 : Fp) (decodeUCoordinate u) (scalarBits (decodeScalar k))
  leEnc 32 (r.1 * r.2 ^ (p25519 - 2)).val

/-! ## Bits and bytes -/

theorem testBit_leDec : ∀ (bs : Bytes) (i : ℕ),
    (leDec bs).testBit i = (byteAt bs (i / 8)).testBit (i % 8)
  | [], i => by simp [leDec, byteAt]
  | b :: bs, i => by
    rw [leDec, Nat.add_comm, show 256 = 2 ^ 8 from rfl, Nat.testBit_two_pow_mul_add _ b.toNat_lt]
    split
    · next h => rw [Nat.div_eq_of_lt h, Nat.mod_eq_of_lt h, byteAt, List.getD_cons_zero]
    · next h =>
      have hdiv : i / 8 = (i - 8) / 8 + 1 := by omega
      have hmod : i % 8 = (i - 8) % 8 := by omega
      rw [testBit_leDec bs, hdiv, hmod, byteAt, byteAt, List.getD_cons_succ]

theorem scalarBit_eq (e : Bytes) (pos : ℕ) : scalarBit e pos = ((leDec e).testBit pos).toNat := by
  have h8 : pos >>> 3 = pos / 8 := Nat.shiftRight_eq_div_pow pos 3
  have h7 : pos &&& 7 = pos % 8 := Nat.and_two_pow_sub_one_eq_mod pos 3
  rw [testBit_leDec, Nat.toNat_testBit, scalarBit, h8, h7, Nat.shiftRight_eq_div_pow,
    Nat.and_one_is_mod]

theorem decodeUCoordinate_eq {u : Bytes} (hu : u.length = 32) :
    decodeUCoordinate u = (leDec u % 2 ^ 255 : ℕ) := by
  obtain ⟨bs, b, rfl⟩ := List.eq_nil_or_concat u |>.resolve_left (by rintro rfl; cases hu)
  have hlen : bs.length = 31 := by simpa using hu
  have hset : (bs.concat b).set 31 ((bs.concat b).getD 31 0 &&& 127) = bs ++ [b &&& 127] := by
    simp [List.concat_eq_append, ← hlen]
  have hlt := leDec_lt bs
  have hand : (b &&& 127).toNat = b.toNat % 2 ^ 7 := by
    rw [UInt8.toNat_and]
    exact Nat.and_two_pow_sub_one_eq_mod _ 7
  rw [decodeUCoordinate, hset, List.concat_eq_append, leDec_append, leDec_append, hlen]
  rw [hlen] at hlt
  simp only [leDec, hand]
  congr 1
  omega

/-! ## The ladder -/

theorem limbSwap_zero (x y : ℕ) : limbSwap 0 x y = (x, y) := by
  simp [limbSwap]

theorem limbSwap_ones {x y : ℕ} (hx : x < 2 ^ 64) (hy : y < 2 ^ 64) :
    limbSwap (2 ^ 64 - 1) x y = (y, x) := by
  have h : (2 ^ 64 - 1) &&& (x ^^^ y) = x ^^^ y := by
    rw [Nat.and_comm, Nat.and_two_pow_sub_one_eq_mod, Nat.mod_eq_of_lt (Nat.xor_lt_two_pow hx hy)]
  rw [limbSwap, h, ← Nat.xor_assoc, Nat.xor_self, Nat.zero_xor, Nat.xor_comm x y, ← Nat.xor_assoc,
    Nat.xor_self, Nat.zero_xor]

theorem feSwap_zero (f g : Fe) : feSwap 0 f g = (f, g) := by
  simp only [feSwap, limbSwap_zero]

theorem feSwap_ones {f g : Fe} (hf : f.Tight) (hg : g.Tight) :
    feSwap (2 ^ 64 - 1) f g = (g, f) := by
  obtain ⟨f0, f1, f2, f3, f4⟩ := hf
  obtain ⟨g0, g1, g2, g3, g4⟩ := hg
  unfold feSwap
  rw [limbSwap_ones (f0.trans (by norm_num)) (g0.trans (by norm_num)),
    limbSwap_ones (f1.trans (by norm_num)) (g1.trans (by norm_num)),
    limbSwap_ones (f2.trans (by norm_num)) (g2.trans (by norm_num)),
    limbSwap_ones (f3.trans (by norm_num)) (g3.trans (by norm_num)),
    limbSwap_ones (f4.trans (by norm_num)) (g4.trans (by norm_num))]

/-- Tight limbs of an element. -/
def Fe.Stands (f : Fe) (a : Fp) : Prop := f.Tight ∧ f.elem = a

structure FeLadder.Stands (s : FeLadder) (l : Ladder Fp) : Prop where
  x2 : s.x2.Stands l.x2
  z2 : s.z2.Stands l.z2
  x3 : s.x3.Stands l.x3
  z3 : s.z3.Stands l.z3
  swap : s.swap = l.swap.toNat

theorem FeLadder.Stands.cswap {s : FeLadder} {l : Ladder Fp} (h : s.Stands l) :
    s.cswap.Stands l.cswap := by
  obtain ⟨hx2, hz2, hx3, hz3, hswap⟩ := h
  unfold FeLadder.cswap Ladder.cswap
  rcases hl : l.swap <;> rw [hl] at hswap <;> simp only [hswap]
  · rw [show (2 ^ 64 - false.toNat) % 2 ^ 64 = 0 by decide, if_neg (by decide)]
    simp only [feSwap_zero]
    exact ⟨hx2, hz2, hx3, hz3, by rw [hl]⟩
  · rw [show (2 ^ 64 - true.toNat) % 2 ^ 64 = 2 ^ 64 - 1 by decide, if_pos trivial,
      feSwap_ones hx2.1 hx3.1, feSwap_ones hz2.1 hz3.1]
    exact ⟨hx3, hz3, hx2, hz2, rfl⟩

theorem FeLadder.Stands.turn {s : FeLadder} {l : Ladder Fp} {x1 : Fe} {u : Fp} (h : s.Stands l)
    (h1 : x1.Stands u) : (s.turn x1).Returns (FeLadder.Stands · (l.turn 121665 u)) := by
  obtain ⟨⟨hx2, rx2⟩, ⟨hz2, rz2⟩, ⟨hx3, rx3⟩, ⟨hz3, rz3⟩, hswap⟩ := h
  unfold FeLadder.turn
  refine (feAdd_spec hx2 hz2).bind fun a ⟨ha, ra⟩ => ?_
  refine (feSq_spec ha).bind fun aa ⟨haa, raa⟩ => ?_
  refine (feSub_spec hx2 hz2).bind fun b ⟨hb, rb⟩ => ?_
  refine (feSq_spec hb).bind fun bb ⟨hbb, rbb⟩ => ?_
  refine (feSub_spec haa hbb).bind fun e ⟨he, re⟩ => ?_
  refine (feAdd_spec hx3 hz3).bind fun c ⟨hc, rc⟩ => ?_
  refine (feSub_spec hx3 hz3).bind fun d ⟨hd, rd⟩ => ?_
  refine (feMul_spec hd ha).bind fun da ⟨hda, rda⟩ => ?_
  refine (feMul_spec hc hb).bind fun cb ⟨hcb, rcb⟩ => ?_
  refine (feAdd_spec hda hcb).bind fun sum ⟨hsum, rsum⟩ => ?_
  refine (feSq_spec hsum).bind fun x3 ⟨hx3', rx3'⟩ => ?_
  refine (feSub_spec hda hcb).bind fun dif ⟨hdif, rdif⟩ => ?_
  refine (feSq_spec hdif).bind fun dif2 ⟨hdif2, rdif2⟩ => ?_
  refine (feMul_spec h1.1.loose hdif2.loose).bind fun z3 ⟨hz3', rz3'⟩ => ?_
  refine (feMul_spec haa.loose hbb.loose).bind fun x2 ⟨hx2', rx2'⟩ => ?_
  refine (feMul121666_spec he).bind fun ae ⟨hae, rae⟩ => ?_
  refine (feAdd_spec haa hae).bind fun f ⟨hf, rf⟩ => ?_
  refine (feMul_spec he hf).bind fun z2 ⟨hz2', rz2'⟩ => ?_
  rw [rx2, rz2] at ra rb
  rw [rx3, rz3] at rc rd
  refine .pure ⟨⟨hx2', ?_⟩, ⟨hz2', ?_⟩, ⟨hx3', ?_⟩, ⟨hz3', ?_⟩, hswap⟩
  · rw [rx2', raa, rbb, ra, rb, Ladder.turn]
  · rw [rz2', rf, rae, re, raa, rbb, ra, rb, Ladder.turn]
  · rw [rx3', rsum, rda, rcb, ra, rb, rc, rd, Ladder.turn]
  · rw [rz3', rdif2, rdif, rda, rcb, ra, rb, rc, rd, h1.2, Ladder.turn]

theorem FeLadder.Stands.step {s : FeLadder} {l : Ladder Fp} {x1 : Fe} {u : Fp} (h : s.Stands l)
    (h1 : x1.Stands u) (e : Bytes) (pos : ℕ) :
    (x25519Turn e x1 s pos).Returns
      (FeLadder.Stands · (l.step 121665 u ((leDec e).testBit pos))) := by
  obtain ⟨hx2, hz2, hx3, hz3, hswap⟩ := h
  have hxor : s.swap ^^^ scalarBit e pos = (l.swap ^^ (leDec e).testBit pos).toNat := by
    rw [hswap, scalarBit_eq]
    cases l.swap <;> cases (leDec e).testBit pos <;> rfl
  have hc : FeLadder.Stands { s with swap := s.swap ^^^ scalarBit e pos }.cswap
      ({ l with swap := l.swap ^^ (leDec e).testBit pos } : Ladder Fp).cswap :=
    FeLadder.Stands.cswap ⟨hx2, hz2, hx3, hz3, hxor⟩
  obtain ⟨hx2, hz2, hx3, hz3, -⟩ := hc
  exact FeLadder.Stands.turn ⟨hx2, hz2, hx3, hz3, scalarBit_eq e pos⟩ h1

/-! ## The implementation -/

theorem stands_one : Fe.Stands ⟨1, 0, 0, 0, 0⟩ 1 :=
  ⟨⟨by norm_num, by norm_num, by norm_num, by norm_num, by norm_num⟩, Nat.cast_one⟩

theorem stands_zero : Fe.Stands ⟨0, 0, 0, 0, 0⟩ 0 :=
  ⟨⟨by norm_num, by norm_num, by norm_num, by norm_num, by norm_num⟩, Nat.cast_zero⟩

/-- For every scalar and every coordinate, canonical or not. -/
theorem x25519Ladder_returns {scalar point : Bytes} (hp : point.length = 32) :
    (x25519Ladder scalar point).Returns (· = x25519 scalar point) := by
  unfold x25519Ladder
  refine (feFrombytes_spec hp).bind fun x1 ⟨h1, hv⟩ => ?_
  have hx1 : x1.Stands (decodeUCoordinate point) :=
    ⟨h1, by rw [Fe.elem, hv, decodeUCoordinate_eq hp]⟩
  have hstart : FeLadder.Stands ⟨⟨1, 0, 0, 0, 0⟩, ⟨0, 0, 0, 0, 0⟩, x1, ⟨1, 0, 0, 0, 0⟩, 0⟩
      (.start (decodeUCoordinate point)) := ⟨stands_one, stands_zero, hx1, stands_one, rfl⟩
  refine (Traced.Returns.foldlM FeLadder.Stands (fun s l pos hs => hs.step hx1 _ pos)
    (List.range 255).reverse hstart).bind fun s hs => ?_
  rw [← List.foldl_map] at hs
  have hend := hs.cswap
  refine (feInvert_spec hend.z2.1).bind fun z2 hz2 => ?_
  refine (feMul_spec hend.x2.1.loose hz2.1.loose).bind fun x2 hx2 => ?_
  refine (feTobytes_spec hx2.1).mono fun bs hbs => ?_
  rw [hbs, hx2.2, hz2.2, hend.x2.2, hend.z2.2]
  rfl

/-- The bytes are those of RFC 7748, and nothing wraps around on the way to them. -/
theorem x25519_refines (scalar : Bytes) {point : Bytes} (hp : point.length = 32) :
    (x25519Ladder scalar point).val = x25519 scalar point
      ∧ (x25519Ladder scalar point).clean = true := by
  rw [(x25519Ladder_returns hp).eq]
  exact ⟨rfl, rfl⟩

/-- The base point, and a coordinate that is above the modulus with its top bit set. -/
theorem x25519_refines_noncanonical :
    (x25519Ladder (List.replicate 32 0xff) (9 :: zeros 31)).val
      = x25519 (List.replicate 32 0xff) (9 :: zeros 31)
    ∧ (x25519Ladder (List.replicate 32 0xff) (9 :: zeros 31)).clean = true
    ∧ (x25519Ladder (9 :: zeros 31) (List.replicate 32 0xff)).val
      = x25519 (9 :: zeros 31) (List.replicate 32 0xff)
    ∧ (x25519Ladder (9 :: zeros 31) (List.replicate 32 0xff)).clean = true := by
  obtain ⟨h1, h2⟩ := x25519_refines (List.replicate 32 0xff) (rfl : (9 :: zeros 31).length = 32)
  obtain ⟨h3, h4⟩ := x25519_refines (9 :: zeros 31)
    (rfl : (List.replicate 32 (0xff : UInt8)).length = 32)
  exact ⟨h1, h2, h3, h4⟩

end PolarWG
