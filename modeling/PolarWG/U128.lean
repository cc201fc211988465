import PolarWG.Curve25519

/-!
# 128 bits out of two words

Compilers without a type of 128 bits get an accumulator of two words, which the multiplications of
the field are written over once more. Its words are the machine's.
-/

namespace PolarWG

/-- `_umul128`: the low and the high word of a product. -/
def umul128 (a b : UInt64) : UInt64 × UInt64 :=
  (a * b, .ofNat (a.toNat * b.toNat / 2 ^ 64))

/-- `_addcarry_u64`: the carry out and the sum. -/
def addcarryU64 (carry : Bool) (a b : UInt64) : Bool × UInt64 :=
  (decide (2 ^ 64 ≤ carry.toNat + a.toNat + b.toNat), .ofNat carry.toNat + a + b)

structure U128 where
  lo : UInt64
  hi : UInt64
deriving DecidableEq

def u128Mul64 (a b : UInt64) : U128 :=
  let (lo, hi) := umul128 a b
  ⟨lo, hi⟩

def u128Add (a b : U128) : U128 :=
  let (carry, lo) := addcarryU64 false a.lo b.lo
  let (_, hi) := addcarryU64 carry a.hi b.hi
  ⟨lo, hi⟩

def u128AddU64 (a : U128) (b : UInt64) : U128 :=
  let (carry, lo) := addcarryU64 false a.lo b
  let (_, hi) := addcarryU64 carry a.hi 0
  ⟨lo, hi⟩

def u128Shr51 (a : U128) : UInt64 := a.lo >>> 51 ||| a.hi <<< 13

def mask51U64 : UInt64 := 0x7ffffffffffff

/-- Five limbs as the machine keeps them. -/
structure FeWords where
  l0 : UInt64
  l1 : UInt64
  l2 : UInt64
  l3 : UInt64
  l4 : UInt64
deriving DecidableEq

/-- `f` against the limbs that belong to its own, added up in pairs. -/
def limbDotShim (f : FeWords) (g0 g1 g2 g3 g4 : UInt64) : U128 :=
  u128Add (u128Add (u128Mul64 f.l0 g0) (u128Mul64 f.l1 g1))
    (u128Add (u128Add (u128Mul64 f.l2 g2) (u128Mul64 f.l3 g3)) (u128Mul64 f.l4 g4))

def feCarryShim (t0 t1 t2 t3 t4 : U128) : FeWords :=
  let c := u128Shr51 t0
  let h0 := t0.lo &&& mask51U64
  let t1 := u128AddU64 t1 c
  let c := u128Shr51 t1
  let h1 := t1.lo &&& mask51U64
  let t2 := u128AddU64 t2 c
  let c := u128Shr51 t2
  let h2 := t2.lo &&& mask51U64
  let t3 := u128AddU64 t3 c
  let c := u128Shr51 t3
  let h3 := t3.lo &&& mask51U64
  let t4 := u128AddU64 t4 c
  let c := u128Shr51 t4
  let h4 := t4.lo &&& mask51U64
  let h0 := h0 + c * 19
  let c := h0 >>> 51
  ⟨h0 &&& mask51U64, h1 + c, h2, h3, h4⟩

def feMulShim (f g : FeWords) : FeWords :=
  let g1 := g.l1 * 19
  let g2 := g.l2 * 19
  let g3 := g.l3 * 19
  let g4 := g.l4 * 19
  feCarryShim (limbDotShim f g.l0 g4 g3 g2 g1) (limbDotShim f g.l1 g.l0 g4 g3 g2)
    (limbDotShim f g.l2 g.l1 g.l0 g4 g3) (limbDotShim f g.l3 g.l2 g.l1 g.l0 g4)
    (limbDotShim f g.l4 g.l3 g.l2 g.l1 g.l0)

def feSqShim (f : FeWords) : FeWords := feMulShim f f

def feMul121666Shim (f : FeWords) : FeWords :=
  feCarryShim (u128Mul64 f.l0 121665) (u128Mul64 f.l1 121665) (u128Mul64 f.l2 121665)
    (u128Mul64 f.l3 121665) (u128Mul64 f.l4 121665)

end PolarWG
