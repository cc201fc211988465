import PolarWG.Prims
import PolarWG.Lib.Word

/-!
# X25519

The portable implementation: field elements are five limbs of 51 bits, products are taken in 128
bits, and a ladder over the bits of the scalar ends in an inversion. Words note whether something
wrapped around.
-/

namespace PolarWG

structure Fe where
  l0 : ℕ
  l1 : ℕ
  l2 : ℕ
  l3 : ℕ
  l4 : ℕ
deriving DecidableEq

def mask51 : ℕ := 0x7ffffffffffff

def byteAt (s : Bytes) (i : ℕ) : ℕ := (s.getD i 0).toNat

def feFrombytes (s : Bytes) : Traced Fe := do
  let t0 ← orShl 64 [(byteAt s 0, 0), (byteAt s 1, 8), (byteAt s 2, 16), (byteAt s 3, 24),
    (byteAt s 4, 32), (byteAt s 5, 40), (byteAt s 6 &&& 0x07, 48)]
  let t1 ← orShl 64 [(byteAt s 6 >>> 3, 0), (byteAt s 7, 5), (byteAt s 8, 13), (byteAt s 9, 21),
    (byteAt s 10, 29), (byteAt s 11, 37), (byteAt s 12 &&& 0x3f, 45)]
  let t2 ← orShl 64 [(byteAt s 12 >>> 6, 0), (byteAt s 13, 2), (byteAt s 14, 10),
    (byteAt s 15, 18), (byteAt s 16, 26), (byteAt s 17, 34), (byteAt s 18, 42),
    (byteAt s 19 &&& 0x01, 50)]
  let t3 ← orShl 64 [(byteAt s 19 >>> 1, 0), (byteAt s 20, 7), (byteAt s 21, 15),
    (byteAt s 22, 23), (byteAt s 23, 31), (byteAt s 24, 39), (byteAt s 25 &&& 0x0f, 47)]
  let t4 ← orShl 64 [(byteAt s 25 >>> 4, 0), (byteAt s 26, 4), (byteAt s 27, 12),
    (byteAt s 28, 20), (byteAt s 29, 28), (byteAt s 30, 36), (byteAt s 31 &&& 0x7f, 44)]
  pure ⟨t0, t1, t2, t3, t4⟩

/-- The 32 bytes of reduced limbs. -/
def feStore (t : Fe) : Traced Bytes := do
  let u1 ← wordShl 64 t.l1 3
  let u2 ← wordShl 64 t.l2 6
  let u3 ← wordShl 64 t.l3 1
  let u4 ← wordShl 64 t.l4 4
  pure ([t.l0, t.l0 >>> 8, t.l0 >>> 16, t.l0 >>> 24, t.l0 >>> 32, t.l0 >>> 40, t.l0 >>> 48 ||| u1,
    t.l1 >>> 5, t.l1 >>> 13, t.l1 >>> 21, t.l1 >>> 29, t.l1 >>> 37, t.l1 >>> 45 ||| u2,
    t.l2 >>> 2, t.l2 >>> 10, t.l2 >>> 18, t.l2 >>> 26, t.l2 >>> 34, t.l2 >>> 42, t.l2 >>> 50 ||| u3,
    t.l3 >>> 7, t.l3 >>> 15, t.l3 >>> 23, t.l3 >>> 31, t.l3 >>> 39, t.l3 >>> 47 ||| u4,
    t.l4 >>> 4, t.l4 >>> 12, t.l4 >>> 20, t.l4 >>> 28, t.l4 >>> 36, t.l4 >>> 44].map UInt8.ofNat)

/-- Adding 19 tells whether the number is `2 ^ 255 - 19` or more. -/
def feReduce (h : Fe) : Traced Fe := do
  let c ← wordAdd 64 h.l0 19
  let c ← wordAdd 64 h.l1 (c >>> 51)
  let c ← wordAdd 64 h.l2 (c >>> 51)
  let c ← wordAdd 64 h.l3 (c >>> 51)
  let c ← wordAdd 64 h.l4 (c >>> 51)
  let d ← wordMul 64 19 (c >>> 51)
  let t0 ← wordAdd 64 h.l0 d
  let t1 ← wordAdd 64 h.l1 (t0 >>> 51)
  let t2 ← wordAdd 64 h.l2 (t1 >>> 51)
  let t3 ← wordAdd 64 h.l3 (t2 >>> 51)
  let t4 ← wordAdd 64 h.l4 (t3 >>> 51)
  pure ⟨t0 &&& mask51, t1 &&& mask51, t2 &&& mask51, t3 &&& mask51, t4 &&& mask51⟩

def feTobytes (h : Fe) : Traced Bytes := do
  let t ← feReduce h
  feStore t

def feAdd (f g : Fe) : Traced Fe := do
  let h0 ← wordAdd 64 f.l0 g.l0
  let h1 ← wordAdd 64 f.l1 g.l1
  let h2 ← wordAdd 64 f.l2 g.l2
  let h3 ← wordAdd 64 f.l3 g.l3
  let h4 ← wordAdd 64 f.l4 g.l4
  pure ⟨h0, h1, h2, h3, h4⟩

def limbSub (x bias y : ℕ) : Traced ℕ := do
  let z ← wordAdd 64 x bias
  wordSub 64 z y

def feSub (f g : Fe) : Traced Fe := do
  let h0 ← limbSub f.l0 0xfffffffffffda g.l0
  let h1 ← limbSub f.l1 0xffffffffffffe g.l1
  let h2 ← limbSub f.l2 0xffffffffffffe g.l2
  let h3 ← limbSub f.l3 0xffffffffffffe g.l3
  let h4 ← limbSub f.l4 0xffffffffffffe g.l4
  pure ⟨h0, h1, h2, h3, h4⟩

/-- `f` against the limbs that belong to its own, in 128 bits. -/
def limbDot (f : Fe) (g0 g1 g2 g3 g4 : ℕ) : Traced ℕ := do
  let p0 ← wordMul 128 f.l0 g0
  let p1 ← wordMul 128 f.l1 g1
  let p2 ← wordMul 128 f.l2 g2
  let p3 ← wordMul 128 f.l3 g3
  let p4 ← wordMul 128 f.l4 g4
  let t ← wordAdd 128 p0 p1
  let t ← wordAdd 128 t p2
  let t ← wordAdd 128 t p3
  wordAdd 128 t p4

/-- The carries between five sums of products. The low limbs are cut off on purpose. -/
def feCarry (t0 t1 t2 t3 t4 : ℕ) : Traced Fe := do
  let c ← wordCast 64 (t0 >>> 51)
  let h0 := t0 % 2 ^ 64 &&& mask51
  let t1 ← wordAdd 128 t1 c
  let c ← wordCast 64 (t1 >>> 51)
  let h1 := t1 % 2 ^ 64 &&& mask51
  let t2 ← wordAdd 128 t2 c
  let c ← wordCast 64 (t2 >>> 51)
  let h2 := t2 % 2 ^ 64 &&& mask51
  let t3 ← wordAdd 128 t3 c
  let c ← wordCast 64 (t3 >>> 51)
  let h3 := t3 % 2 ^ 64 &&& mask51
  let t4 ← wordAdd 128 t4 c
  let c ← wordCast 64 (t4 >>> 51)
  let h4 := t4 % 2 ^ 64 &&& mask51
  let d ← wordMul 64 c 19
  let h0 ← wordAdd 64 h0 d
  let h1 ← wordAdd 64 h1 (h0 >>> 51)
  pure ⟨h0 &&& mask51, h1, h2, h3, h4⟩

def feMul (f g : Fe) : Traced Fe := do
  let g1 ← wordMul 64 g.l1 19
  let g2 ← wordMul 64 g.l2 19
  let g3 ← wordMul 64 g.l3 19
  let g4 ← wordMul 64 g.l4 19
  let t0 ← limbDot f g.l0 g4 g3 g2 g1
  let t1 ← limbDot f g.l1 g.l0 g4 g3 g2
  let t2 ← limbDot f g.l2 g.l1 g.l0 g4 g3
  let t3 ← limbDot f g.l3 g.l2 g.l1 g.l0 g4
  let t4 ← limbDot f g.l4 g.l3 g.l2 g.l1 g.l0
  feCarry t0 t1 t2 t3 t4

def feSq (f : Fe) : Traced Fe := feMul f f

/-- The name is older than the constant. -/
def feMul121666 (f : Fe) : Traced Fe := do
  let t0 ← wordMul 128 f.l0 121665
  let t1 ← wordMul 128 f.l1 121665
  let t2 ← wordMul 128 f.l2 121665
  let t3 ← wordMul 128 f.l3 121665
  let t4 ← wordMul 128 f.l4 121665
  feCarry t0 t1 t2 t3 t4

/-- `n` squarings. -/
def feSqn : ℕ → Fe → Traced Fe
  | 0, f => pure f
  | n + 1, f => do
    let h ← feSq f
    feSqn n h

def feInvert (z : Fe) : Traced Fe := do
  let t0 ← feSq z
  let t1 ← feSq t0
  let t1 ← feSq t1
  let t1 ← feMul z t1
  let t0 ← feMul t0 t1
  let t2 ← feSq t0
  let t1 ← feMul t1 t2
  let t2 ← feSq t1
  let t2 ← feSqn 4 t2
  let t1 ← feMul t2 t1
  let t2 ← feSq t1
  let t2 ← feSqn 9 t2
  let t2 ← feMul t2 t1
  let t3 ← feSq t2
  let t3 ← feSqn 19 t3
  let t2 ← feMul t3 t2
  let t2 ← feSq t2
  let t2 ← feSqn 9 t2
  let t1 ← feMul t2 t1
  let t2 ← feSq t1
  let t2 ← feSqn 49 t2
  let t2 ← feMul t2 t1
  let t3 ← feSq t2
  let t3 ← feSqn 99 t3
  let t2 ← feMul t3 t2
  let t2 ← feSq t2
  let t2 ← feSqn 49 t2
  let t1 ← feMul t2 t1
  let t1 ← feSq t1
  let t1 ← feSqn 4 t1
  feMul t1 t0

/-! ## The ladder -/

structure FeLadder where
  x2 : Fe
  z2 : Fe
  x3 : Fe
  z3 : Fe
  swap : ℕ

/-- Both limbs, exchanged where the mask is all ones. -/
def limbSwap (mask x y : ℕ) : ℕ × ℕ :=
  let t := mask &&& (x ^^^ y)
  (x ^^^ t, y ^^^ t)

def feSwap (mask : ℕ) (f g : Fe) : Fe × Fe :=
  (⟨(limbSwap mask f.l0 g.l0).1, (limbSwap mask f.l1 g.l1).1, (limbSwap mask f.l2 g.l2).1,
    (limbSwap mask f.l3 g.l3).1, (limbSwap mask f.l4 g.l4).1⟩,
   ⟨(limbSwap mask f.l0 g.l0).2, (limbSwap mask f.l1 g.l1).2, (limbSwap mask f.l2 g.l2).2,
    (limbSwap mask f.l3 g.l3).2, (limbSwap mask f.l4 g.l4).2⟩)

/-- The mask is `-swap`. -/
def FeLadder.cswap (s : FeLadder) : FeLadder :=
  let mask := (2 ^ 64 - s.swap) % 2 ^ 64
  { s with
    x2 := (feSwap mask s.x2 s.x3).1
    x3 := (feSwap mask s.x2 s.x3).2
    z2 := (feSwap mask s.z2 s.z3).1
    z3 := (feSwap mask s.z2 s.z3).2 }

def FeLadder.turn (x1 : Fe) (s : FeLadder) : Traced FeLadder := do
  let a ← feAdd s.x2 s.z2
  let aa ← feSq a
  let b ← feSub s.x2 s.z2
  let bb ← feSq b
  let e ← feSub aa bb
  let c ← feAdd s.x3 s.z3
  let d ← feSub s.x3 s.z3
  let da ← feMul d a
  let cb ← feMul c b
  let tmp0 ← feAdd da cb
  let x3 ← feSq tmp0
  let tmp0 ← feSub da cb
  let tmp1 ← feSq tmp0
  let z3 ← feMul x1 tmp1
  let x2 ← feMul aa bb
  let tmp0 ← feMul121666 e
  let tmp1 ← feAdd aa tmp0
  let z2 ← feMul e tmp1
  pure ⟨x2, z2, x3, z3, s.swap⟩

def scalarBit (e : Bytes) (pos : ℕ) : ℕ := (byteAt e (pos >>> 3) >>> (pos &&& 7)) &&& 1

def x25519Turn (e : Bytes) (x1 : Fe) (s : FeLadder) (pos : ℕ) : Traced FeLadder :=
  let b := scalarBit e pos
  let s := { s with swap := s.swap ^^^ b }.cswap
  { s with swap := b }.turn x1

def x25519Ladder (scalar point : Bytes) : Traced Bytes := do
  let e := curve25519ClampSecret scalar
  let x1 ← feFrombytes point
  let s ← (List.range 255).reverse.foldlM (x25519Turn e x1)
    ⟨⟨1, 0, 0, 0, 0⟩, ⟨0, 0, 0, 0, 0⟩, x1, ⟨1, 0, 0, 0, 0⟩, 0⟩
  let s := s.cswap
  let z2 ← feInvert s.z2
  let x2 ← feMul s.x2 z2
  feTobytes x2

/-! ## What the session calls -/

/-- The base point, `u = 9`. -/
def basepoint : Bytes := 9 :: zeros 31

/-- It always succeeds. -/
def curve25519GeneratePublic (priv : Bytes) : Traced (Bytes × ℕ) := do
  let pub ← x25519Ladder priv basepoint
  pure (pub, 1)

/-- It fails where the output is all zero. -/
def curve25519 (priv pub : Bytes) : Traced (Bytes × ℕ) := do
  let shared ← x25519Ladder priv pub
  let zero := shared.foldl (· ||| ·) 0
  pure (shared, if zero ≠ 0 then 1 else 0)

end PolarWG
