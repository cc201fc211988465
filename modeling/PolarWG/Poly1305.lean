import PolarWG.Prims
import PolarWG.Lib.Word

/-!
# Poly1305

The portable implementation: the accumulator is five limbs of 26 bits, and a message comes in pieces
of any length. Words note whether something wrapped around; what is cut off on purpose is a
remainder.
-/

namespace PolarWG

structure Limbs26 where
  l0 : ℕ
  l1 : ℕ
  l2 : ℕ
  l3 : ℕ
  l4 : ℕ
deriving DecidableEq

/-- `buf` is as long as `buflen`. -/
structure Poly1305Ctx where
  r : Limbs26
  s0 : ℕ
  s1 : ℕ
  s2 : ℕ
  s3 : ℕ
  h : Limbs26
  buf : Bytes
deriving DecidableEq

def mask26 : ℕ := 0x3ffffff

def le32At (bs : Bytes) (off : ℕ) : ℕ := (le32dec (slice off 4 bs)).toNat

/-- The bits that a shift moves out of 32. -/
def shl32 (x k : ℕ) : ℕ := (x <<< k) % 2 ^ 32

def poly1305Init (key : Bytes) : Poly1305Ctx :=
  let t0 := le32At key 0
  let t1 := le32At key 4
  let t2 := le32At key 8
  let t3 := le32At key 12
  { r := ⟨t0 &&& 0x3ffffff, (t0 >>> 26 ||| shl32 t1 6) &&& 0x3ffff03,
      (t1 >>> 20 ||| shl32 t2 12) &&& 0x3ffc0ff, (t2 >>> 14 ||| shl32 t3 18) &&& 0x3f03fff,
      (t3 >>> 8) &&& 0x00fffff⟩
    s0 := le32At key 16
    s1 := le32At key 20
    s2 := le32At key 24
    s3 := le32At key 28
    h := ⟨0, 0, 0, 0, 0⟩
    buf := [] }

/-- One of the five sums of products. -/
def limbDot64 (h : Limbs26) (g0 g1 g2 g3 g4 : ℕ) : Traced ℕ := do
  let p0 ← wordMul 64 h.l0 g0
  let p1 ← wordMul 64 h.l1 g1
  let p2 ← wordMul 64 h.l2 g2
  let p3 ← wordMul 64 h.l3 g3
  let p4 ← wordMul 64 h.l4 g4
  let t ← wordAdd 64 p0 p1
  let t ← wordAdd 64 t p2
  let t ← wordAdd 64 t p3
  wordAdd 64 t p4

/-- The low limbs are cut off on purpose. -/
def poly1305Carry (d0 d1 d2 d3 d4 : ℕ) : Traced Limbs26 := do
  let h0 := d0 % 2 ^ 32 &&& mask26
  let d1 ← wordAdd 64 d1 (d0 >>> 26)
  let h1 := d1 % 2 ^ 32 &&& mask26
  let d2 ← wordAdd 64 d2 (d1 >>> 26)
  let h2 := d2 % 2 ^ 32 &&& mask26
  let d3 ← wordAdd 64 d3 (d2 >>> 26)
  let h3 := d3 % 2 ^ 32 &&& mask26
  let d4 ← wordAdd 64 d4 (d3 >>> 26)
  let h4 := d4 % 2 ^ 32 &&& mask26
  let c ← wordMul 64 (d4 >>> 26) 5
  let c ← wordCast 32 c
  let h0 ← wordAdd 32 h0 c
  let h1 ← wordAdd 32 h1 (h0 >>> 26)
  pure ⟨h0 &&& mask26, h1, h2, h3, h4⟩

/-- The accumulator with the sixteen bytes of `m` added in. -/
def poly1305Add (h : Limbs26) (m : Bytes) (hibit : ℕ) : Traced Limbs26 := do
  let t0 := le32At m 0
  let t1 := le32At m 4
  let t2 := le32At m 8
  let t3 := le32At m 12
  let h0 ← wordAdd 32 h.l0 (t0 &&& mask26)
  let h1 ← wordAdd 32 h.l1 ((t0 >>> 26 ||| shl32 t1 6) &&& mask26)
  let h2 ← wordAdd 32 h.l2 ((t1 >>> 20 ||| shl32 t2 12) &&& mask26)
  let h3 ← wordAdd 32 h.l3 ((t2 >>> 14 ||| shl32 t3 18) &&& mask26)
  let h4 ← wordAdd 32 h.l4 (t3 >>> 8 ||| hibit)
  pure ⟨h0, h1, h2, h3, h4⟩

def poly1305Mul (h r : Limbs26) : Traced Limbs26 := do
  let s1 ← wordMul 32 r.l1 5
  let s2 ← wordMul 32 r.l2 5
  let s3 ← wordMul 32 r.l3 5
  let s4 ← wordMul 32 r.l4 5
  let d0 ← limbDot64 h r.l0 s4 s3 s2 s1
  let d1 ← limbDot64 h r.l1 r.l0 s4 s3 s2
  let d2 ← limbDot64 h r.l2 r.l1 r.l0 s4 s3
  let d3 ← limbDot64 h r.l3 r.l2 r.l1 r.l0 s4
  let d4 ← limbDot64 h r.l4 r.l3 r.l2 r.l1 r.l0
  poly1305Carry d0 d1 d2 d3 d4

def poly1305Block (ctx : Poly1305Ctx) (m : Bytes) (hibit : ℕ) : Traced Poly1305Ctx := do
  let h ← poly1305Add ctx.h m hibit
  let h ← poly1305Mul h ctx.r
  pure { ctx with h }

/-- The full blocks of a text, straight from it; what is left over goes to the buffer. -/
def poly1305Blocks (ctx : Poly1305Ctx) (m : Bytes) : Traced Poly1305Ctx := do
  let ctx ← (List.range (m.length / 16)).foldlM
    (fun ctx i => poly1305Block ctx (slice (16 * i) 16 m) (1 <<< 24)) ctx
  let rest := m.drop (16 * (m.length / 16))
  pure (if 0 < rest.length then { ctx with buf := rest } else ctx)

def poly1305Update (ctx : Poly1305Ctx) (m : Bytes) : Traced Poly1305Ctx :=
  if 0 < ctx.buf.length then
    let want := 16 - ctx.buf.length
    if m.length < want then pure { ctx with buf := ctx.buf ++ m }
    else do
      let ctx ← poly1305Block ctx (ctx.buf ++ m.take want) (1 <<< 24)
      poly1305Blocks { ctx with buf := [] } (m.drop want)
  else poly1305Blocks ctx m

/-- The carries that leave each limb below `2 ^ 26`. -/
def poly1305Full (h : Limbs26) : Traced Limbs26 := do
  let h2 ← wordAdd 32 h.l2 (h.l1 >>> 26)
  let h3 ← wordAdd 32 h.l3 (h2 >>> 26)
  let h4 ← wordAdd 32 h.l4 (h3 >>> 26)
  let c ← wordMul 32 (h4 >>> 26) 5
  let h0 ← wordAdd 32 h.l0 c
  let h1 ← wordAdd 32 (h.l1 &&& mask26) (h0 >>> 26)
  pure ⟨h0 &&& mask26, h1, h2 &&& mask26, h3 &&& mask26, h4 &&& mask26⟩

/-- The limbs less `2 ^ 130 - 5`, unless that is negative. The last difference wraps around on
purpose: its top bit is the sign. -/
def poly1305Reduce (h : Limbs26) : Traced Limbs26 := do
  let g0 ← wordAdd 32 h.l0 5
  let g1 ← wordAdd 32 h.l1 (g0 >>> 26)
  let g2 ← wordAdd 32 h.l2 (g1 >>> 26)
  let g3 ← wordAdd 32 h.l3 (g2 >>> 26)
  let g4 ← wordAdd 32 h.l4 (g3 >>> 26)
  let g4 := (g4 + (2 ^ 32 - 1 <<< 26)) % 2 ^ 32
  let mask := (g4 >>> 31 + (2 ^ 32 - 1)) % 2 ^ 32
  let unmask := mask ^^^ (2 ^ 32 - 1)
  let select := fun h g => h &&& unmask ||| g &&& mask
  pure ⟨select h.l0 (g0 &&& mask26), select h.l1 (g1 &&& mask26), select h.l2 (g2 &&& mask26),
    select h.l3 (g3 &&& mask26), select h.l4 g4⟩

/-- The low 128 bits of the limbs and `s` added up, in four words. -/
def poly1305Tag (h : Limbs26) (s0 s1 s2 s3 : ℕ) : Traced Bytes := do
  let f ← wordAdd 64 (h.l0 ||| shl32 h.l1 26) s0
  let o0 := f % 2 ^ 32
  let g ← wordAdd 64 (h.l1 >>> 6 ||| shl32 h.l2 20) s1
  let f ← wordAdd 64 (f >>> 32) g
  let o1 := f % 2 ^ 32
  let g ← wordAdd 64 (h.l2 >>> 12 ||| shl32 h.l3 14) s2
  let f ← wordAdd 64 (f >>> 32) g
  let o2 := f % 2 ^ 32
  let g ← wordAdd 64 (h.l3 >>> 18 ||| shl32 h.l4 8) s3
  let f ← wordAdd 64 (f >>> 32) g
  let o3 := f % 2 ^ 32
  pure (leEnc 4 o0 ++ leEnc 4 o1 ++ leEnc 4 o2 ++ leEnc 4 o3)

def poly1305Finish (ctx : Poly1305Ctx) : Traced Bytes := do
  let ctx ← if 0 < ctx.buf.length then
      poly1305Block ctx ((ctx.buf ++ 1 :: zeros 16).take 16) 0
    else pure ctx
  let h ← poly1305Full ctx.h
  let h ← poly1305Reduce h
  poly1305Tag h ctx.s0 ctx.s1 ctx.s2 ctx.s3

/-- The tag of a message that is passed in these pieces. -/
def poly1305 (key : Bytes) (pieces : List Bytes) : Traced Bytes := do
  let ctx ← pieces.foldlM poly1305Update (poly1305Init key)
  poly1305Finish ctx

end PolarWG
