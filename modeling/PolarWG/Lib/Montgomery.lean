import Mathlib

/-!
# The Montgomery ladder

Over any commutative ring, on the bits of a scalar, the highest first. Two points are kept in
projective coordinates; their difference is always the point that is multiplied. The ladder of
RFC 7748 exchanges the points lazily, and comes to the same as choosing between them at each bit.
-/

namespace PolarWG

variable {R : Type*} [CommRing R]

structure Ladder (R : Type*) where
  x2 : R
  z2 : R
  x3 : R
  z3 : R
  swap : Bool

def Ladder.cswap (s : Ladder R) : Ladder R :=
  if s.swap then ⟨s.x3, s.z3, s.x2, s.z2, s.swap⟩ else s

/-- One turn of the loop of RFC 7748, section 5, after the exchange. -/
def Ladder.turn (a24 x1 : R) (s : Ladder R) : Ladder R :=
  let a := s.x2 + s.z2
  let aa := a ^ 2
  let b := s.x2 - s.z2
  let bb := b ^ 2
  let e := aa - bb
  let c := s.x3 + s.z3
  let d := s.x3 - s.z3
  let da := d * a
  let cb := c * b
  ⟨aa * bb, e * (aa + a24 * e), (da + cb) ^ 2, x1 * (da - cb) ^ 2, s.swap⟩

def Ladder.step (a24 x1 : R) (s : Ladder R) (bit : Bool) : Ladder R :=
  ({ ({ s with swap := s.swap ^^ bit } : Ladder R).cswap with swap := bit }).turn a24 x1

def Ladder.start (x1 : R) : Ladder R := ⟨1, 0, x1, 1, false⟩

/-- The multiple's numerator and denominator. -/
def ladder (a24 x1 : R) (bits : List Bool) : R × R :=
  let s := (bits.foldl (Ladder.step a24 x1) (.start x1)).cswap
  (s.x2, s.z2)

/-! ## Doubling and adding -/

/-- Twice a point. -/
def double (a24 : R) (P : R × R) : R × R :=
  let aa := (P.1 + P.2) ^ 2
  let bb := (P.1 - P.2) ^ 2
  (aa * bb, (aa - bb) * (aa + a24 * (aa - bb)))

/-- The sum of two points with the difference `x1`. -/
def diffAdd (x1 : R) (P Q : R × R) : R × R :=
  let da := (Q.1 - Q.2) * (P.1 + P.2)
  let cb := (Q.1 + Q.2) * (P.1 - P.2)
  ((da + cb) ^ 2, x1 * (da - cb) ^ 2)

theorem diffAdd_comm (x1 : R) (P Q : R × R) : diffAdd x1 P Q = diffAdd x1 Q P := by
  unfold diffAdd
  ext <;> ring

/-- From `n` and `n + 1` times the point to `2 n + bit` and the next. -/
def doubleAdd (a24 x1 : R) (s : (R × R) × (R × R)) (bit : Bool) : (R × R) × (R × R) :=
  if bit then (diffAdd x1 s.1 s.2, double a24 s.2) else (double a24 s.1, diffAdd x1 s.1 s.2)

/-- The points of a ladder once its exchange is made. -/
def Ladder.points (s : Ladder R) : (R × R) × (R × R) :=
  ((s.cswap.x2, s.cswap.z2), (s.cswap.x3, s.cswap.z3))

theorem Ladder.points_step (a24 x1 : R) (s : Ladder R) (bit : Bool) :
    (s.step a24 x1 bit).points = doubleAdd a24 x1 s.points bit := by
  obtain ⟨x2, z2, x3, z3, swap⟩ := s
  cases swap <;> cases bit
  · rfl
  · exact Prod.ext (diffAdd_comm x1 (x3, z3) (x2, z2)) rfl
  · rfl
  · exact Prod.ext (diffAdd_comm x1 (x2, z2) (x3, z3)) rfl

/-- The ladder doubles and adds, bit by bit. -/
theorem ladder_eq (a24 x1 : R) (bits : List Bool) :
    ladder a24 x1 bits = (bits.foldl (doubleAdd a24 x1) ((1, 0), (x1, 1))).1 := by
  have hfold : ∀ (bits : List Bool) (s : Ladder R),
      (bits.foldl (Ladder.step a24 x1) s).points = bits.foldl (doubleAdd a24 x1) s.points := by
    intro bits
    induction bits with
    | nil => exact fun _ => rfl
    | cons bit bits ih =>
      intro s
      rw [List.foldl_cons, List.foldl_cons, ih, Ladder.points_step]
  exact congrArg Prod.fst (hfold bits (.start x1))

end PolarWG
