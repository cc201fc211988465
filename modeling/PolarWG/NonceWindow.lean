import PolarWG.Noise

/-!
# The counter window

`noise_keypair_nonce_check`, on machines whose `long` has 64 bits and on those where it has 32: the
counters of the packets received under a keypair are remembered in an array of longs.
-/

namespace PolarWG

/-- `COUNTER_ORDER`: a long has `2 ^ order` bits. -/
inductive Longs where
  | lp64
  | ilp32
deriving DecidableEq

namespace Longs

def counterOrder : Longs → ℕ
  | lp64 => 6
  | ilp32 => 5

def counterBits (m : Longs) : ℕ := 2 ^ m.counterOrder

def counterBitsTotal : ℕ := 8192

def windowSize (m : Longs) : ℕ := counterBitsTotal - m.counterBits

def rejectAfter (m : Longs) : ℕ := 2 ^ 64 - 1 - m.windowSize - 1

def backtrackLen (m : Longs) : ℕ := counterBitsTotal / m.counterBits

/-- A number cut to an `unsigned long`. -/
def ulong (m : Longs) (x : ℕ) : ℕ := x % 2 ^ m.counterBits

end Longs

/-- The counter elements of a keypair. -/
structure NonceWindow (m : Longs) where
  kpNonceRecv : ℕ
  kpBacktrack : ℕ → BitVec m.counterBits

def NonceWindow.blank (m : Longs) : NonceWindow m := ⟨0, fun _ => 0⟩

variable {m : Longs}

/-- The longs cleared for the numbers 1 to `top`. -/
def clearBacktrack (m : Longs) (backtrack : ℕ → BitVec m.counterBits) (indexCurrent : ℕ) :
    ℕ → ℕ → BitVec m.counterBits
  | 0 => backtrack
  | top + 1 => Function.update (clearBacktrack m backtrack indexCurrent top)
      (m.ulong (top + 1 + indexCurrent) &&& (m.backtrackLen - 1)) 0

/-- Whether the counter is a new one. -/
def noiseKeypairNonceCheck (kp : NonceWindow m) (recv : ℕ) : NonceWindow m × Bool :=
  if m.rejectAfter + 1 ≤ kp.kpNonceRecv ∨ m.rejectAfter ≤ recv then (kp, false)
  else
    let recv := recv + 1
    if (recv + m.windowSize) % 2 ^ 64 < kp.kpNonceRecv then (kp, false)
    else
      let index := m.ulong (recv >>> m.counterOrder)
      let kp :=
        if kp.kpNonceRecv < recv then
          let indexCurrent := m.ulong (kp.kpNonceRecv >>> m.counterOrder)
          let top := min (m.ulong (index + (2 ^ m.counterBits - indexCurrent))) m.backtrackLen
          ⟨recv, clearBacktrack m kp.kpBacktrack indexCurrent top⟩
        else kp
      let index := index &&& (m.backtrackLen - 1)
      let bit := BitVec.ofNat m.counterBits (1 <<< (recv &&& (m.counterBits - 1)))
      if kp.kpBacktrack index &&& bit ≠ 0 then (kp, false)
      else
        (⟨kp.kpNonceRecv, Function.update kp.kpBacktrack index (kp.kpBacktrack index ||| bit)⟩, true)

/-- The counters found new one after the other, the last one first. -/
def nonceChecks (kp : NonceWindow m) : List ℕ → List ℕ → List ℕ
  | found, [] => found
  | found, recv :: recvs =>
    let (kp, new) := noiseKeypairNonceCheck kp recv
    nonceChecks kp (if new then recv :: found else found) recvs

end PolarWG
