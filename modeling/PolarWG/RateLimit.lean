import PolarWG.Prims
import PolarWG.Lib.Run

/-!
# Callouts and the rate limiter

The stub of the kernel's callouts on Apple systems: one counter, and blocks that remember the value
they were queued with. Over it the table of addresses that `wg_cookie.c` limits, whose collection
is a callout that sets itself again.
-/

namespace PolarWG

/-! ## Callouts -/

def hz : ℤ := 1000

/-- A block handed to `dispatch_after`, until it has run or has bailed out. -/
structure CalloutBlock where
  gen : UInt32
  due : ℤ
  /-- It has passed the check before the lock. -/
  checked : Bool
deriving DecidableEq

/-- The counter wraps around; the queue keeps its blocks whatever becomes of the callout. -/
structure Callout where
  coGeneration : UInt32
  blocks : List CalloutBlock
deriving DecidableEq

def calloutInitMtx (c : Callout) : Callout := { c with coGeneration := 0 }

def calloutPending (c : Callout) : Bool := c.coGeneration ≠ 0

def calloutStop (c : Callout) : Callout := { c with coGeneration := c.coGeneration + 1 }

def calloutReset (c : Callout) (ticks now : ℤ) : Callout :=
  let gen := c.coGeneration + 1
  let delayNs := ticks * (1000000000 / hz)
  { coGeneration := gen, blocks := c.blocks ++ [⟨gen, now + delayNs, false⟩] }

/-- The queue starts a block that is due, which bails out if it is superseded. -/
def blockCheck (c : Callout) (i : ℕ) (now : ℤ) : Option Callout := do
  let b ← c.blocks[i]?
  if b.checked ∨ now < b.due then none
  else if b.gen ≠ c.coGeneration then pure { c with blocks := c.blocks.eraseIdx i }
  else pure { c with blocks := c.blocks.set i { b with checked := true } }

/-- The block has the lock. Whether it calls back. -/
def blockRun (c : Callout) (i : ℕ) : Option (Callout × Bool) := do
  let b ← c.blocks[i]?
  if ¬ b.checked then none
  else pure ({ c with blocks := c.blocks.eraseIdx i }, decide (b.gen = c.coGeneration))

inductive CalloutOp where
  | init
  | reset (ticks now : ℤ)
  | stop
  | check (i : ℕ) (now : ℤ)
  | run (i : ℕ)

/-- What is done to a callout, and whether that calls back. -/
def calloutStep (c : Callout) : CalloutOp → Option (Callout × Bool)
  | .init => some (calloutInitMtx c, false)
  | .reset ticks now => some (calloutReset c ticks now, false)
  | .stop => some (calloutStop c, false)
  | .check i now => (blockCheck c i now).map (·, false)
  | .run i => blockRun c i

/-! ## The table -/

def ratelimitSize : ℕ := 2 ^ 13
def ratelimitMask : UInt64 := .ofNat (ratelimitSize - 1)
def ratelimitSizeMax : ℕ := ratelimitSize * 8
def initiationsPerSecond : ℤ := 20
def initiationsBurstable : ℤ := 5
def initiationCost : ℕ := (sbt1S / initiationsPerSecond).toNat
def tokenMax : ℕ := initiationCost * initiationsBurstable.toNat
def elementTimeout : ℤ := 1
def ipv4MaskSize : ℕ := 4
def ipv6MaskSize : ℕ := 8

structure RatelimitKey where
  vnet : ℕ
  ip : Bytes
deriving DecidableEq

/-- An entry, with the chain it hangs in. -/
structure RatelimitEntry where
  bucket : UInt64
  rKey : RatelimitKey
  rLastTime : ℤ
  rTokens : ℕ
deriving DecidableEq

/-- The chains of the table are those entries of one list that name them. -/
structure Ratelimit where
  rlSecret : Bytes
  rlGc : Callout
  rlTable : List RatelimitEntry
  rlTableNum : ℕ
  rlInitialized : Bool

/-- Memory that no one has written to. -/
def Ratelimit.blank : Ratelimit := ⟨[], ⟨0, []⟩, [], 0, false⟩

def ratelimitInit (rl : Ratelimit) (secret : Bytes) : Ratelimit :=
  ⟨secret, calloutInitMtx rl.rlGc, [], 0, true⟩

def ratelimitGcSchedule (rl : Ratelimit) (now : ℤ) : Ratelimit :=
  if rl.rlTableNum > 0 ∧ ¬ calloutPending rl.rlGc then
    { rl with rlGc := calloutReset rl.rlGc (elementTimeout * hz) now }
  else rl

def gcExpired (now : ℤ) (force : Bool) (r : RatelimitEntry) : Bool :=
  r.rLastTime < now - elementTimeout * sbt1S ∨ force

def ratelimitGc (rl : Ratelimit) (force : Bool) (now : ℤ) : Ratelimit :=
  if rl.rlTableNum = 0 then rl
  else
    let kept := rl.rlTable.filter fun r => ¬ gcExpired now force r
    let freed := rl.rlTable.length - kept.length
    ratelimitGcSchedule { rl with rlTable := kept, rlTableNum := rl.rlTableNum - freed } now

def ratelimitDeinit (rl : Ratelimit) (now : ℤ) : Ratelimit :=
  if ¬ rl.rlInitialized then rl
  else
    let rl := { rl with rlGc := calloutStop rl.rlGc }
    { ratelimitGc rl true now with rlInitialized := false }

/-- The key of an address and how many bytes of its address count; other families have none. -/
def ratelimitKey (sa : Sockaddr) (vnet : ℕ) : Option (RatelimitKey × ℕ) :=
  if sa.family = afInet then some (⟨vnet, sa.addr.take ipv4MaskSize ++ zeros 4⟩, ipv4MaskSize)
  else if sa.family = afInet6 then some (⟨vnet, sa.addr.take ipv6MaskSize⟩, ipv6MaskSize)
  else none

/-- The bucket's refill, and whether it pays for an initiation. -/
def ratelimitTokens (r : RatelimitEntry) (now : ℤ) : RatelimitEntry × Bool :=
  let diff := now - r.rLastTime
  let tokens := (((r.rTokens : ℤ) + diff) % 2 ^ 64).toNat
  let tokens := if tokens > tokenMax then tokenMax else tokens
  if tokens ≥ initiationCost then
    ({ r with rLastTime := now, rTokens := tokens - initiationCost }, true)
  else ({ r with rLastTime := now, rTokens := tokens }, false)

def entryOf (bucket : UInt64) (key : RatelimitKey) (len : ℕ) (r : RatelimitEntry) : Bool :=
  r.bucket = bucket ∧ r.rKey.vnet = key.vnet ∧ r.rKey.ip.take len = key.ip.take len

section Allow

variable (siphash13 : Bytes → ℕ → Bytes → UInt64)

/-- Whether the address may have its initiation; `alloc` tells whether there is memory left. -/
def ratelimitAllow (rl : Ratelimit) (sa : Sockaddr) (vnet : ℕ) (now : ℤ) (alloc : Bool) :
    Ratelimit × Bool :=
  match ratelimitKey sa vnet with
  | none => (rl, false)
  | some (key, len) =>
    let bucket := siphash13 rl.rlSecret key.vnet (key.ip.take len) &&& ratelimitMask
    match rl.rlTable.find? (entryOf bucket key len) with
    | some r =>
      let (r', allowed) := ratelimitTokens r now
      ({ rl with rlTable := rl.rlTable.replace r r' }, allowed)
    | none =>
      if rl.rlTableNum ≥ ratelimitSizeMax then (rl, false)
      else if ¬ alloc then (rl, false)
      else
        let rl := { rl with
          rlTable := ⟨bucket, key, now, tokenMax - initiationCost⟩ :: rl.rlTable,
          rlTableNum := rl.rlTableNum + 1 }
        (ratelimitGcSchedule rl now, true)

inductive LimitOp where
  | init (secret : Bytes)
  | deinit (now : ℤ)
  | allow (sa : Sockaddr) (vnet : ℕ) (now : ℤ) (alloc : Bool)
  | check (i : ℕ) (now : ℤ)
  | run (i : ℕ) (now : ℤ)

/-- What happens to the limiter. A block that calls back collects. -/
def limitStep (rl : Ratelimit) : LimitOp → Option (Ratelimit × Bool)
  | .init secret => some (ratelimitInit rl secret, true)
  | .deinit now => some (ratelimitDeinit rl now, true)
  | .allow sa vnet now alloc => some (ratelimitAllow siphash13 rl sa vnet now alloc)
  | .check i now => (blockCheck rl.rlGc i now).map fun c => ({ rl with rlGc := c }, true)
  | .run i now => (blockRun rl.rlGc i).map fun (c, calls) =>
    (if calls then ratelimitGc { rl with rlGc := c } false now else { rl with rlGc := c }, true)

end Allow

end PolarWG
