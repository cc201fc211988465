import Mathlib.Data.Rat.Floor
import PolarWG.PublicIP

/-!
# Dialling again

`RedialJournal` keeps in a file when an interface was last dialled again, and `EndpointReconciler`
asks what is wrong with it and dials. Each call may be made by another process, which finds the file.
-/

namespace PolarWG

/-- `Int` of so many seconds. -/
def truncated (t : ℚ) : ℤ := if 0 ≤ t then ⌊t⌋ else ⌈t⌉

/-! ## The journal -/

def stampOf (file : Option Text) : Option ℤ :=
  file.bind fun text => intOfText
    ((text.dropWhile isWhitespaceOrNewline).reverse.dropWhile isWhitespaceOrNewline).reverse

/-- No result is a trap of the arithmetic. -/
def secondsSinceLastRedial (file : Option Text) (now : ℚ) : Option (Option ℤ) :=
  match stampOf file with
  | none => some none
  | some stamp => do
    let nowSec ← checkedInt (truncated now)
    let delta ← checkedInt (nowSec - stamp)
    some (if 0 ≤ delta then some delta else none)

/-- What is written. -/
def recordRedial (now : ℚ) : Option Text := (checkedInt (truncated now)).map fmtSigned

/-! ## The reconciler -/

structure PeerStatus where
  endpoint : Option Text
  lastHandshakeSec : Option ℤ

def Verdict.requiresRedial : Verdict → Bool
  | .endpointDrifted _ _ | .handshakeStale _ => true
  | .healthy | .cooling _ | .indeterminate _ => false

/-- What one call is given: the configuration and the status, the time, what the name service
answers for a host, and whether a command to dial succeeds. -/
structure ReconcileCall where
  configuredEndpoint : Option Text
  status : Option PeerStatus
  now : ℚ
  addresses : Text → List Text
  redial : Bool

structure ReconcileOutcome where
  verdict : Verdict
  redialed : Bool
deriving DecidableEq

def resolvedAddresses (c : ReconcileCall) : List Text :=
  match c.configuredEndpoint.bind Endpoint.ofText with
  | some endpoint => if endpoint.isLiteralAddress then [] else c.addresses endpoint.host
  | none => []

/-- A command to dial, and whether it succeeded. -/
structure RedialCommand where
  time : ℚ
  succeeded : Bool
deriving DecidableEq

/-- The file after the call, the command that was issued, and the outcome. The file can be
written. -/
def reconcile (config : WatchConfig) (file : Option Text) (c : ReconcileCall) :
    Option (Option Text × Option RedialCommand × ReconcileOutcome) := do
  let since ← secondsSinceLastRedial file c.now
  let verdict := evaluate c.configuredEndpoint (c.status.bind (·.endpoint)) (resolvedAddresses c)
    (c.status.bind (·.lastHandshakeSec)) since config
  if verdict.requiresRedial ∧ c.configuredEndpoint ≠ none then
    if c.redial then
      let stamp ← recordRedial c.now
      some (some stamp, some ⟨c.now, true⟩, ⟨verdict, true⟩)
    else some (file, some ⟨c.now, false⟩, ⟨verdict, false⟩)
  else some (file, none, ⟨verdict, false⟩)

/-! ## Runs -/

/-- The file, the time of the last call, and the commands issued so far. -/
structure Redialing where
  file : Option Text
  clock : ℚ
  commands : List RedialCommand
deriving DecidableEq

def reconcileStep (config : WatchConfig) (s : Redialing) (c : ReconcileCall) :
    Option (Redialing × ReconcileOutcome) :=
  (reconcile config s.file c).map fun (file, command, outcome) =>
    (⟨file, c.now, s.commands ++ command.toList⟩, outcome)

/-- Time does not run backwards. -/
def InOrder (s : Redialing) (c : ReconcileCall) : Prop := s.clock ≤ c.now

instance (s : Redialing) (c : ReconcileCall) : Decidable (InOrder s c) :=
  inferInstanceAs (Decidable (s.clock ≤ c.now))

end PolarWG
