import PolarWG.WGConf
import PolarWG.Get

/-!
# Watching an endpoint

What the data plane prints of the address it sends to, and what the agent makes of it: `Endpoint`
splits the text, and `EndpointWatch` compares its host with the answer of the name service.
-/

namespace PolarWG

/-! ## The data plane -/

/-- The room its callers give it. -/
def fmtSockaddrLen : ℕ := 80

def fmtSockaddr (ntop : ℕ → Bytes → Text) (sa : Sockaddr) (outLen : ℕ) : Text :=
  let text := if sa.family = afInet then
      ntop afInet sa.addr ++ ':' :: fmtUnsigned sa.port.toNat
    else if sa.family = afInet6 then
      ntop afInet6 sa.addr ++ ':' :: fmtUnsigned sa.port.toNat
    else "<af=".toList ++ fmtUnsigned sa.family ++ ['>']
  text.take (outLen - 1)

/-! ## Endpoints -/

structure Endpoint where
  host : Text
  port : Option ℤ
deriving DecidableEq

/-- `Endpoint(_ text: String)`. -/
def Endpoint.ofText (text : Text) : Option Endpoint :=
  let s := trimmed text
  let split : Option Endpoint := match s with
    | [] => none
    | '[' :: inner =>
      if ']' ∉ inner then none
      else
        let rest := (inner.dropWhile (· ≠ ']')).tail
        let port := match rest with
          | ':' :: digits => intOfText digits
          | _ => none
        some ⟨inner.takeWhile (· ≠ ']'), port⟩
    | s =>
      if s.count ':' = 1 then
        some ⟨s.takeWhile (· ≠ ':'), intOfText (s.dropWhile (· ≠ ':')).tail⟩
      else some ⟨s, none⟩
  split.filter fun e => e.host ≠ []

/-- `Int` reads no numerals but the ASCII digits, so others that count as numbers do not matter. -/
def isOctet (part : Text) : Bool :=
  part ≠ [] ∧ part.all Char.isDigit ∧ (intOfText part).getD 256 ≤ 255

def Endpoint.isLiteralAddress (e : Endpoint) : Bool :=
  if ':' ∈ e.host then true
  else
    let parts := e.host.splitOn '.'
    parts.length = 4 ∧ parts.all isOctet

/-! ## Verdicts -/

structure WatchConfig where
  cooldownSec : ℤ
  stalenessSec : ℤ

/-- The default arguments. -/
def WatchConfig.standard : WatchConfig := ⟨300, 180⟩

inductive Verdict where
  | healthy
  | endpointDrifted (inUse : Text) (resolved : List Text)
  | handshakeStale (ageSec : Option ℤ)
  | cooling (secondsRemaining : ℤ)
  | indeterminate (reason : String)
deriving DecidableEq

def diagnoseHandshake (inUse : Option Text) (handshakeAgeSec : Option ℤ) (config : WatchConfig) :
    Verdict :=
  match handshakeAgeSec with
  | none =>
    if inUse = none ∨ inUse = some [] then .indeterminate "no endpoint yet"
    else .handshakeStale none
  | some age => if age > config.stalenessSec then .handshakeStale (some age) else .healthy

/-- The host in use that the name service no longer answers. -/
def driftedHost (configured inUse : Option Text) (resolved : List Text) : Option Text := do
  let configuredText ← configured
  let endpoint ← Endpoint.ofText configuredText
  if endpoint.isLiteralAddress ∨ resolved = [] then none
  else
    let inUseText ← inUse
    let inUseEndpoint ← Endpoint.ofText inUseText
    if resolved.contains inUseEndpoint.host then none else some inUseEndpoint.host

def diagnose (configured inUse : Option Text) (resolved : List Text) (handshakeAgeSec : Option ℤ)
    (config : WatchConfig) : Verdict :=
  match driftedHost configured inUse resolved with
  | some host => .endpointDrifted host resolved
  | none => diagnoseHandshake inUse handshakeAgeSec config

def evaluate (configured inUse : Option Text) (resolved : List Text)
    (handshakeAgeSec secondsSinceLastRedial : Option ℤ) (config : WatchConfig) : Verdict :=
  match diagnose configured inUse resolved handshakeAgeSec config with
  | .healthy => .healthy
  | .indeterminate reason => .indeterminate reason
  | verdict =>
    match secondsSinceLastRedial with
    | some since =>
      if since < config.cooldownSec then .cooling (config.cooldownSec - since) else verdict
    | none => verdict

end PolarWG
