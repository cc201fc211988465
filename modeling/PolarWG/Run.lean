import PolarWG.Uapi
import PolarWG.Lib.Run

/-!
# Runs of a session

A session is created from a configuration text and then called, in any order and with any
arguments. What the clocks, the random draws and the resolver answer is part of a call.
-/

namespace PolarWG

inductive Call where
  | handleUdp (bytes : Bytes) (src : Sockaddr) (srcLen : ℕ) (env : UdpEnv)
  | handleTun (bytes : Bytes) (env : EncapEnv)
  | tick (env : TickEnv)
  | kick (env : InitiationEnv)
  | setUapi (resolve : Resolver) (text : Text)

def Call.isRequest : Call → Bool
  | .setUapi _ _ => true
  | _ => false

variable (p : Prims)

def sessionStep (s : WgSession) : Call → Option (WgSession × List Upcall)
  | .handleUdp bytes src srcLen env => (wgSessionHandleUdp p s bytes src srcLen env).map Prod.snd
  | .handleTun bytes env => some (wgSessionHandleTun p s bytes env).2
  | .tick env => wgSessionTick p s env
  | .kick env => (wgSessionKick p s env).map Prod.snd
  | .setUapi resolve text => some ((wgSessionSetUapi p resolve s text).2, [])

def Created (s : WgSession) : Prop := ∃ resolve text, wgSessionCreate p resolve text = some s

/-- The states of runs in which every call meets the guard. -/
abbrev ReachableIf (ok : WgSession → Call → Prop) (s : WgSession) : Prop :=
  Reachable (Created p) (sessionStep p) ok s

/-! ## Guards -/

/-- A guard on each line of a request, in the state and with the selected peer it is read with. -/
def SetAllowed (resolve : Resolver) (ok : WgSession → Option ℕ → Text → Text → Prop) :
    List Text → WgSession → Option ℕ → Prop
  | [], _, _ => True
  | line :: rest, s, cur =>
    (∀ key val, uapiLine line = some (key, val) → ok s cur key val) ∧
      match setLine p resolve s cur line with
      | .fail _ => True
      | .next s cur => SetAllowed resolve ok rest s cur

/-- The guard of runs whose requests meet a guard line by line. -/
def Guarded (ok : WgSession → Option ℕ → Text → Text → Prop) (s : WgSession) : Call → Prop
  | .setUapi resolve text => SetAllowed p resolve ok (strtok '\n' (cstr text)) s none
  | _ => True

/-- A guard on the removal of a peer: the state it is removed in, and its slot. -/
def OnRemoval (ok : WgSession → ℕ → Prop) (s : WgSession) (cur : Option ℕ) (key val : Text) :
    Prop := key = "remove".toList → val = "true".toList → ∀ i, cur = some i → ok s i

/-- A guard on the addition of a peer: the state it is added in, and the slot it gets. -/
def OnAddition (ok : WgSession → ℕ → Prop) (s : WgSession) (_ : Option ℕ) (key val : Text) :
    Prop := key = "public_key".toList → ∀ pk, hexDecode val 32 = some pk →
  findPeerByPubkey s pk = none → ∀ i, (allocPeerSlot s).2 = some i → ok s i

/-- A guard on a line that gives the selected peer an endpoint. -/
def OnEndpoint (ok : WgSession → ℕ → Prop) (s : WgSession) (cur : Option ℕ) (key _ : Text) :
    Prop := key = "endpoint".toList → ∀ i, cur = some i → ok s i

end PolarWG
