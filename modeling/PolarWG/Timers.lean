import PolarWG.Session

/-!
# Timers

`wg_session_tick` and `tunnel_tick_peer` for one peer, down to the fields they compare with the
clock. Whether an initiation can be made and a packet encapsulated is up to the Noise layer, and an
argument.
-/

namespace PolarWG

/-- The timer fields that `struct wgs_peer` and `struct peer_state` share. -/
structure PeerTimers where
  hasEndpoint : Bool
  endpointLen : ℕ
  pkSec : ℤ
  hsPending : Bool
  hsSentAt : ℤ
  hsAttempts : ℕ
  keypairBirth : ℤ
  lastAuthdTx : ℤ
deriving DecidableEq

inductive TimerAction where
  | giveUp
  | initiation
  | keepalive
deriving DecidableEq

/-- Whether the Noise layer makes what the timers ask for, should they ask. -/
structure NoiseAnswers where
  retransmit : Bool
  initiate : Bool
  keepalive : Bool
deriving DecidableEq

def PeerTimers.initiated (t : PeerTimers) (now : ℤ) : PeerTimers :=
  { t with hsPending := true, hsSentAt := now, hsAttempts := t.hsAttempts + 1, lastAuthdTx := now }

/-- The session's and the client's retransmission, which differ in how they send. -/
def timerRetransmit (sendInitiation : PeerTimers → PeerTimers × List TimerAction) (now : ℤ)
    (t : PeerTimers) : PeerTimers × List TimerAction :=
  if t.hsPending ∧ now - t.hsSentAt ≥ rekeyTimeoutSec then
    let t := { t with hsSentAt := now }
    if t.hsAttempts ≥ maxHandshakeAttempts then
      ({ t with hsPending := false, hsAttempts := 0 }, [.giveUp])
    else sendInitiation t
  else (t, [])

/-- Without an address nothing is encapsulated. -/
def timerKeepalive (sealable : Bool) (now : ℤ) (t : PeerTimers) : PeerTimers × List TimerAction :=
  if t.pkSec > 0 ∧ t.lastAuthdTx > 0 ∧ now - t.lastAuthdTx ≥ t.pkSec then
    if t.endpointLen = 0 ∨ ¬ sealable then (t, [])
    else ({ t with lastAuthdTx := now }, [.keepalive])
  else (t, [])

/-! ## The session -/

def wgsTimerInitiation (made : Bool) (now : ℤ) (t : PeerTimers) :
    PeerTimers × List TimerAction :=
  if ¬ t.hasEndpoint ∨ t.endpointLen = 0 ∨ ¬ made then (t, []) else (t.initiated now, [.initiation])

def wgsTimerRekey (made : Bool) (now : ℤ) (t : PeerTimers) : PeerTimers × List TimerAction :=
  if ¬ t.hsPending ∧ t.keypairBirth ≠ 0 ∧ t.endpointLen > 0
      ∧ now - t.keypairBirth ≥ rekeyAfterTimeSec then
    wgsTimerInitiation made now { t with hsAttempts := 0 }
  else (t, [])

def wgsTimerTick (o : NoiseAnswers) (now : ℤ) (t : PeerTimers) : PeerTimers × List TimerAction :=
  let (t, a₁) := timerRetransmit (wgsTimerInitiation o.retransmit now) now t
  let (t, a₂) := wgsTimerRekey o.initiate now t
  let (t, a₃) := timerKeepalive o.keepalive now t
  (t, a₁ ++ a₂ ++ a₃)

/-! ## The client -/

def tunnelSendInitiation (made : Bool) (now : ℤ) (t : PeerTimers) :
    PeerTimers × List TimerAction :=
  if t.endpointLen = 0 ∨ ¬ made then (t, []) else (t.initiated now, [.initiation])

/-- The client dials a configured endpoint by itself. -/
def tunnelRekey (rekeyJitterSec : ℤ) (made : Bool) (now : ℤ) (t : PeerTimers) :
    PeerTimers × List TimerAction :=
  if ¬ t.hsPending ∧ t.hasEndpoint then
    let needsInitial : Bool := t.keypairBirth = 0
    let needsRekey : Bool :=
      t.keypairBirth > 0 ∧ now - t.keypairBirth ≥ rekeyAfterTimeSec + rekeyJitterSec
    if needsInitial ∨ needsRekey then tunnelSendInitiation made now { t with hsAttempts := 0 }
    else (t, [])
  else (t, [])

def tunnelTickPeer (rekeyJitterSec : ℤ) (o : NoiseAnswers) (now : ℤ) (t : PeerTimers) :
    PeerTimers × List TimerAction :=
  let (t, a₁) := timerRetransmit (tunnelSendInitiation o.retransmit now) now t
  let (t, a₂) := tunnelRekey rekeyJitterSec o.initiate now t
  let (t, a₃) := timerKeepalive o.keepalive now t
  (t, a₁ ++ a₂ ++ a₃)

end PolarWG
