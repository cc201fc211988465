import PolarWG.Prims
import PolarWG.Lib.Exact

/-!
# The event loop on Windows

`run_event_loop` of `wg_windows_tun.c`, with the packets and datagrams that arrive while it waits or
drains. The driver's event may reset itself; the socket's event and the quit event do not, and the
loop resets none.
-/

namespace PolarWG

/-- Milliseconds. -/
def waitPeriod : ℤ := 1000

/-- The buffer of `drain_udp`. -/
def udpBufLen : ℕ := 2048

/-- What the loop calls of the session. -/
inductive LoopCall where
  | handleTun (pkt : Bytes)
  | handleUdp (buf : Bytes) (src : Sockaddr)
  | tick

/-- Where the loop is, and since when. -/
inductive LoopPhase where
  | waiting (began : ℤ)
  | drainTun (began : ℤ)
  | drainUdp (began : ℤ)
  | returned
deriving DecidableEq

structure WinLoop where
  now : ℤ
  phase : LoopPhase
  tunReadEvent : Bool
  udpEvent : Bool
  quitEvent : Bool
  ring : List Bytes
  udpSock : List (Bytes × Sockaddr)
  /-- The last tick, or the start of the loop. -/
  ticked : ℤ
  /-- How long the iteration before drained. -/
  drained : ℤ

/-- The loop as it is entered, with what has come in by then. -/
def WinLoop.start (now : ℤ) (tunReadEvent udpEvent quitEvent : Bool) (ring : List Bytes)
    (udpSock : List (Bytes × Sockaddr)) : WinLoop :=
  ⟨now, .waiting now, tunReadEvent, udpEvent, quitEvent, ring, udpSock, now, 0⟩

inductive LoopInput where
  | advance (now : ℤ)
  | packet (pkt : Bytes)
  | datagram (bytes : Bytes) (src : Sockaddr)
  | quit
  /-- `WaitForMultipleObjects` returns. -/
  | wait
  | waitFails
  /-- `WintunReceivePacket` or `recvfrom` returns. -/
  | receive
  /-- It returns an error other than that there is nothing. -/
  | receiveFails

/-- The wait returns as soon as an event is signalled or its time is up; all else may take time. -/
def WinLoop.mayAdvance (s : WinLoop) (now : ℤ) : Bool :=
  s.now ≤ now && match s.phase with
    | .waiting began => !s.tunReadEvent && !s.udpEvent && !s.quitEvent && now ≤ began + waitPeriod
    | _ => true

/-- What follows on the wait: the lowest event that is signalled, or the timeout. -/
def WinLoop.wait (autoReset : Bool) (s : WinLoop) (began : ℤ) : Option (WinLoop × List LoopCall) :=
  if s.tunReadEvent then
    some ({ s with tunReadEvent := ¬ autoReset, phase := .drainTun s.now }, [])
  else if s.udpEvent then some ({ s with phase := .drainUdp s.now }, [])
  else if s.quitEvent then some ({ s with phase := .returned }, [])
  else if began + waitPeriod ≤ s.now then
    some ({ s with phase := .waiting s.now, ticked := s.now, drained := 0 }, [.tick])
  else none

/-- The next iteration begins. -/
def WinLoop.endDrain (s : WinLoop) (began : ℤ) : WinLoop :=
  { s with phase := .waiting s.now, drained := s.now - began }

def WinLoop.receiveTun (s : WinLoop) (began : ℤ) : WinLoop × List LoopCall :=
  match s.ring with
  | [] => (s.endDrain began, [])
  | pkt :: ring => ({ s with ring := ring }, [.handleTun pkt])

/-- A datagram that does not fit is an error, and is gone. -/
def WinLoop.receiveUdp (s : WinLoop) (began : ℤ) : WinLoop × List LoopCall :=
  match s.udpSock with
  | [] => (s.endDrain began, [])
  | (bytes, src) :: udpSock =>
    if udpBufLen < bytes.length then ({ s with udpSock := udpSock }.endDrain began, [])
    else ({ s with udpSock := udpSock }, [.handleUdp bytes src])

/-- What happens to the loop, and what it calls. -/
def winStep (autoReset : Bool) (s : WinLoop) : LoopInput → Option (WinLoop × List LoopCall)
  | .advance now => if s.mayAdvance now then some ({ s with now := now }, []) else none
  | .packet pkt => some ({ s with ring := s.ring ++ [pkt], tunReadEvent := true }, [])
  | .datagram bytes src =>
    some ({ s with udpSock := s.udpSock ++ [(bytes, src)], udpEvent := true }, [])
  | .quit => some ({ s with quitEvent := true }, [])
  | .wait =>
    match s.phase with
    | .waiting began => s.wait autoReset began
    | _ => none
  | .waitFails =>
    match s.phase with
    | .waiting _ => some ({ s with phase := .returned }, [])
    | _ => none
  | .receive =>
    match s.phase with
    | .drainTun began => some (s.receiveTun began)
    | .drainUdp began => some (s.receiveUdp began)
    | _ => none
  | .receiveFails =>
    match s.phase with
    | .drainTun began | .drainUdp began => some (s.endDrain began, [])
    | _ => none

end PolarWG
