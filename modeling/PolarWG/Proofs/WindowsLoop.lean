import PolarWG.WindowsLoop
import PolarWG.Specimen

/-!
# Ticks that do not come

The session is ticked by a wait that times out. The event of the socket is signalled for good by
the first datagram, so after it no wait does; and a packet that ends a wait starts the time of the
next one anew.
-/

namespace PolarWG

variable {autoReset : Bool} {s s' : WinLoop} {i : LoopInput} {calls : List LoopCall}

/-- As an iteration begins, and in its drain pass: the time since the last tick is the wait period
and one drain pass at most. -/
def WinLoop.InTime (s : WinLoop) : Prop :=
  match s.phase with
  | .waiting began => began - s.ticked ≤ waitPeriod + s.drained
  | .drainTun began | .drainUdp began => s.now - s.ticked ≤ waitPeriod + (s.now - began)
  | .returned => True

/-- The guard that keeps the ticks in time: later than the wait period after the last tick, no wait
is ended by the driver's or the socket's event. -/
def Unwoken (s : WinLoop) : LoopInput → Prop
  | .wait => s.tunReadEvent = true ∨ s.udpEvent = true → s.now - s.ticked ≤ waitPeriod
  | _ => True

/-! ## One step -/

/-- What a step does to the times: some steps leave them alone, the others end a wait or a drain
pass. -/
inductive Timing (s : WinLoop) : LoopInput → WinLoop → Prop where
  | same {i : LoopInput} {s' : WinLoop} (hi : i ≠ .wait) (hphase : s'.phase = s.phase)
    (hticked : s'.ticked = s.ticked) (hdrained : s'.drained = s.drained) : Timing s i s'
  | woken {s' : WinLoop} (hevent : s.tunReadEvent = true ∨ s.udpEvent = true)
    (hphase : s'.phase = .drainTun s'.now ∨ s'.phase = .drainUdp s'.now)
    (hticked : s'.ticked = s.ticked) (hnow : s'.now = s.now) : Timing s .wait s'
  | ticked {s' : WinLoop} (hevent : ¬ (s.tunReadEvent = true ∨ s.udpEvent = true))
    (hphase : s'.phase = .waiting s'.ticked) (hdrained : s'.drained = 0) : Timing s .wait s'
  | drained {i : LoopInput} {s' : WinLoop} {began : ℤ} (hi : i ≠ .wait)
    (hbegan : s.phase = .drainTun began ∨ s.phase = .drainUdp began)
    (hphase : s'.phase = .waiting s.now) (hticked : s'.ticked = s.ticked)
    (hdrained : s'.drained = s.now - began) : Timing s i s'
  | returned {i : LoopInput} {s' : WinLoop} (hphase : s'.phase = .returned)
    (hticked : s'.ticked = s.ticked)
    (hevent : i = .wait → ¬ (s.tunReadEvent = true ∨ s.udpEvent = true)) : Timing s i s'

theorem wait_timing {began : ℤ} (h : s.wait autoReset began = some (s', calls)) :
    Timing s .wait s' ∧ (s.udpEvent = true → s'.udpEvent = true) := by
  unfold WinLoop.wait at h
  split_ifs at h with htun hudp hquit htime
  · cases h
    exact ⟨.woken (.inl htun) (.inl rfl) rfl rfl, id⟩
  · cases h
    exact ⟨.woken (.inr hudp) (.inr rfl) rfl rfl, id⟩
  · cases h
    exact ⟨.returned rfl rfl fun _ => by simp [htun, hudp], id⟩
  · cases h
    exact ⟨.ticked (by simp [htun, hudp]) rfl rfl, id⟩

theorem receiveTun_timing {began : ℤ} (hphase : s.phase = .drainTun began) :
    Timing s .receive (s.receiveTun began).1
      ∧ (s.receiveTun began).1.udpEvent = s.udpEvent := by
  unfold WinLoop.receiveTun
  split
  · exact ⟨.drained (by simp) (.inl hphase) rfl rfl rfl, rfl⟩
  · exact ⟨.same (by simp) rfl rfl rfl, rfl⟩

theorem receiveUdp_timing {began : ℤ} (hphase : s.phase = .drainUdp began) :
    Timing s .receive (s.receiveUdp began).1
      ∧ (s.receiveUdp began).1.udpEvent = s.udpEvent := by
  unfold WinLoop.receiveUdp
  split
  · exact ⟨.drained (by simp) (.inr hphase) rfl rfl rfl, rfl⟩
  · split_ifs
    · exact ⟨.drained (by simp) (.inr hphase) rfl rfl rfl, rfl⟩
    · exact ⟨.same (by simp) rfl rfl rfl, rfl⟩

theorem winStep_timing (h : winStep autoReset s i = some (s', calls)) :
    Timing s i s' ∧ (s.udpEvent = true → s'.udpEvent = true) := by
  rcases i with now | pkt | ⟨bytes, src⟩ | _ | _ | _ | _ | _ <;> simp only [winStep] at h
  · split_ifs at h
    cases h
    exact ⟨.same (by simp) rfl rfl rfl, id⟩
  · cases h
    exact ⟨.same (by simp) rfl rfl rfl, id⟩
  · cases h
    exact ⟨.same (by simp) rfl rfl rfl, fun _ => rfl⟩
  · cases h
    exact ⟨.same (by simp) rfl rfl rfl, id⟩
  · split at h
    · exact wait_timing h
    · cases h
  · split at h
    · cases h
      exact ⟨.returned rfl rfl (by simp), id⟩
    · cases h
  · split at h
    · next began hphase =>
      obtain ⟨ht, hu⟩ := receiveTun_timing hphase
      rw [Option.some.inj h] at ht hu
      exact ⟨ht, fun hudp => hu.trans hudp⟩
    · next began hphase =>
      obtain ⟨ht, hu⟩ := receiveUdp_timing hphase
      rw [Option.some.inj h] at ht hu
      exact ⟨ht, fun hudp => hu.trans hudp⟩
    · cases h
  · split at h
    · next began hphase =>
      cases h
      exact ⟨.drained (by simp) (.inl hphase) rfl rfl rfl, id⟩
    · next began hphase =>
      cases h
      exact ⟨.drained (by simp) (.inr hphase) rfl rfl rfl, id⟩
    · cases h

/-- The property does not depend on the time that a drain pass has taken so far. -/
theorem inTime_iff : s.InTime ↔ match s.phase with
    | .waiting began => began - s.ticked ≤ waitPeriod + s.drained
    | .drainTun began | .drainUdp began => began - s.ticked ≤ waitPeriod
    | .returned => True := by
  unfold WinLoop.InTime
  rcases s.phase with began | began | began | _ <;> simp only []
  · omega
  · omega

theorem unwoken_of_ne (h : i ≠ .wait) : Unwoken s i := by
  rcases i with _ | _ | _ | _ | _ | _ | _ | _
  case wait => exact absurd rfl h
  all_goals exact trivial

theorem winStep_inTime (hs : s.InTime) (h : winStep autoReset s i = some (s', calls)) :
    s'.InTime ↔ Unwoken s i := by
  rw [inTime_iff] at hs ⊢
  rcases (winStep_timing h).1 with ⟨hi, hphase, hticked, hdrained⟩ | ⟨hevent, hphase, hticked, hnow⟩ |
    ⟨hevent, hphase, hdrained⟩ | ⟨hi, hbegan, hphase, hticked, hdrained⟩ |
    ⟨hphase, hticked, hevent⟩
  · rw [hphase, hticked, hdrained]
    exact iff_of_true hs (unwoken_of_ne hi)
  · have hiff : s'.now - s'.ticked ≤ waitPeriod ↔ Unwoken s .wait := by
      rw [hnow, hticked]
      exact ⟨fun h _ => h, fun h => h hevent⟩
    rcases hphase with hphase | hphase <;> rw [hphase] <;> exact hiff
  · refine iff_of_true ?_ fun h => absurd h hevent
    rw [hphase, hdrained]
    simp only [waitPeriod]
    omega
  · refine iff_of_true ?_ (unwoken_of_ne hi)
    rw [hphase, hticked, hdrained]
    rcases hbegan with hbegan | hbegan <;> rw [hbegan] at hs <;> simp only [] at hs ⊢ <;> omega
  · rw [hphase]
    refine iff_of_true trivial ?_
    by_cases hi : i = .wait
    · subst hi
      exact fun h => absurd h (hevent rfl)
    · exact unwoken_of_ne hi

/-- While the socket's event is signalled no step ticks. -/
theorem winStep_ticked (hudp : s.udpEvent = true)
    (h : winStep autoReset s i = some (s', calls)) :
    s'.udpEvent = true ∧ s'.ticked = s.ticked := by
  obtain ⟨htiming, hkept⟩ := winStep_timing h
  refine ⟨hkept hudp, ?_⟩
  rcases htiming with ⟨-, -, hticked, -⟩ | ⟨-, -, hticked, -⟩ | ⟨hevent, -, -⟩ |
    ⟨-, -, -, hticked, -⟩ | ⟨-, hticked, -⟩
  · exact hticked
  · exact hticked
  · exact absurd (.inr hudp) hevent
  · exact hticked
  · exact hticked

/-! ## Runs -/

variable {now : ℤ} {tunReadEvent udpEvent quitEvent : Bool} {ring : List Bytes}
  {udpSock : List (Bytes × Sockaddr)} {is : List LoopInput}

namespace Specimen

/-- A loop whose socket has been drained and whose event is left signalled. -/
def spinning (now : ℤ) : WinLoop :=
  ⟨now, .waiting now, false, true, false, [], [], 0, 1⟩

/-- An iteration of a millisecond that drains nothing. -/
def emptyPass (now : ℤ) : List LoopInput := [.wait, .advance (now + 1), .receive]

def emptyPasses : ℕ → List LoopInput
  | 0 => []
  | n + 1 => emptyPasses n ++ emptyPass (n + 1)

end Specimen

open Specimen

theorem emptyPass_run (now : ℤ) :
    FreeRun (winStep autoReset) (spinning now) (emptyPass now) (spinning (now + 1)) := by
  have hadvance : WinLoop.mayAdvance { spinning now with phase := .drainUdp now } (now + 1) = true := by
    simp [WinLoop.mayAdvance, spinning]
  refine .cons trivial rfl (.cons trivial (if_pos hadvance) (.cons trivial rfl ?_))
  have hdrained : now + 1 - now = 1 := by omega
  show FreeRun (winStep autoReset) ⟨now + 1, .waiting (now + 1), false, true, false, [], [], 0,
    now + 1 - now⟩ [] _
  rw [hdrained]
  exact .nil _

theorem emptyPasses_run : ∀ n : ℕ,
    FreeRun (winStep autoReset) (spinning 1) (emptyPasses n) (spinning (n + 1))
  | 0 => .nil _
  | n + 1 => by
    have := (emptyPasses_run n).append (emptyPass_run ((n : ℤ) + 1))
    rwa [show ((n + 1 : ℕ) : ℤ) + 1 = (n : ℤ) + 1 + 1 by push_cast; rfl]

end PolarWG
