import PolarWG.Prims
import PolarWG.Lib.Exact

/-!
# The long-poll planner

`LongPollPlanner`, a decision function without a clock: `next` says what to do, `record` takes in
how a fetch went. A run is a sequence of their calls.
-/

namespace PolarWG

structure LongPollConfig where
  budget : ℤ
  wait : ℤ
  minReturn : ℤ
  floor : ℤ

/-- The default arguments. -/
def LongPollConfig.standard : LongPollConfig := ⟨55, 45, 5, 10⟩

inductive PollOutcome where
  | applied
  | unchanged
  | notModified
  | error
deriving DecidableEq

inductive PollStop where
  | budgetExhausted
  | transportError
  | noRevSupport
  | waitIgnored (elapsed : ℤ)
deriving DecidableEq

inductive PollAction where
  | fetch (wait : ℤ)
  | sleep (seconds : ℤ)
  | stop (reason : PollStop)
deriving DecidableEq

inductive PollMode where
  | probe
  | trial
  | longPoll
deriving DecidableEq

structure LongPollPlanner where
  config : LongPollConfig
  deadline : ℤ
  mode : PollMode
  pendingSleep : Option ℤ
  stopped : Option PollStop
  rev : Option Text

namespace LongPollPlanner

def init (config : LongPollConfig) (startTime : ℤ) (rev : Option Text) : LongPollPlanner :=
  ⟨config, startTime + config.budget, .probe, none, none, rev⟩

/-- What to do at `now`. -/
def next (p : LongPollPlanner) (now : ℤ) : LongPollPlanner × PollAction :=
  match p.stopped with
  | some stopped => (p, .stop stopped)
  | none =>
    match p.pendingSleep with
    | some sleepFor => ({ p with pendingSleep := none }, .sleep sleepFor)
    | none =>
      let remaining := p.deadline - now
      if remaining ≤ 1 then ({ p with stopped := some .budgetExhausted }, .stop .budgetExhausted)
      else if p.mode = .probe then (p, .fetch 0)
      else
        let waitFor := min p.config.wait remaining
        if waitFor < 1 then ({ p with stopped := some .budgetExhausted }, .stop .budgetExhausted)
        else (p, .fetch waitFor)

/-- What an answer with a body does. -/
def recordBody (p : LongPollPlanner) (outcome : PollOutcome) (elapsed : ℤ) (newRev : Option Text)
    (now : ℤ) : LongPollPlanner :=
  match p.mode with
  | .probe =>
    if newRev.getD [] = [] then { p with stopped := some .noRevSupport }
    else { p with mode := .trial }
  | .trial =>
    if elapsed ≥ p.config.minReturn then { p with mode := .longPoll }
    else { p with stopped := some (.waitIgnored elapsed) }
  | .longPoll =>
    if elapsed < p.config.minReturn ∧ outcome = .unchanged then
      if p.deadline - now ≤ p.config.floor then { p with stopped := some .budgetExhausted }
      else { p with pendingSleep := some p.config.floor }
    else p

/-- Takes in the result of the fetch that `next` asked for. -/
def record (p : LongPollPlanner) (outcome : PollOutcome) (elapsed : ℤ) (newRev : Option Text)
    (now : ℤ) : LongPollPlanner :=
  let p := if newRev.getD [] ≠ [] then { p with rev := newRev } else p
  match outcome with
  | .error => { p with stopped := some .transportError }
  | .notModified => { p with mode := .longPoll }
  | .applied | .unchanged => p.recordBody outcome elapsed newRev now

end LongPollPlanner

/-! ## Runs -/

/-- A planner between two calls: whether a fetch is out, the time of the last call, and whether that
was a record. -/
structure Polling where
  planner : LongPollPlanner
  fetching : Bool
  clock : ℤ
  recorded : Bool

def Polling.start (config : LongPollConfig) (startTime : ℤ) (rev : Option Text) : Polling :=
  ⟨.init config startTime rev, false, startTime, false⟩

inductive PollCall where
  | next (now : ℤ)
  | record (outcome : PollOutcome) (elapsed : ℤ) (newRev : Option Text) (now : ℤ)

/-- A call and what it answers. The clock does not run backwards; a fetch is recorded before `next`
is called again, which is called at the time of the record. Once the planner has stopped, anything
may be recorded. -/
def pollStep (s : Polling) : PollCall → Option (Polling × Option PollAction)
  | .next now =>
    if s.fetching ∨ now < s.clock ∨ (s.recorded ∧ now ≠ s.clock) then none
    else
      let (planner, action) := s.planner.next now
      let fetching := match action with
        | .fetch _ => true
        | _ => false
      some (⟨planner, fetching, now, false⟩, some action)
  | .record outcome elapsed newRev now =>
    if now < s.clock ∨ (¬ s.fetching ∧ s.planner.stopped = none) then none
    else some (⟨s.planner.record outcome elapsed newRev now, false, now, true⟩, none)

end PolarWG
