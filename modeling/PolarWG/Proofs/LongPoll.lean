import PolarWG.LongPoll

/-!
# What the long-poll planner promises

It keeps within its budget, and a stop is for good, though not its reason. Where an answer without
a change comes too fast it backs off; where one with a change does, or one without a body, it asks
again at once.
-/

namespace PolarWG

variable {p : LongPollPlanner} {now : ℤ}

namespace LongPollPlanner

/-! ## One call -/

/-- What `next` answers, and what it leaves. -/
inductive Next (p : LongPollPlanner) (now : ℤ) : LongPollPlanner × PollAction → Prop where
  | stopped {reason : PollStop} (h : p.stopped = some reason) : Next p now (p, .stop reason)
  | sleep {seconds : ℤ} (h : p.stopped = none) (hs : p.pendingSleep = some seconds) :
    Next p now ({ p with pendingSleep := none }, .sleep seconds)
  | exhausted (h : p.stopped = none) (hs : p.pendingSleep = none) :
    Next p now ({ p with stopped := some .budgetExhausted }, .stop .budgetExhausted)
  | fetch {wait : ℤ} (h : p.stopped = none) (hs : p.pendingSleep = none)
    (hbefore : now + 1 < p.deadline) (hwait : now + wait ≤ p.deadline) :
    Next p now (p, .fetch wait)

theorem next_cases (p : LongPollPlanner) (now : ℤ) : Next p now (p.next now) := by
  obtain ⟨config, deadline, mode, pendingSleep, stopped, rev⟩ := p
  unfold next
  rcases stopped with _ | reason
  · rcases pendingSleep with _ | seconds
    · simp only []
      split_ifs with h1 h2 h3
      · exact .exhausted rfl rfl
      · exact .fetch rfl rfl (by simp only []; omega) (by simp only []; omega)
      · exact .exhausted rfl rfl
      · exact .fetch rfl rfl (by simp only []; omega) (by simp only []; omega)
    · exact .sleep rfl rfl
  · exact .stopped rfl

/-- What `record` leaves: it stops, has a sleep to be done, or goes on. -/
inductive Recorded (p : LongPollPlanner) (outcome : PollOutcome) (elapsed now : ℤ)
    (q : LongPollPlanner) : Prop where
  | stop {reason : PollStop} (h : q.stopped = some reason)
  | backOff (h : q.stopped = p.stopped) (hs : q.pendingSleep = some p.config.floor)
    (hm : q.mode = .longPoll) (hp : p.mode = .longPoll)
    (hbefore : now + p.config.floor < p.deadline)
  | on (h : q.stopped = p.stopped) (hs : q.pendingSleep = p.pendingSleep)
    (hm : q.mode = .longPoll ∨ p.mode = .probe ∧ q.mode = .trial)
    (hheld : p.mode = .longPoll →
      p.config.minReturn ≤ elapsed ∨ outcome = .applied ∨ outcome = .notModified)

/-- Whether what is recorded makes the planner stop. -/
def SetsStop (p : LongPollPlanner) (outcome : PollOutcome) (elapsed : ℤ) (newRev : Option Text)
    (now : ℤ) : Prop :=
  match outcome, p.mode with
  | .error, _ => True
  | .notModified, _ => False
  | .applied, .probe | .unchanged, .probe => newRev.getD [] = []
  | .applied, .trial | .unchanged, .trial => elapsed < p.config.minReturn
  | .applied, .longPoll => False
  | .unchanged, .longPoll =>
    elapsed < p.config.minReturn ∧ p.deadline - now ≤ p.config.floor

theorem recordBody_cases {outcome : PollOutcome} (hout : outcome = .applied ∨ outcome = .unchanged)
    (p : LongPollPlanner) (elapsed : ℤ) (newRev : Option Text) (now : ℤ) :
    Recorded p outcome elapsed now (p.recordBody outcome elapsed newRev now) := by
  obtain ⟨config, deadline, mode, pendingSleep, stopped, rev⟩ := p
  unfold recordBody
  rcases mode with _ | _ | _
  · simp only []
    split_ifs
    · exact .stop rfl
    · exact .on rfl rfl (.inr ⟨rfl, rfl⟩) (fun h => by cases h)
  · simp only []
    split_ifs
    · exact .on rfl rfl (.inl rfl) (fun h => by cases h)
    · exact .stop rfl
  · simp only []
    split_ifs with hquick hlate
    · exact .stop rfl
    · exact .backOff rfl rfl rfl rfl (by simp only []; omega)
    · refine .on rfl rfl (.inl rfl) fun _ => ?_
      rcases hout with hout | hout
      · exact .inr (.inl hout)
      · exact .inl (not_lt.mp fun hlt => hquick ⟨hlt, hout⟩)

theorem record_cases (p : LongPollPlanner) (outcome : PollOutcome) (elapsed : ℤ)
    (newRev : Option Text) (now : ℤ) :
    Recorded p outcome elapsed now (p.record outcome elapsed newRev now) := by
  obtain ⟨p', hp', hrev⟩ : ∃ p', p' = { p with rev := p'.rev }
      ∧ (if newRev.getD [] ≠ [] then { p with rev := newRev } else p) = p' := by
    split_ifs
    · exact ⟨_, rfl, rfl⟩
    · exact ⟨p, rfl, rfl⟩
  unfold record
  rw [hrev, hp']
  rcases outcome with _ | _ | _ | _
  · rcases recordBody_cases (.inl rfl) { p with rev := p'.rev } elapsed newRev now with
      ⟨h⟩ | ⟨h, hs, hm, hp, hb⟩ | ⟨h, hs, hm, hh⟩
    · exact .stop h
    · exact .backOff h hs hm hp hb
    · exact .on h hs hm hh
  · rcases recordBody_cases (.inr rfl) { p with rev := p'.rev } elapsed newRev now with
      ⟨h⟩ | ⟨h, hs, hm, hp, hb⟩ | ⟨h, hs, hm, hh⟩
    · exact .stop h
    · exact .backOff h hs hm hp hb
    · exact .on h hs hm hh
  · exact .on rfl rfl (.inl rfl) fun _ => .inr (.inr rfl)
  · exact .stop rfl

theorem recordBody_config (p : LongPollPlanner) (outcome : PollOutcome) (elapsed : ℤ)
    (newRev : Option Text) (now : ℤ) :
    (p.recordBody outcome elapsed newRev now).config = p.config
      ∧ (p.recordBody outcome elapsed newRev now).deadline = p.deadline := by
  unfold recordBody
  split <;> split_ifs <;> exact ⟨rfl, rfl⟩

theorem record_config (p : LongPollPlanner) (outcome : PollOutcome) (elapsed : ℤ)
    (newRev : Option Text) (now : ℤ) :
    (p.record outcome elapsed newRev now).config = p.config
      ∧ (p.record outcome elapsed newRev now).deadline = p.deadline := by
  unfold record
  split_ifs <;> rcases outcome <;>
    first | exact ⟨rfl, rfl⟩ | exact recordBody_config _ _ _ _ _

theorem recordBody_stopped {p : LongPollPlanner} {outcome : PollOutcome} {elapsed : ℤ}
    {newRev : Option Text} {now : ℤ} (hout : outcome = .applied ∨ outcome = .unchanged)
    (h : ¬ SetsStop p outcome elapsed newRev now) :
    (p.recordBody outcome elapsed newRev now).stopped = p.stopped := by
  unfold recordBody
  unfold SetsStop at h
  rcases hm : p.mode <;> rw [hm] at h <;> simp only []
  · split_ifs with hrev
    · rcases hout with rfl | rfl <;> exact absurd hrev h
    · rfl
  · split_ifs with hheld
    · rfl
    · rcases hout with rfl | rfl <;> exact absurd (not_le.mp hheld) h
  · split_ifs with hquick hlate
    · rw [hquick.2] at h
      exact absurd ⟨hquick.1, hlate⟩ h
    · rfl
    · rfl

theorem record_stopped {p : LongPollPlanner} {outcome : PollOutcome} {elapsed : ℤ}
    {newRev : Option Text} {now : ℤ} (h : ¬ SetsStop p outcome elapsed newRev now) :
    (p.record outcome elapsed newRev now).stopped = p.stopped := by
  unfold record
  rcases outcome with _ | _ | _ | _
  · split_ifs
    · exact recordBody_stopped (p := { p with rev := newRev }) (.inl rfl) h
    · exact recordBody_stopped (.inl rfl) h
  · split_ifs
    · exact recordBody_stopped (p := { p with rev := newRev }) (.inr rfl) h
    · exact recordBody_stopped (.inr rfl) h
  · split_ifs <;> rfl
  · exact absurd trivial h

end LongPollPlanner

/-! ## Runs -/

/-- The deadline is the one of the start, and a sleep that is still to be done was set by a record
just before and ends in time. -/
structure Polling.Timed (deadline : ℤ) (s : Polling) : Prop where
  ends : s.planner.deadline = deadline
  pending : s.planner.stopped = none → ∀ seconds, s.planner.pendingSleep = some seconds →
    s.fetching = false ∧ s.recorded = true ∧ s.clock + seconds ≤ deadline

theorem pollStep_next {s s' : Polling} {a : Option PollAction}
    (h : pollStep s (.next now) = some (s', a)) :
    s.fetching = false ∧ s.clock ≤ now ∧ (s.recorded = true → now = s.clock)
      ∧ s'.planner = (s.planner.next now).1 ∧ a = some (s.planner.next now).2 := by
  unfold pollStep at h
  simp only [] at h
  split_ifs at h with hbad
  simp only [not_or, not_and, not_lt, not_not] at hbad
  cases h
  exact ⟨by simpa using hbad.1, hbad.2.1, hbad.2.2, rfl, rfl⟩

theorem pollStep_record {s s' : Polling} {a : Option PollAction} {outcome : PollOutcome}
    {elapsed : ℤ} {newRev : Option Text}
    (h : pollStep s (.record outcome elapsed newRev now) = some (s', a)) :
    (s.fetching = true ∨ s.planner.stopped ≠ none)
      ∧ s' = ⟨s.planner.record outcome elapsed newRev now, false, now, true⟩ ∧ a = none := by
  unfold pollStep at h
  simp only [] at h
  split_ifs at h with hbad
  cases h
  refine ⟨?_, rfl, rfl⟩
  by_contra hno
  rw [not_or, not_not] at hno
  exact hbad (.inr hno)

theorem pollStep_timed {deadline : ℤ} {s s' : Polling} {call : PollCall} {a : Option PollAction}
    (hs : s.Timed deadline) (h : pollStep s call = some (s', a)) : s'.Timed deadline := by
  rcases call with now | ⟨outcome, elapsed, newRev, now⟩
  · obtain ⟨-, -, -, hp, -⟩ := pollStep_next h
    rcases hq : s.planner.next now with ⟨q, action⟩
    have hnext := s.planner.next_cases now
    rw [hq] at hnext hp
    simp only [] at hp
    rcases hnext with hst | ⟨hst, hsl⟩ | ⟨hst, hsl⟩ | ⟨hst, hsl, -, -⟩
    · refine ⟨hp ▸ hs.ends, fun hnone => ?_⟩
      rw [hp, hst] at hnone
      cases hnone
    · refine ⟨hp ▸ hs.ends, fun _ seconds hsome => ?_⟩
      rw [hp] at hsome
      cases hsome
    · refine ⟨hp ▸ hs.ends, fun hnone => ?_⟩
      rw [hp] at hnone
      cases hnone
    · refine ⟨hp ▸ hs.ends, fun _ seconds hsome => ?_⟩
      rw [hp, hsl] at hsome
      cases hsome
  · obtain ⟨hout, rfl, -⟩ := pollStep_record h
    obtain ⟨-, hdeadline⟩ := s.planner.record_config outcome elapsed newRev now
    refine ⟨hdeadline.trans hs.ends, fun hnone seconds hsome => ⟨rfl, rfl, ?_⟩⟩
    simp only [] at hnone hsome
    rcases s.planner.record_cases outcome elapsed newRev now with
      hst | ⟨-, hsl, -, -, hbefore⟩ | ⟨hst, hsl, -, -⟩
    · rw [hst] at hnone
      cases hnone
    · rw [hsl, Option.some.injEq] at hsome
      rw [hs.ends, hsome] at hbefore
      exact hbefore.le
    · rw [hst] at hnone
      rcases hout with hf | hf
      · have := (hs.pending hnone seconds (hsl ▸ hsome)).1
        rw [hf] at this
        cases this
      · exact absurd hnone hf

/-- The guard under which what is recorded leaves the reason of a stop alone. -/
def Keeps (s : Polling) : PollCall → Prop
  | .next _ => True
  | .record outcome elapsed newRev now => ¬ s.planner.SetsStop outcome elapsed newRev now

/-- A stopped planner stays stopped, whatever is recorded. -/
theorem pollStep_stopped {s s' : Polling} {call : PollCall} {a : Option PollAction}
    {reason : PollStop} (hs : s.planner.stopped = some reason)
    (h : pollStep s call = some (s', a)) :
    (∃ reason', s'.planner.stopped = some reason')
      ∧ (Keeps s call → s'.planner.stopped = some reason) := by
  rcases call with now | ⟨outcome, elapsed, newRev, now⟩
  · obtain ⟨-, -, -, hp, -⟩ := pollStep_next h
    have hsame : s'.planner.stopped = some reason := by
      rw [hp, LongPollPlanner.next, hs]
      exact hs
    exact ⟨⟨reason, hsame⟩, fun _ => hsame⟩
  · obtain ⟨-, rfl, -⟩ := pollStep_record h
    refine ⟨?_, fun hkeeps => (LongPollPlanner.record_stopped hkeeps).trans hs⟩
    rcases s.planner.record_cases outcome elapsed newRev now with hst | ⟨hst, -⟩ | ⟨hst, -⟩
    · exact ⟨_, hst⟩
    · exact ⟨reason, hst.trans hs⟩
    · exact ⟨reason, hst.trans hs⟩

theorem next_of_stopped {reason : PollStop} (h : p.stopped = some reason) :
    (p.next now).2 = .stop reason := by
  rw [LongPollPlanner.next, h]

variable {config : LongPollConfig} {startTime : ℤ} {rev : Option Text} {calls calls' : List PollCall}
  {s s' : Polling}

theorem timed_of_run (h : FreeRun pollStep (.start config startTime rev) calls s) :
    s.Timed (startTime + config.budget) :=
  h.invariant (Polling.Timed (startTime + config.budget))
    ⟨rfl, fun _ _ hsome => by cases hsome⟩ fun _ _ _ _ hs _ hst => pollStep_timed hs hst

/-- The planner has stopped for good, and for this reason unless another is recorded. -/
def StopsFor (s : Polling) (reason : PollStop) : Prop :=
  ∀ calls s₁ now s₂ a, FreeRun pollStep s calls s₁ → pollStep s₁ (.next now) = some (s₂, some a) →
    (∃ reason', a = .stop reason') ∧ (Run pollStep Keeps s calls s₁ → a = .stop reason)

def WithinBudget (deadline now : ℤ) (s' : Polling) : PollAction → Prop
  | .fetch wait => now < deadline ∧ now + wait ≤ deadline
  | .sleep seconds => now + seconds ≤ deadline
  | .stop reason => StopsFor s' reason

theorem stopsFor_of_stopped {reason : PollStop} (hs : s.planner.stopped = some reason) :
    StopsFor s reason := by
  intro calls s₁ now s₂ a hrun hstep
  obtain ⟨-, -, -, -, ha⟩ := pollStep_next hstep
  cases ha
  refine ⟨?_, fun hkeeps => ?_⟩
  · obtain ⟨reason', hst'⟩ := hrun.invariant (fun s => ∃ reason, s.planner.stopped = some reason)
      ⟨reason, hs⟩ fun _ _ _ _ ⟨_, hs⟩ _ hst => (pollStep_stopped hs hst).1
    exact ⟨reason', next_of_stopped hst'⟩
  · exact next_of_stopped (hkeeps.invariant (fun s => s.planner.stopped = some reason) hs
      fun _ _ _ _ hs hkeep hst => (pollStep_stopped hs hst).2 hkeep)

structure PollReply where
  outcome : PollOutcome
  elapsed : ℤ
  newRev : Option Text
  now : ℤ

/-- A change that is applied, or an answer that nothing has changed: where these come too fast, no
promise is made. -/
def PollReply.Hasty (config : LongPollConfig) (r : PollReply) : Prop :=
  r.elapsed < config.minReturn ∧ (r.outcome = .applied ∨ r.outcome = .notModified)

instance (config : LongPollConfig) (r : PollReply) : Decidable (r.Hasty config) :=
  inferInstanceAs (Decidable (_ ∧ _))

/-- What one call of `next` comes to, with the mode it finds and the reply to its fetch. -/
inductive PollEvent where
  | fetch (mode : PollMode) (now wait : ℤ) (reply : PollReply)
  | sleep (now seconds : ℤ)
  | stop (now : ℤ) (reason : PollStop)

/-- Each fetch that `next` asks for is recorded. -/
def pollTurn (p : LongPollPlanner) (now : ℤ) (r : PollReply) : LongPollPlanner × PollEvent :=
  match p.next now with
  | (q, .fetch wait) => (q.record r.outcome r.elapsed r.newRev r.now, .fetch p.mode now wait r)
  | (q, .sleep seconds) => (q, .sleep now seconds)
  | (q, .stop reason) => (q, .stop now reason)

/-- The events of calls at these times, with these replies where there is a fetch. -/
def pollEvents (p : LongPollPlanner) : List (ℤ × PollReply) → List PollEvent
  | [] => []
  | (now, r) :: turns => (pollTurn p now r).2 :: pollEvents (pollTurn p now r).1 turns

namespace PollEvent

def time : PollEvent → ℤ
  | .fetch _ now _ _ | .sleep now _ | .stop now _ => now

/-- When it is over. -/
def done : PollEvent → ℤ
  | .fetch _ now _ r => now + r.elapsed
  | .sleep now seconds => now + seconds
  | .stop now _ => now

def isFetch : PollEvent → Bool
  | .fetch _ _ _ _ => true
  | .sleep _ _ | .stop _ _ => false

/-- A fetch of the last phase with a hasty reply. -/
def isHasty (config : LongPollConfig) : PollEvent → Bool
  | .fetch .longPoll _ _ r => decide (r.Hasty config)
  | .fetch .probe _ _ _ | .fetch .trial _ _ _ | .sleep _ _ | .stop _ _ => false

end PollEvent

/-- From this time on, one event after the other. -/
def Timely : ℤ → List PollEvent → Prop
  | _, [] => True
  | clock, e :: es => clock ≤ e.time ∧ Timely e.done es

instance : ∀ (clock : ℤ) (es : List PollEvent), Decidable (Timely clock es)
  | _, [] => inferInstanceAs (Decidable True)
  | clock, e :: es =>
    have := instDecidableTimely e.done es
    inferInstanceAs (Decidable (clock ≤ e.time ∧ Timely e.done es))

inductive Turned (p : LongPollPlanner) (now : ℤ) (r : PollReply) :
    LongPollPlanner × PollEvent → Prop where
  | stop {q : LongPollPlanner} {reason : PollStop} (h : q.stopped = some reason)
    (hconfig : q.config = p.config) (hdeadline : q.deadline = p.deadline) :
    Turned p now r (q, .stop now reason)
  | sleep {seconds : ℤ} (h : p.stopped = none) (hs : p.pendingSleep = some seconds) :
    Turned p now r ({ p with pendingSleep := none }, .sleep now seconds)
  | fetch {mode : PollMode} {wait : ℤ} {q : LongPollPlanner} (hm : p.mode = mode)
    (h : p.stopped = none) (hs : p.pendingSleep = none) (hbefore : now + 1 < p.deadline)
    (hq : p.Recorded r.outcome r.elapsed r.now q) (hconfig : q.config = p.config)
    (hdeadline : q.deadline = p.deadline) : Turned p now r (q, .fetch mode now wait r)

theorem pollTurn_cases (p : LongPollPlanner) (now : ℤ) (r : PollReply) :
    Turned p now r (pollTurn p now r) := by
  have hnext := p.next_cases now
  unfold pollTurn
  rcases hq : p.next now with ⟨q, action⟩
  rw [hq] at hnext
  rcases hnext with hst | ⟨hst, hsl⟩ | ⟨hst, hsl⟩ | ⟨hst, hsl, hbefore, -⟩
  · exact .stop hst rfl rfl
  · exact .sleep hst hsl
  · exact .stop rfl rfl rfl
  · obtain ⟨hconfig, hdeadline⟩ := p.record_config r.outcome r.elapsed r.newRev r.now
    exact .fetch rfl hst hsl hbefore (p.record_cases r.outcome r.elapsed r.newRev r.now) hconfig
      hdeadline

theorem pollTurn_config (p : LongPollPlanner) (now : ℤ) (r : PollReply) :
    (pollTurn p now r).1.config = p.config := by
  have hturn := pollTurn_cases p now r
  rcases hq : pollTurn p now r with ⟨q, e⟩
  rw [hq] at hturn
  rcases hturn with ⟨-, hconfig, -⟩ | - | ⟨-, -, -, -, -, hconfig, -⟩
  · exact hconfig
  · rfl
  · exact hconfig

/-- A stopped planner sends nothing. -/
theorem pollEvents_stopped {reason : PollStop} : ∀ {turns : List (ℤ × PollReply)}
    {p : LongPollPlanner}, p.stopped = some reason → ∀ e ∈ pollEvents p turns, e.isFetch = false
  | [], _, _, _, he => by cases he
  | (now, r) :: turns, p, hp, e, he => by
    have hturn : pollTurn p now r = (p, .stop now reason) := by
      rw [pollTurn, LongPollPlanner.next, hp]
    rw [pollEvents, hturn] at he
    rcases List.mem_cons.mp he with rfl | he
    · rfl
    · exact pollEvents_stopped hp e he

/-- What follows an event is what follows its turn. -/
theorem pollEvents_split : ∀ {turns : List (ℤ × PollReply)} {p : LongPollPlanner}
    {pre post : List PollEvent} {e : PollEvent}, pollEvents p turns = pre ++ e :: post →
    ∃ q now r turns', (pollTurn q now r).2 = e ∧ post = pollEvents (pollTurn q now r).1 turns'
      ∧ q.config = p.config
  | [], _, pre, _, _, h => by
    cases pre <;> cases h
  | (now, r) :: turns, p, [], post, e, h => by
    rw [pollEvents, List.nil_append, List.cons.injEq] at h
    exact ⟨p, now, r, turns, h.1, h.2.symm, rfl⟩
  | (now, r) :: turns, p, e' :: pre, post, e, h => by
    rw [pollEvents, List.cons_append, List.cons.injEq] at h
    obtain ⟨q, now', r', turns', hturn, hpost, hconfig⟩ := pollEvents_split h.2
    exact ⟨q, now', r', turns', hturn, hpost, hconfig.trans (pollTurn_config p now r)⟩

/-- Between two fetches of the last phase there is time, unless the first reply was hasty. -/
theorem fetches_apart {p : LongPollPlanner} {turns : List (ℤ × PollReply)}
    {pre mid post : List PollEvent} {t₁ w₁ t₂ w₂ : ℤ} {r₁ r₂ : PollReply} {mode : PollMode}
    (h : pollEvents p turns
      = pre ++ .fetch .longPoll t₁ w₁ r₁ :: (mid ++ .fetch mode t₂ w₂ r₂ :: post))
    (hmid : ∀ e ∈ mid, e.isFetch = false) :
    p.config.minReturn ≤ r₁.elapsed
      ∨ (∃ t seconds, PollEvent.sleep t seconds ∈ mid ∧ p.config.floor ≤ seconds)
      ∨ r₁.Hasty p.config := by
  obtain ⟨q, now, r, turns', hevent, hrest, hconfig⟩ := pollEvents_split h
  have hturn := pollTurn_cases q now r
  rcases hq : pollTurn q now r with ⟨q', e⟩
  rw [hq] at hturn hevent hrest
  simp only [] at hevent hrest
  subst hevent
  rw [← hconfig]
  rcases hturn with - | - | ⟨hmode, hst, -, -, hrec, -, -⟩
  rcases hrec with hst' | ⟨hst', hsl', -, -, -⟩ | ⟨-, -, -, hheld⟩
  · have hfetch : PollEvent.fetch mode t₂ w₂ r₂ ∈ pollEvents q' turns' := by
      rw [← hrest]
      exact List.mem_append_right _ List.mem_cons_self
    cases pollEvents_stopped hst' _ hfetch
  · refine .inr (.inl ?_)
    rcases turns' with _ | ⟨⟨now', r'⟩, turns'⟩
    · rw [pollEvents] at hrest
      simp at hrest
    · have hsleep : (pollTurn q' now' r').2 = .sleep now' q.config.floor := by
        rw [pollTurn, LongPollPlanner.next, hst', hst, hsl']
      rw [pollEvents, hsleep] at hrest
      rcases mid with _ | ⟨e, mid⟩
      · cases (List.cons.inj hrest).1
      · rw [List.cons_append, List.cons.injEq] at hrest
        exact ⟨now', _, hrest.1 ▸ List.mem_cons_self, le_rfl⟩
  · rcases lt_or_ge r₁.elapsed q.config.minReturn with hquick | hlong
    · rcases hheld hmode with hlong | hout
      · exact absurd hlong (not_le.mpr hquick)
      · exact .inr (.inr ⟨hquick, hout⟩)
    · exact .inl hlong

/-! ### How many there are -/

/-- The fetches that are sent before the last phase. -/
def PollMode.ahead : PollMode → ℤ
  | .probe => 2
  | .trial => 1
  | .longPoll => 0

/-- The time left for fetches `m` apart from `clock` on, the last one included. -/
def timeLeft (m deadline clock : ℤ) : ℤ := max 0 (deadline - 2 + m - clock)

theorem timeLeft_nonneg (m deadline clock : ℤ) : 0 ≤ timeLeft m deadline clock := le_max_left _ _

theorem timeLeft_anti (m deadline : ℤ) {clock clock' : ℤ} (h : clock ≤ clock') :
    timeLeft m deadline clock' ≤ timeLeft m deadline clock :=
  max_le_max le_rfl (by omega)

/-- A fetch uses up `m` of the time that is left. -/
theorem timeLeft_fetch {m deadline now : ℤ} (hm : 0 < m) (h : now + 1 < deadline) :
    m + timeLeft m deadline (now + m) = timeLeft m deadline now := by
  unfold timeLeft
  rw [max_eq_right (by omega), max_eq_right (by omega)]
  omega

theorem ahead_nonneg (mode : PollMode) : 0 ≤ mode.ahead := by
  cases mode <;> decide

def lead (m : ℤ) (p : LongPollPlanner) : ℤ := if p.pendingSleep.isSome then m else 0

theorem countP_stopped {reason : PollStop} {turns : List (ℤ × PollReply)} {p : LongPollPlanner}
    (h : p.stopped = some reason) : (pollEvents p turns).countP PollEvent.isFetch = 0 :=
  List.countP_eq_zero.mpr fun e he => by simp [pollEvents_stopped h e he]

/-- Whether a reply is hasty in the last phase, as a number. -/
def hastyIn (p : LongPollPlanner) (r : PollReply) : ℤ :=
  if p.mode = .longPoll ∧ r.Hasty p.config then 1 else 0

/-- One fetch, given what holds of those after it. -/
theorem fetch_le {m clock now : ℤ} {p q : LongPollPlanner} {r : PollReply} {T H : ℤ} (hm : 0 < m)
    (hclock : clock ≤ now) (hmin : m ≤ p.config.minReturn) (helapsed : 0 ≤ r.elapsed)
    (hs : p.pendingSleep = none) (hbefore : now + 1 < p.deadline)
    (hrec : p.Recorded r.outcome r.elapsed r.now q) (hstop : q.stopped ≠ none → T = 0)
    (hT : T * m ≤ q.mode.ahead * m + timeLeft m p.deadline (now + r.elapsed + lead m q) + H * m)
    (hH : 0 ≤ H) :
    (T + 1) * m ≤ p.mode.ahead * m + timeLeft m p.deadline clock + (H + hastyIn p r) * m := by
  have hleft := timeLeft_fetch hm hbefore
  have hnow := timeLeft_anti m p.deadline hclock
  have hpos := timeLeft_nonneg m p.deadline (now + m)
  have hahead := mul_nonneg (ahead_nonneg p.mode) hm.le
  have hhasty : 0 ≤ hastyIn p r := by
    unfold hastyIn
    split_ifs <;> decide
  have hH' := mul_nonneg hH hm.le
  have hI' := mul_nonneg hhasty hm.le
  rw [add_mul, one_mul, add_mul H]
  rcases hrec with hst | ⟨-, hsl, hmq, hmp, -⟩ | ⟨-, hsl, hmq, hheld⟩
  · rw [hstop (by rw [hst]; simp), zero_mul]
    omega
  · have hlead : lead m q = m := by rw [lead, hsl]; rfl
    have hlater := timeLeft_anti m p.deadline (show now + m ≤ now + r.elapsed + m by omega)
    rw [hmq, hlead] at hT
    simp only [PollMode.ahead, zero_mul] at hT
    omega
  · have hlead : lead m q = 0 := by rw [lead, hsl, hs]; rfl
    have hlater := timeLeft_anti m p.deadline (show now ≤ now + r.elapsed by omega)
    rw [hlead, add_zero] at hT
    rcases hmode : p.mode with _ | _ | _
    · have hq : q.mode.ahead ≤ 1 := by
        rcases hmq with hmq | ⟨-, hmq⟩ <;> rw [hmq] <;> decide
      have := mul_le_mul_of_nonneg_right hq hm.le
      simp only [PollMode.ahead]
      omega
    · have hq : q.mode.ahead = 0 := by
        rcases hmq with hmq | ⟨hmq, -⟩
        · rw [hmq]
          rfl
        · rw [hmode] at hmq
          cases hmq
      rw [hq, zero_mul] at hT
      simp only [PollMode.ahead]
      omega
    · have hq : q.mode.ahead = 0 := by
        rcases hmq with hmq | ⟨hmq, -⟩
        · rw [hmq]
          rfl
        · rw [hmode] at hmq
          cases hmq
      rw [hq, zero_mul] at hT
      rcases lt_or_ge r.elapsed p.config.minReturn with hquick | hlong
      · have hone : hastyIn p r = 1 :=
          if_pos ⟨hmode, hquick, (hheld hmode).resolve_left (not_le.mpr hquick)⟩
        rw [hone]
        simp only [PollMode.ahead]
        omega
      · have hlater' := timeLeft_anti m p.deadline (show now + m ≤ now + r.elapsed by omega)
        simp only [PollMode.ahead]
        omega

theorem countP_hasty {mode : PollMode} {wait now : ℤ} {p : LongPollPlanner} {r : PollReply}
    (hmode : p.mode = mode) (es : List PollEvent) :
    ((PollEvent.fetch mode now wait r :: es).countP (PollEvent.isHasty p.config) : ℤ)
      = es.countP (PollEvent.isHasty p.config) + hastyIn p r := by
  rw [List.countP_cons, Nat.cast_add]
  congr 1
  subst hmode
  unfold hastyIn
  rcases p.mode with _ | _ | _
  · rfl
  · rfl
  · by_cases h : r.Hasty p.config <;> simp [PollEvent.isHasty, h]

theorem requests_le {m : ℤ} (hm : 0 < m) : ∀ {turns : List (ℤ × PollReply)} {p : LongPollPlanner}
    {clock : ℤ}, m ≤ p.config.minReturn → m ≤ p.config.floor →
    (∀ seconds, p.pendingSleep = some seconds → m ≤ seconds) →
    (∀ turn ∈ turns, 0 ≤ turn.2.elapsed) → Timely clock (pollEvents p turns) →
    ((pollEvents p turns).countP PollEvent.isFetch : ℤ) * m
      ≤ p.mode.ahead * m + timeLeft m p.deadline (clock + lead m p)
        + ((pollEvents p turns).countP (PollEvent.isHasty p.config) : ℤ) * m
  | [], p, clock, _, _, _, _, _ => by
    have := timeLeft_nonneg m p.deadline (clock + lead m p)
    have := mul_nonneg (ahead_nonneg p.mode) hm.le
    simp only [pollEvents, List.countP_nil, Nat.cast_zero, zero_mul]
    omega
  | (now, r) :: turns, p, clock, hmin, hfloor, hsleep, helapsed, htime => by
    have hturn := pollTurn_cases p now r
    have helapsed' : ∀ turn ∈ turns, 0 ≤ turn.2.elapsed :=
      fun turn ht => helapsed turn (List.mem_cons_of_mem _ ht)
    rw [pollEvents] at htime ⊢
    rcases hq : pollTurn p now r with ⟨q, e⟩
    rw [hq] at hturn htime
    obtain ⟨hclock, hrest⟩ := htime
    simp only [] at hclock hrest ⊢
    rcases hturn with ⟨hst, -, -⟩ | ⟨hst, hsl⟩ | ⟨hmode, hst, hsl, hbefore, hrec, hconfig, hdeadline⟩
    · rw [List.countP_cons_of_neg (by simp [PollEvent.isFetch]), countP_stopped hst,
        Nat.cast_zero, zero_mul]
      have := timeLeft_nonneg m p.deadline (clock + lead m p)
      have := mul_nonneg (ahead_nonneg p.mode) hm.le
      positivity
    · rw [List.countP_cons_of_neg (by simp [PollEvent.isFetch]),
        List.countP_cons_of_neg (by simp [PollEvent.isHasty])]
      have ih := requests_le (p := { p with pendingSleep := none }) hm hmin hfloor
        (fun _ h => by cases h) helapsed' hrest
      have hlead : lead m p = m := by rw [lead, hsl]; rfl
      have hsl' := hsleep _ hsl
      have := timeLeft_anti m p.deadline (show clock + m ≤ now + _ + 0 by
          simp only [PollEvent.time] at hclock
          exact (add_le_add hclock hsl').trans_eq (add_zero _).symm)
      rw [hlead]
      exact ih.trans (by gcongr; exact this)
    · rw [List.countP_cons_of_pos (by simp [PollEvent.isFetch])]
      have hcount : ((pollEvents q turns).countP PollEvent.isFetch : ℤ) * m ≤ q.mode.ahead * m
          + timeLeft m p.deadline (now + r.elapsed + lead m q)
          + ((pollEvents q turns).countP (PollEvent.isHasty p.config) : ℤ) * m := by
        rcases hstop : q.stopped with _ | reason
        · rw [← hconfig, ← hdeadline]
          refine requests_le hm (hconfig ▸ hmin) (hconfig ▸ hfloor) (fun seconds hsome => ?_)
            helapsed' hrest
          rcases hrec with hst' | ⟨-, hsl', -, -, -⟩ | ⟨-, hsl', -, -⟩
          · rw [hstop] at hst'
            cases hst'
          · rw [hsl', Option.some.injEq] at hsome
            exact hsome ▸ hfloor
          · rw [hsl', hsl] at hsome
            cases hsome
        · rw [countP_stopped hstop, Nat.cast_zero, zero_mul]
          have := timeLeft_nonneg m p.deadline (now + r.elapsed + lead m q)
          have := mul_nonneg (ahead_nonneg q.mode) hm.le
          positivity
      have hone := fetch_le hm hclock hmin (helapsed _ List.mem_cons_self) hsl hbefore hrec
        (fun hne => ?_) hcount (by positivity)
      · have hlead : lead m p = 0 := by rw [lead, hsl]; rfl
        rw [hlead, add_zero, countP_hasty hmode, Nat.cast_add, Nat.cast_one]
        exact hone
      · obtain ⟨reason, hst'⟩ := Option.ne_none_iff_exists'.mp hne
        rw [countP_stopped hst', Nat.cast_zero]

namespace Specimen

/-- The server of a planner that backs off once. -/
def flooring : List (ℤ × PollReply) :=
  [(0, ⟨.unchanged, 0, some ['r'], 1⟩), (1, ⟨.notModified, 5, some ['r'], 6⟩),
    (6, ⟨.unchanged, 0, some ['r'], 7⟩), (7, ⟨.unchanged, 0, some ['r'], 7⟩),
    (17, ⟨.notModified, 38, some ['r'], 55⟩), (55, ⟨.error, 0, none, 55⟩)]

/-- Nothing has changed, it says at once. -/
def atOnce : PollReply := ⟨.notModified, 0, none, 0⟩

end Specimen

open Specimen

/-- As long as the planner is at a fetch and time stands still, it is at a fetch again. -/
theorem pollEvents_atOnce : ∀ (n : ℕ) {p : LongPollPlanner}, p.stopped = none →
    p.pendingSleep = none → p.deadline = 55 → p.config = .standard →
    (pollEvents p (List.replicate n (0, atOnce))).countP PollEvent.isFetch = n
      ∧ Timely 0 (pollEvents p (List.replicate n (0, atOnce)))
  | 0, _, _, _, _, _ => ⟨rfl, trivial⟩
  | n + 1, p, hst, hsl, hd, hc => by
    obtain ⟨wait, hturn⟩ : ∃ wait, pollTurn p 0 atOnce
        = ({ p with mode := .longPoll }, .fetch p.mode 0 wait atOnce) := by
      obtain ⟨config, deadline, mode, pendingSleep, stopped, rev⟩ := p
      simp only [] at hst hsl hd hc
      subst hst hsl hd hc
      rcases mode with _ | _ | _
      · exact ⟨0, rfl⟩
      · exact ⟨45, rfl⟩
      · exact ⟨45, rfl⟩
    obtain ⟨hcount, htime⟩ := pollEvents_atOnce n (p := { p with mode := .longPoll }) hst hsl hd hc
    rw [List.replicate_succ, pollEvents, hturn]
    refine ⟨?_, le_rfl, htime⟩
    rw [List.countP_cons_of_pos (by rfl), hcount]

end PolarWG
