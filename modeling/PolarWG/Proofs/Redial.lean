import PolarWG.Lib.Run
import PolarWG.Redial
import PolarWG.Proofs.PublicIP

/-!
# The cooldown

A command that succeeds is in the file, at the whole second, for the calls after it to find. One
that fails is not, so that it can be tried again.
-/

namespace PolarWG

variable {config : WatchConfig} {s s' : Redialing} {c : ReconcileCall} {o : ReconcileOutcome}

theorem truncated_mono {t u : ℚ} (h : t ≤ u) : truncated t ≤ truncated u := by
  unfold truncated
  split_ifs with h1 h2 h2
  · exact Int.floor_le_floor h
  · exact absurd (h1.trans h) h2
  · have h3 : ⌈t⌉ ≤ 0 := Int.ceil_le.mpr (by push_cast; linarith)
    exact h3.trans (Int.floor_nonneg.mpr h2)
  · exact Int.ceil_le_ceil h

/-! ## The file -/

theorem stampOf_recordRedial {now : ℚ} {stamp : Text} (h : recordRedial now = some stamp) :
    stampOf (some stamp) = some (truncated now) := by
  simp only [recordRedial, Option.map_eq_some_iff, checkedInt] at h
  obtain ⟨n, hn, rfl⟩ := h
  split at hn
  · next hb =>
    rw [Option.some.injEq] at hn
    subst hn
    have hv := visible_fmtSigned (truncated now)
    obtain ⟨a, t, ht, ha⟩ := fmtSigned_cons (truncated now)
    have hlead : (fmtSigned (truncated now)).dropWhile isWhitespaceOrNewline
        = fmtSigned (truncated now) := by
      rw [ht, List.dropWhile_cons_of_neg ha]
    show intOfText (((fmtSigned (truncated now)).dropWhile _).rdropWhile _) = _
    rw [hlead, hv.rdropWhile, intOfText_fmtSigned hb.1 hb.2]
  · cases hn

theorem evaluate_requiresRedial {configured inUse : Option Text} {resolved : List Text}
    {age : Option ℤ} {since : ℤ} (h : (evaluate configured inUse resolved age (some since)
      config).requiresRedial = true) : config.cooldownSec ≤ since := by
  by_contra hlt
  unfold evaluate at h
  split at h
  · cases h
  · cases h
  · simp only [if_pos (Int.not_le.mp hlt)] at h
    cases h

theorem since_of_stamp {file : Option Text} {now : ℚ} {stamp : ℤ} {since : Option ℤ}
    (hfile : stampOf file = some stamp) (h : secondsSinceLastRedial file now = some since)
    (hle : stamp ≤ truncated now) : since = some (truncated now - stamp) := by
  simp only [secondsSinceLastRedial, hfile, Option.bind_eq_bind, Option.bind_eq_some_iff] at h
  obtain ⟨n, hn, d, hd, hs⟩ := h
  unfold checkedInt at hn hd
  split at hn
  · rw [Option.some.injEq] at hn
    subst hn
    split at hd
    · rw [Option.some.injEq] at hd
      subst hd
      rw [if_pos (by omega), Option.some.injEq] at hs
      exact hs.symm
    · cases hd
  · cases hn

/-! ## The run -/

/-- What each call does. -/
theorem reconcileStep_cases (h : reconcileStep config s c = some (s', o)) :
    s'.clock = c.now ∧ ((s'.file = s.file ∧ s'.commands = s.commands)
      ∨ o.verdict.requiresRedial = true
        ∧ (∃ configured inUse resolved age since, secondsSinceLastRedial s.file c.now = some since
          ∧ o.verdict = evaluate configured inUse resolved age since config)
        ∧ ∃ b, s'.commands = s.commands ++ [⟨c.now, b⟩]
          ∧ if b then stampOf s'.file = some (truncated c.now) else s'.file = s.file) := by
  simp only [reconcileStep, reconcile, Option.map_eq_some_iff, Option.bind_eq_bind,
    Option.bind_eq_some_iff, Prod.mk.injEq] at h
  obtain ⟨⟨file, command, outcome⟩, ⟨since, hsince, hres⟩, rfl, rfl⟩ := h
  refine ⟨rfl, ?_⟩
  split at hres
  · next hreq =>
    split at hres
    · simp only [Option.bind_eq_some_iff, Option.some.injEq, Prod.mk.injEq] at hres
      obtain ⟨stamp, hstamp, rfl, rfl, rfl⟩ := hres
      exact .inr ⟨hreq.1, ⟨_, _, _, _, since, hsince, rfl⟩, true, rfl, stampOf_recordRedial hstamp⟩
    · simp only [Option.some.injEq, Prod.mk.injEq] at hres
      obtain ⟨rfl, rfl, rfl⟩ := hres
      exact .inr ⟨hreq.1, ⟨_, _, _, _, since, hsince, rfl⟩, false, rfl, rfl⟩
  · simp only [Option.some.injEq, Prod.mk.injEq] at hres
    obtain ⟨rfl, rfl, rfl⟩ := hres
    exact .inl ⟨rfl, List.append_nil _⟩

/-- The file has a time that is no earlier than any successful command's, if there is one, and the
commands are spaced. -/
structure Cooled (config : WatchConfig) (s : Redialing) : Prop where
  past : ∀ a ∈ s.commands, a.time ≤ s.clock
  stamped : ∀ a ∈ s.commands, a.succeeded = true →
    ∃ stamp, stampOf s.file = some stamp ∧ truncated a.time ≤ stamp ∧ stamp ≤ truncated s.clock
  spaced : s.commands.Pairwise fun a b =>
    a.succeeded = true → truncated a.time + config.cooldownSec ≤ truncated b.time

theorem Cooled.step (h : Cooled config s) (horder : InOrder s c)
    (hstep : reconcileStep config s c = some (s', o)) : Cooled config s' := by
  obtain ⟨hclock, hcase⟩ := reconcileStep_cases hstep
  have hmono : truncated s.clock ≤ truncated c.now := truncated_mono horder
  rcases hcase with ⟨hfile, hcommands⟩ | ⟨hreq, ⟨_, _, _, _, since, hsince, hverdict⟩, b, hcommands,
    hfile⟩
  · refine ⟨fun a ha => ?_, fun a ha hs => ?_, hcommands ▸ h.spaced⟩
    · exact hclock ▸ (h.past a (hcommands ▸ ha)).trans horder
    · obtain ⟨stamp, h1, h2, h3⟩ := h.stamped a (hcommands ▸ ha) hs
      exact ⟨stamp, hfile ▸ h1, h2, hclock ▸ h3.trans hmono⟩
  -- a command is issued: the journal has let it through
  refine ⟨fun a ha => ?_, fun a ha hs => ?_, ?_⟩
  · rw [hcommands, List.mem_append, List.mem_singleton] at ha
    rw [hclock]
    rcases ha with ha | rfl
    · exact (h.past a ha).trans horder
    · exact le_rfl
  · rw [hcommands, List.mem_append, List.mem_singleton] at ha
    rw [hclock]
    cases b with
    | true =>
      refine ⟨_, hfile, ?_, le_rfl⟩
      rcases ha with ha | rfl
      · exact truncated_mono ((h.past a ha).trans horder)
      · exact le_rfl
    | false =>
      rcases ha with ha | rfl
      · obtain ⟨stamp, h1, h2, h3⟩ := h.stamped a ha hs
        exact ⟨stamp, (congrArg stampOf hfile).trans h1, h2, h3.trans hmono⟩
      · cases hs
  · rw [hcommands, List.pairwise_append]
    refine ⟨h.spaced, List.pairwise_singleton _ _, fun a ha b' hb hs => ?_⟩
    rw [List.mem_singleton] at hb
    subst hb
    obtain ⟨stamp, h1, h2, h3⟩ := h.stamped a ha hs
    have hsome := since_of_stamp h1 hsince (h3.trans hmono)
    rw [hverdict, hsome] at hreq
    have := evaluate_requiresRedial hreq
    show truncated a.time + config.cooldownSec ≤ truncated c.now
    omega

/-- After a command that succeeded the next one, whether it succeeds or not, is at least
`cooldownSec` whole seconds later, and none is issued on a verdict that asks for none. -/
theorem redials_spaced (config : WatchConfig) {file : Option Text} {clock : ℚ}
    {calls : List ReconcileCall}
    (h : Run (reconcileStep config) InOrder ⟨file, clock, []⟩ calls s) :
    (s.commands.Pairwise fun a b =>
        a.succeeded = true → truncated a.time + config.cooldownSec ≤ truncated b.time)
      ∧ ∀ c s' o, reconcileStep config s c = some (s', o) →
        (o.verdict = .healthy ∨ (∃ n, o.verdict = .cooling n) ∨ ∃ r, o.verdict = .indeterminate r) →
          s'.commands = s.commands := by
  have hinv := h.invariant (Cooled config)
    ⟨fun a ha => absurd ha List.not_mem_nil, fun a ha => absurd ha List.not_mem_nil, .nil⟩
    fun s c s' o hs hok hstep => hs.step hok hstep
  refine ⟨hinv.spaced, fun c s' o hstep hidle => ?_⟩
  rcases (reconcileStep_cases hstep).2 with ⟨-, hcommands⟩ | ⟨hreq, -⟩
  · exact hcommands
  · rcases hidle with hv | ⟨n, hv⟩ | ⟨r, hv⟩ <;> rw [hv] at hreq <;> cases hreq

/-! ## Runs of it -/

/-- A tunnel that has never shaken hands. -/
def staleCall (now : ℚ) (redial : Bool) : ReconcileCall where
  configuredEndpoint := some "10.0.0.9:1632".toList
  status := some ⟨some "10.0.0.9:1632".toList, none⟩
  now := now
  addresses := fun _ => []
  redial := redial

/-- Dialled at half past the second, refused a minute later, and dialled again at the three
hundredth whole second. -/
theorem stale_run : Run (reconcileStep .standard) InOrder ⟨none, 0, []⟩
    [staleCall (201 / 2) true, staleCall 160 true, staleCall 400 false]
    ⟨some "100".toList, 400, [⟨201 / 2, true⟩, ⟨400, false⟩]⟩ := by
  have h1 : reconcileStep .standard ⟨none, 0, []⟩ (staleCall (201 / 2) true)
      = some (⟨some "100".toList, 201 / 2, [⟨201 / 2, true⟩]⟩, ⟨.handshakeStale none, true⟩) := by
    decide +kernel
  have h2 : reconcileStep .standard ⟨some "100".toList, 201 / 2, [⟨201 / 2, true⟩]⟩
      (staleCall 160 true)
      = some (⟨some "100".toList, 160, [⟨201 / 2, true⟩]⟩, ⟨.cooling 240, false⟩) := by
    decide +kernel
  have h3 : reconcileStep .standard ⟨some "100".toList, 160, [⟨201 / 2, true⟩]⟩
      (staleCall 400 false)
      = some (⟨some "100".toList, 400, [⟨201 / 2, true⟩, ⟨400, false⟩]⟩,
        ⟨.handshakeStale none, false⟩) := by
    decide +kernel
  exact .cons (by decide +kernel) h1 (.cons (by decide +kernel) h2 (.cons (by decide +kernel) h3
    (.nil _)))

theorem redials_spaced_stale : ∃ s : Redialing, s.commands = [⟨201 / 2, true⟩, ⟨400, false⟩]
    ∧ s.commands.Pairwise fun a b =>
      a.succeeded = true → truncated a.time + 300 ≤ truncated b.time :=
  ⟨_, rfl, (redials_spaced .standard stale_run).1⟩

/-- A command that fails is issued again a second later, and one that succeeds 299.5 seconds
later. -/
theorem redial_repeated : (¬ ∀ (config : WatchConfig) file clock calls (s : Redialing),
      Run (reconcileStep config) InOrder ⟨file, clock, []⟩ calls s →
      s.commands.Pairwise fun a b => a.time + (config.cooldownSec : ℚ) ≤ b.time)
    ∧ ¬ ∀ (config : WatchConfig) file clock calls (s : Redialing),
      Run (reconcileStep config) InOrder ⟨file, clock, []⟩ calls s →
      s.commands.Pairwise fun a b =>
        a.succeeded = true → a.time + (config.cooldownSec : ℚ) ≤ b.time := by
  refine ⟨fun hall => ?_, fun hall => ?_⟩
  · have h1 : reconcileStep .standard ⟨none, 0, []⟩ (staleCall 100 false)
        = some (⟨none, 100, [⟨100, false⟩]⟩, ⟨.handshakeStale none, false⟩) := by
      decide +kernel
    have h2 : reconcileStep .standard ⟨none, 100, [⟨100, false⟩]⟩ (staleCall 101 true)
        = some (⟨some "101".toList, 101, [⟨100, false⟩, ⟨101, true⟩]⟩,
          ⟨.handshakeStale none, true⟩) := by
      decide +kernel
    have hpair := hall .standard none 0 [staleCall 100 false, staleCall 101 true] _
      (.cons (by decide +kernel) h1 (.cons (by decide +kernel) h2 (.nil _)))
    have := (List.pairwise_cons.mp hpair).1 ⟨101, true⟩ (by simp)
    exact absurd this (by decide +kernel)
  · have := (List.pairwise_cons.mp (hall _ _ _ _ _ stale_run)).1 ⟨400, false⟩ (by simp) rfl
    exact absurd this (by decide +kernel)

end PolarWG
