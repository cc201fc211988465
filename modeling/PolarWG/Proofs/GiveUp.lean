import PolarWG.Proofs.RoundTrip
import PolarWG.Proofs.Timers

/-!
# Giving up

A peer's attempts are a budget that its retransmissions spend. Giving up refills it where the peer
has an address and had a keypair: the next rekey starts over. As long as no tick gives such a peer
up, the initiations sent to it stay within one budget.
-/

namespace PolarWG

open Specimen

variable {p : Prims} {s s' : WgSession} {i : ℕ}

/-! ## What a tick sends for each slot -/

def tickSent (p : Prims) (env : TickEnv) :
    List ℕ → WgSession → Option (WgSession × List (ℕ × Upcall))
  | [], s => some (s, [])
  | i :: is, s => do
    let (s, out) ← tickPeer p env s i
    let (s, out') ← tickSent p env is s
    pure (s, out.map (i, ·) ++ out')

def tickStep (p : Prims) (s : WgSession) (env : TickEnv) :
    Option (WgSession × List (ℕ × Upcall)) := tickSent p env (List.range s.nPeers) s

theorem tickSent_flat (env : TickEnv) : ∀ (is : List ℕ) (s : WgSession),
    (tickSent p env is s).map (fun x => (x.1, x.2.map Prod.snd)) = tickFrom p env is s
  | [], _ => rfl
  | i :: is, s => by
    unfold tickSent tickFrom
    rcases tickPeer p env s i with _ | ⟨s₁, out⟩
    · rfl
    have ih := tickSent_flat env is s₁
    simp only [Option.bind_eq_bind, Option.bind_some, Option.pure_def]
    rw [← ih]
    rcases tickSent p env is s₁ with _ | ⟨s₂, out'⟩
    · rfl
    · simp [Function.comp_def]

/-- Slot by slot, a tick does what `wg_session_tick` does. -/
theorem tickStep_flat (s : WgSession) (env : TickEnv) :
    (tickStep p s env).map (fun x => (x.1, x.2.map Prod.snd)) = wgSessionTick p s env :=
  tickSent_flat env _ s

def initiations (out : List Upcall) : ℕ := (out.filterMap sendAction).count .initiation

def initiationsTo (i : ℕ) (out : List (ℕ × Upcall)) : ℕ :=
  initiations ((out.filter fun e => e.1 = i).map Prod.snd)

theorem initiations_append (o o' : List Upcall) :
    initiations (o ++ o') = initiations o + initiations o' := by
  rw [initiations, List.filterMap_append, List.count_append]
  rfl

theorem initiationsTo_append (i : ℕ) (o o' : List (ℕ × Upcall)) :
    initiationsTo i (o ++ o') = initiationsTo i o + initiationsTo i o' := by
  rw [initiationsTo, List.filter_append, List.map_append, initiations_append]
  rfl

theorem initiationsTo_slot (i j : ℕ) (out : List Upcall) :
    initiationsTo i (out.map (j, ·)) = if j = i then initiations out else 0 := by
  unfold initiationsTo
  split
  · next h =>
    have hall : (out.map (j, ·)).filter (fun e => e.1 = i) = out.map (j, ·) := by
      rw [List.filter_eq_self]
      simp [h]
    rw [hall, List.map_map, Function.comp_def, List.map_id']
  · next h =>
    have hnone : (out.map (j, ·)).filter (fun e => e.1 = i) = [] := by
      rw [List.filter_eq_nil_iff]
      simp [h]
    rw [hnone]
    rfl

/-! ## The budget -/

namespace PeerTimers

/-- The session can send the peer an initiation. -/
def Dialable (t : PeerTimers) : Prop := t.hasEndpoint ∧ t.endpointLen ≠ 0

instance (t : PeerTimers) : Decidable t.Dialable := by
  unfold Dialable
  infer_instance

/-- A tick at `now` gives up on the peer. -/
def GivenUp (t : PeerTimers) (now : ℤ) : Prop :=
  t.hsPending ∧ now - t.hsSentAt ≥ rekeyTimeoutSec ∧ t.hsAttempts ≥ maxHandshakeAttempts

/-- A tick that gives up on the peer has nothing to dial it for: it has no address, or had no
keypair. -/
def Silenced (t : PeerTimers) (now : ℤ) : Prop :=
  t.GivenUp now → t.Dialable → t.keypairBirth = 0

/-- The initiations that may still be sent to the peer. -/
def budget (t : PeerTimers) : ℕ :=
  if ¬ t.Dialable then 0
  else if t.hsPending then maxHandshakeAttempts - t.hsAttempts
  else if t.keypairBirth = 0 then 0
  else maxHandshakeAttempts

theorem budget_le (t : PeerTimers) : t.budget ≤ maxHandshakeAttempts := by
  unfold budget
  split_ifs <;> omega

theorem budget_undialable {t : PeerTimers} (hd : ¬ t.Dialable) : t.budget = 0 := by
  rw [budget, if_pos hd]

theorem budget_of_pending {t : PeerTimers} (hd : t.Dialable) (hp : t.hsPending = true) :
    t.budget = maxHandshakeAttempts - t.hsAttempts := by
  rw [budget, if_neg (not_not.mpr hd), if_pos hp]

theorem budget_of_idle {t : PeerTimers} (hd : t.Dialable) (hp : t.hsPending = false) :
    t.budget = if t.keypairBirth = 0 then 0 else maxHandshakeAttempts := by
  rw [budget, if_neg (not_not.mpr hd), if_neg (by simp [hp])]

theorem budget_initiated {t : PeerTimers} (hd : t.Dialable) (now : ℤ) :
    (t.initiated now).budget = maxHandshakeAttempts - (t.hsAttempts + 1) :=
  budget_of_pending (t := t.initiated now) hd rfl

end PeerTimers

/-- `n` initiations come off the budget, and the peer's address and keypair stay. -/
structure Spends (t t' : PeerTimers) (n : ℕ) : Prop where
  budget : n + t'.budget ≤ t.budget
  dialable : t'.Dialable ↔ t.Dialable
  birth : t'.keypairBirth = t.keypairBirth

variable {t t' t'' : PeerTimers} {n n' : ℕ}

theorem Spends.refl (t : PeerTimers) : Spends t t 0 := ⟨(Nat.zero_add _).le, .rfl, rfl⟩

theorem Spends.trans (h : Spends t t' n) (h' : Spends t' t'' n') : Spends t t'' (n + n') := by
  refine ⟨?_, h'.dialable.trans h.dialable, h'.birth.trans h.birth⟩
  have h1 := h.budget
  have h2 := h'.budget
  omega

/-- An attempt either sends nothing, or a dialable peer one initiation. -/
theorem initiation_cases (made : Bool) (now : ℤ) (t : PeerTimers) :
    wgsTimerInitiation made now t = (t, [])
      ∨ t.Dialable ∧ wgsTimerInitiation made now t = (t.initiated now, [.initiation]) := by
  unfold wgsTimerInitiation
  split
  · exact .inl rfl
  · next h =>
    simp only [not_or, not_not] at h
    exact .inr ⟨⟨h.1, h.2.1⟩, rfl⟩

theorem spends_retry (made : Bool) (now sent : ℤ) (hp : t.hsPending = true)
    (hatt : t.hsAttempts < maxHandshakeAttempts) :
    Spends t (wgsTimerInitiation made sent { t with hsSentAt := now }).1
      ((wgsTimerInitiation made sent { t with hsSentAt := now }).2.count .initiation) := by
  obtain h | ⟨hd, h⟩ := initiation_cases made sent { t with hsSentAt := now } <;> rw [h]
  · exact ⟨(Nat.zero_add _).le, .rfl, rfl⟩
  · have hd' : t.Dialable := hd
    refine ⟨?_, iff_of_true hd hd', rfl⟩
    rw [PeerTimers.budget_initiated hd, PeerTimers.budget_of_pending hd' hp,
      List.count_singleton_self]
    show 1 + (maxHandshakeAttempts - (t.hsAttempts + 1)) ≤ _
    omega

theorem spends_giveUp (now : ℤ) (hend : t.Dialable → t.keypairBirth = 0) :
    Spends t { t with hsSentAt := now, hsPending := false, hsAttempts := 0 } 0 := by
  refine ⟨?_, .rfl, rfl⟩
  rw [Nat.zero_add]
  by_cases hd : t.Dialable
  · rw [PeerTimers.budget_of_idle (t := { t with hsSentAt := now, hsPending := false, hsAttempts := 0 })
      hd rfl, if_pos (hend hd)]
    exact Nat.zero_le _
  · rw [PeerTimers.budget_undialable (t := { t with hsSentAt := now, hsPending := false, hsAttempts := 0 })
      hd]
    exact Nat.zero_le _

theorem spends_rekey (made : Bool) (sent : ℤ) (hp : t.hsPending = false) (hb : t.keypairBirth ≠ 0) :
    Spends t (wgsTimerInitiation made sent { t with hsAttempts := 0 }).1
      ((wgsTimerInitiation made sent { t with hsAttempts := 0 }).2.count .initiation) := by
  obtain h | ⟨hd, h⟩ := initiation_cases made sent { t with hsAttempts := 0 } <;> rw [h]
  · refine ⟨?_, .rfl, rfl⟩
    rw [List.count_nil, Nat.zero_add]
    by_cases hd : t.Dialable
    · rw [PeerTimers.budget_of_idle (t := { t with hsAttempts := 0 }) hd hp,
        PeerTimers.budget_of_idle hd hp]
    · rw [PeerTimers.budget_undialable (t := { t with hsAttempts := 0 }) hd]
      exact Nat.zero_le _
  · have hd' : t.Dialable := hd
    refine ⟨?_, iff_of_true hd hd', rfl⟩
    rw [PeerTimers.budget_initiated hd, PeerTimers.budget_of_idle hd' hp, if_neg hb,
      List.count_singleton_self]
    show 1 + (maxHandshakeAttempts - (0 + 1)) ≤ _
    decide

/-! ## Turns -/

/-- What a turn sends of the kind counted. -/
theorem initiations_sends {out : List Upcall} {acts : List TimerAction}
    (h : out.filterMap sendAction = sends acts) : initiations out = acts.count .initiation := by
  rw [initiations, h, sends]
  exact List.count_filter (by decide)

theorem retransmit_spends {env : TickEnv} {out : List Upcall}
    (hok : (s.peers i).timers.Silenced env.now.time)
    (hs : tickRetransmit p env s i = some (s', out)) :
    Spends (s.peers i).timers (s'.peers i).timers (initiations out) := by
  unfold tickRetransmit at hs
  simp only [] at hs
  split at hs
  · next hdue =>
    obtain ⟨hp, hold⟩ := hdue
    have hstamp : ((s.modPeer i fun peer => { peer with hsSentAt := env.now.time }).peers i).timers
        = { (s.peers i).timers with hsSentAt := env.now.time } := by
      rw [modPeer_peers, if_pos rfl]
      rfl
    have hatt : ((s.modPeer i fun peer => { peer with hsSentAt := env.now.time }).peers i).hsAttempts
        = (s.peers i).timers.hsAttempts := congrArg PeerTimers.hsAttempts hstamp
    rw [hatt] at hs
    split at hs
    · next hmax =>
      simp only [Option.some.injEq, Prod.mk.injEq] at hs
      obtain ⟨rfl, rfl⟩ := hs
      have hend := spends_giveUp env.now.time (hok ⟨hp, hold, hmax⟩)
      rw [modPeer_peers, if_pos rfl, modPeer_peers, if_pos rfl]
      exact hend
    · next hmax =>
      obtain ⟨⟨rc, s₂, o⟩, h1, h2⟩ := Option.map_eq_some_iff.mp hs
      simp only [Prod.mk.injEq] at h2
      obtain ⟨rfl, rfl⟩ := h2
      obtain ⟨made, htimers, hsent⟩ := sendInitiation_ticks rfl h1
      rw [htimers, initiations_sends hsent, hstamp]
      exact spends_retry made _ _ hp (Nat.not_le.mp hmax)
  · simp only [Option.some.injEq, Prod.mk.injEq] at hs
    obtain ⟨rfl, rfl⟩ := hs
    exact .refl _

theorem rekey_spends {env : TickEnv} {out : List Upcall}
    (hs : tickRekey p env s i = some (s', out)) :
    Spends (s.peers i).timers (s'.peers i).timers (initiations out) := by
  unfold tickRekey at hs
  simp only [] at hs
  split at hs
  · next hdue =>
    obtain ⟨hp, hbirth, -⟩ := hdue
    have hzero : ((s.modPeer i fun peer => { peer with hsAttempts := 0 }).peers i).timers
        = { (s.peers i).timers with hsAttempts := 0 } := by
      rw [modPeer_peers, if_pos rfl]
      rfl
    obtain ⟨⟨rc, s₂, o⟩, h1, h2⟩ := Option.map_eq_some_iff.mp hs
    simp only [Prod.mk.injEq] at h2
    obtain ⟨rfl, rfl⟩ := h2
    obtain ⟨made, htimers, hsent⟩ := sendInitiation_ticks rfl h1
    rw [htimers, initiations_sends hsent, hzero]
    exact spends_rekey made _ (Bool.eq_false_iff.mpr hp) hbirth
  · simp only [Option.some.injEq, Prod.mk.injEq] at hs
    obtain ⟨rfl, rfl⟩ := hs
    exact .refl _

theorem keepalive_spends {env : TickEnv} {out : List Upcall}
    (hs : tickKeepalive p env s i = (s', out)) :
    Spends (s.peers i).timers (s'.peers i).timers (initiations out) := by
  unfold tickKeepalive at hs
  split at hs
  · rcases hk : wgsEncap p s i [] (env.keepalive i) with ⟨rc, s₁, o⟩
    rw [hk] at hs
    simp only [Prod.mk.injEq] at hs
    obtain ⟨rfl, rfl⟩ := hs
    obtain ⟨sealable, htimers, hsent⟩ := encap_ticks rfl hk
    rw [htimers, initiations_sends hsent]
    beta_reduce
    split
    · exact .refl _
    · exact ⟨(Nat.zero_add _).le, .rfl, rfl⟩
  · simp only [Prod.mk.injEq] at hs
    obtain ⟨rfl, rfl⟩ := hs
    exact .refl _

theorem tickPeer_spends {env : TickEnv} {out : List Upcall}
    (hok : (s.peers i).active → (s.peers i).timers.Silenced env.now.time)
    (hs : tickPeer p env s i = some (s', out)) :
    Spends (s.peers i).timers (s'.peers i).timers (initiations out) := by
  obtain ⟨-, rfl, rfl⟩ | ⟨ha, s₁, s₂, o₁, o₂, o₃, h1, h2, h3, rfl⟩ := tickPeer_some hs
  · exact .refl _
  · rw [initiations_append, initiations_append]
    exact ((retransmit_spends (hok ha) h1).trans (rekey_spends h2)).trans (keepalive_spends h3)

/-! ## Runs of ticks -/

theorem tickSent_others {env : TickEnv} : ∀ {is : List ℕ} {s s' : WgSession}
    {out : List (ℕ × Upcall)}, i ∉ is → tickSent p env is s = some (s', out) →
    s'.peers i = s.peers i ∧ initiationsTo i out = 0
  | [], s, s', out, _, hs => by
    simp only [tickSent, Option.some.injEq, Prod.mk.injEq] at hs
    obtain ⟨rfl, rfl⟩ := hs
    exact ⟨rfl, rfl⟩
  | j :: is, s, s', out, hi, hs => by
    simp only [tickSent, Option.bind_eq_bind, Option.bind_eq_some_iff, Option.pure_def,
      Option.some.injEq, Prod.mk.injEq] at hs
    obtain ⟨⟨s₁, o₁⟩, h1, ⟨s₂, o₂⟩, h2, rfl, rfl⟩ := hs
    rw [List.mem_cons, not_or] at hi
    obtain ⟨hsame, hnone⟩ := tickSent_others hi.2 h2
    rw [initiationsTo_append, initiationsTo_slot, if_neg (Ne.symm hi.1), hnone]
    exact ⟨hsame.trans ((tickPeer_apart h1).peers i hi.1), rfl⟩

/-- Over a tick the slot spends what is sent to it; the other slots' turns leave it alone. -/
theorem tickSent_spends {env : TickEnv} : ∀ {is : List ℕ} {s s' : WgSession}
    {out : List (ℕ × Upcall)}, is.Nodup →
    ((s.peers i).active → (s.peers i).timers.Silenced env.now.time) →
    tickSent p env is s = some (s', out) →
    Spends (s.peers i).timers (s'.peers i).timers (initiationsTo i out)
  | [], s, s', out, _, _, hs => by
    simp only [tickSent, Option.some.injEq, Prod.mk.injEq] at hs
    obtain ⟨rfl, rfl⟩ := hs
    exact .refl _
  | j :: is, s, s', out, hnd, hok, hs => by
    simp only [tickSent, Option.bind_eq_bind, Option.bind_eq_some_iff, Option.pure_def,
      Option.some.injEq, Prod.mk.injEq] at hs
    obtain ⟨⟨s₁, o₁⟩, h1, ⟨s₂, o₂⟩, h2, rfl, rfl⟩ := hs
    obtain ⟨hj, hnd'⟩ := List.nodup_cons.mp hnd
    rw [initiationsTo_append, initiationsTo_slot]
    split
    · next e =>
      subst e
      obtain ⟨hsame, hnone⟩ := tickSent_others hj h2
      rw [hnone, Nat.add_zero, hsame]
      exact tickPeer_spends hok h1
    · next e =>
      have hsame : s₁.peers i = s.peers i := (tickPeer_apart h1).peers i (Ne.symm e)
      have := tickSent_spends hnd' (by rw [hsame]; exact hok) h2
      rw [Nat.zero_add, ← hsame]
      exact this

theorem ticks_spend : ∀ {envs : List TickEnv} {s s' : WgSession} {outs : List (List (ℕ × Upcall))},
    Run (tickStep p) (fun s env => (s.peers i).active → (s.peers i).timers.Silenced env.now.time)
      s envs s' → Run.exec (tickStep p) s envs = some (s', outs) →
    Spends (s.peers i).timers (s'.peers i).timers (initiationsTo i outs.flatten)
  | [], s, s', outs, _, hs => by
    simp only [Run.exec, Option.some.injEq, Prod.mk.injEq] at hs
    obtain ⟨rfl, rfl⟩ := hs
    exact .refl _
  | env :: envs, s, s', outs, hrun, hs => by
    simp only [Run.exec, Option.bind_eq_bind, Option.bind_eq_some_iff, Option.pure_def,
      Option.some.injEq, Prod.mk.injEq] at hs
    obtain ⟨⟨s₁, o₁⟩, h1, ⟨s₂, os⟩, h2, rfl, rfl⟩ := hs
    cases hrun with
    | cons hok hstep hrest =>
      obtain ⟨rfl, -⟩ := Prod.mk.inj (Option.some.inj (hstep.symm.trans h1))
      rw [List.flatten_cons, initiationsTo_append]
      exact (tickSent_spends List.nodup_range hok h1).trans (ticks_spend hrest h2)

namespace Specimen

/-- A tick at second `t` that may make one initiation. -/
def tickAt (t : ℕ) (idx : UInt32) : TickEnv :=
  ⟨instant t, fun _ => dial t idx, fun _ => ⟨instant t, instant t, true⟩⟩

def dialled : Option WgSession := do
  let a ← sessionA
  let (a, _) ← sessionStep specimen a (.kick (dial 100 7))
  pure a

/-- Ticks at the end of the keypair's time, six seconds apart. -/
def lateTicks (n : ℕ) : List TickEnv :=
  (List.range n).map fun j => tickAt (300 + 6 * j) (UInt32.ofNat (20 + j))

end Specimen

end PolarWG
