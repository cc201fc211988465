import PolarWG.Lib.Run

/-!
# Exact guards

Where each step from a state that has a property keeps it exactly under a guard, a run has the
property all along exactly if every one of its inputs meets the guard. So it is with a property of
the steps themselves.
-/

namespace PolarWG

variable {σ ι ω : Type*}

/-- The run over any inputs that the step function takes. -/
abbrev FreeRun (step : σ → ι → Option (σ × ω)) : σ → List ι → σ → Prop :=
  Run step fun _ _ => True

/-- Every state on the way has it, the first and the last included. -/
def Always (step : σ → ι → Option (σ × ω)) (P : σ → Prop) (s : σ) (is : List ι) : Prop :=
  ∀ is₁ is₂ t, is = is₁ ++ is₂ → FreeRun step s is₁ t → P t

/-- Every step on the way has it. -/
def EveryStep (step : σ → ι → Option (σ × ω)) (Q : σ → ι → σ → Prop) (s : σ) (is : List ι) : Prop :=
  ∀ is₁ i is₂ t t' o, is = is₁ ++ i :: is₂ → FreeRun step s is₁ t → step t i = some (t', o) →
    Q t i t'

section Exact

variable {step : σ → ι → Option (σ × ω)} {P : σ → Prop}

theorem Always.head {s : σ} {is : List ι} (h : Always step P s is) : P s :=
  h [] is s rfl (.nil s)

theorem Always.tail {s s' : σ} {i : ι} {is : List ι} {o : ω} (h : Always step P s (i :: is))
    (hstep : step s i = some (s', o)) : Always step P s' is := by
  rintro is₁ is₂ t rfl hrun
  exact h (i :: is₁) is₂ t rfl (.cons trivial hstep hrun)

theorem Always.nil {s : σ} (hs : P s) : Always step P s [] := by
  intro is₁ is₂ t h hrun
  obtain ⟨rfl, rfl⟩ := List.append_eq_nil_iff.mp h.symm
  cases hrun
  exact hs

theorem Always.cons {s s' : σ} {i : ι} {is : List ι} {o : ω} (hs : P s)
    (hstep : step s i = some (s', o)) (h : Always step P s' is) : Always step P s (i :: is) := by
  intro is₁ is₂ t heq hrun
  rcases hrun with _ | ⟨-, hst, hrest⟩
  · exact hs
  · rw [List.cons_append, List.cons.injEq] at heq
    obtain ⟨rfl, rfl⟩ := heq
    rw [hstep, Option.some.injEq, Prod.mk.injEq] at hst
    obtain ⟨rfl, rfl⟩ := hst
    exact h _ is₂ t rfl hrest

variable {ok : σ → ι → Prop}

/-- The guard may rely on an invariant that holds as long as the property does. -/
theorem FreeRun.always_iff (Inv : σ → Prop) {s s' : σ} {is : List ι} (h : FreeRun step s is s')
    (hinv : Inv s) (hs : P s)
    (hstep : ∀ s i s' o, Inv s → P s → step s i = some (s', o) →
      (P s' ↔ ok s i) ∧ (P s' → Inv s')) :
    Always step P s is ↔ Run step ok s is s' := by
  induction h with
  | nil s => exact ⟨fun _ => .nil s, fun _ => .nil hs⟩
  | cons _ hst _ ih =>
    obtain ⟨hiff, hnext⟩ := hstep _ _ _ _ hinv hs hst
    constructor
    · intro hall
      have hs' := (hall.tail hst).head
      exact .cons (hiff.mp hs') hst ((ih (hnext hs') hs').mp (hall.tail hst))
    · intro hrun
      rcases hrun with _ | ⟨hok, hst', hrest⟩
      rw [hst, Option.some.injEq, Prod.mk.injEq] at hst'
      obtain ⟨rfl, rfl⟩ := hst'
      have hs' := hiff.mpr hok
      exact .cons hs hst ((ih (hnext hs') hs').mpr hrest)

variable {Q : σ → ι → σ → Prop}

theorem EveryStep.head {s s' : σ} {i : ι} {is : List ι} {o : ω} (h : EveryStep step Q s (i :: is))
    (hstep : step s i = some (s', o)) : Q s i s' :=
  h [] i is s s' o rfl (.nil s) hstep

theorem EveryStep.tail {s s' : σ} {i : ι} {is : List ι} {o : ω} (h : EveryStep step Q s (i :: is))
    (hstep : step s i = some (s', o)) : EveryStep step Q s' is := by
  rintro is₁ j is₂ t t' o' rfl hrun hst
  exact h (i :: is₁) j is₂ t t' o' rfl (.cons trivial hstep hrun) hst

theorem EveryStep.nil (s : σ) : EveryStep step Q s [] := by
  intro is₁ i is₂ t t' o h
  exact absurd h.symm (by simp)

theorem EveryStep.cons {s s' : σ} {i : ι} {is : List ι} {o : ω} (hs : Q s i s')
    (hstep : step s i = some (s', o)) (h : EveryStep step Q s' is) :
    EveryStep step Q s (i :: is) := by
  intro is₁ j is₂ t t' o' heq hrun hst
  rcases hrun with _ | ⟨-, hst', hrest⟩
  · rw [List.nil_append, List.cons.injEq] at heq
    obtain ⟨rfl, rfl⟩ := heq
    rw [hstep, Option.some.injEq, Prod.mk.injEq] at hst
    exact hst.1 ▸ hs
  · rw [List.cons_append, List.cons.injEq] at heq
    obtain ⟨rfl, rfl⟩ := heq
    rw [hstep, Option.some.injEq, Prod.mk.injEq] at hst'
    obtain ⟨rfl, rfl⟩ := hst'
    exact h _ j is₂ t t' o' rfl hrest hst

theorem FreeRun.everyStep_iff {s s' : σ} {is : List ι} (h : FreeRun step s is s')
    (hstep : ∀ s i s' o, step s i = some (s', o) → (Q s i s' ↔ ok s i)) :
    EveryStep step Q s is ↔ Run step ok s is s' := by
  induction h with
  | nil s => exact ⟨fun _ => .nil s, fun _ => .nil s⟩
  | cons _ hst _ ih =>
    constructor
    · intro hall
      exact .cons ((hstep _ _ _ _ hst).mp (hall.head hst)) hst (ih.mp (hall.tail hst))
    · intro hrun
      rcases hrun with _ | ⟨hok, hst', hrest⟩
      rw [hst, Option.some.injEq, Prod.mk.injEq] at hst'
      obtain ⟨rfl, rfl⟩ := hst'
      exact .cons ((hstep _ _ _ _ hst).mpr hok) hst (ih.mpr hrest)

end Exact

end PolarWG
