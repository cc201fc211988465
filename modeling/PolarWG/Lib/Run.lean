import Mathlib.Logic.Relation

/-!
# Guarded runs

Runs of a partial step function, each input meeting a guard on the state it is given in. An
invariant of the steps holds along a run, and a run whose steps are simulated is simulated.
-/

namespace PolarWG

variable {σ ι ω τ : Type*}

/-- The run over these inputs ends in the last state, and every input met the guard. -/
inductive Run (step : σ → ι → Option (σ × ω)) (ok : σ → ι → Prop) : σ → List ι → σ → Prop where
  | nil (s : σ) : Run step ok s [] s
  | cons {s s' s'' : σ} {i : ι} {is : List ι} {o : ω} (hok : ok s i)
      (hstep : step s i = some (s', o)) (hrun : Run step ok s' is s'') : Run step ok s (i :: is) s''

namespace Run

variable {step : σ → ι → Option (σ × ω)} {ok : σ → ι → Prop}

theorem invariant {s s' : σ} {is : List ι} (h : Run step ok s is s') (Inv : σ → Prop)
    (hs : Inv s) (hstep : ∀ s i s' o, Inv s → ok s i → step s i = some (s', o) → Inv s') :
    Inv s' := by
  induction h with
  | nil s => exact hs
  | cons hok hst _ ih => exact ih (hstep _ _ _ _ hs hok hst)

theorem mono {s s' : σ} {is : List ι} {ok' : σ → ι → Prop} (h : Run step ok s is s')
    (hok : ∀ s i, ok s i → ok' s i) : Run step ok' s is s' := by
  induction h with
  | nil s => exact .nil s
  | cons hi hst _ ih => exact .cons (hok _ _ hi) hst ih

theorem append {s s' s'' : σ} {is js : List ι} (h : Run step ok s is s')
    (h' : Run step ok s' js s'') : Run step ok s (is ++ js) s'' := by
  induction h with
  | nil s => exact h'
  | cons hi hst _ ih => exact .cons hi hst (ih h')

/-- Where an invariant's steps are simulated, so is the run. -/
theorem simulates {s s' : σ} {is : List ι} {R : τ → τ → Prop} (abs : σ → τ)
    (h : Run step ok s is s') (Inv : σ → Prop) (hs : Inv s)
    (hstep : ∀ s i s' o, Inv s → ok s i → step s i = some (s', o) →
      Inv s' ∧ Relation.ReflTransGen R (abs s) (abs s')) :
    Inv s' ∧ Relation.ReflTransGen R (abs s) (abs s') := by
  induction h with
  | nil s => exact ⟨hs, .refl⟩
  | cons hi hst _ ih =>
    obtain ⟨h1, h2⟩ := hstep _ _ _ _ hs hi hst
    obtain ⟨h3, h4⟩ := ih h1
    exact ⟨h3, h2.trans h4⟩

/-- The run computed: the last state, and what each step gave. -/
def exec (step : σ → ι → Option (σ × ω)) : σ → List ι → Option (σ × List ω)
  | s, [] => some (s, [])
  | s, i :: is => do
    let (s, o) ← step s i
    let (s, os) ← exec step s is
    pure (s, o :: os)

theorem of_exec : ∀ {is : List ι} {s s' : σ} {os : List ω}, (∀ s, ∀ i ∈ is, ok s i) →
    exec step s is = some (s', os) → Run step ok s is s'
  | [], s, s', os, _, h => by
    simp only [exec, Option.some.injEq, Prod.mk.injEq] at h
    exact h.1 ▸ .nil s
  | i :: is, s, s', os, hok, h => by
    simp only [exec, Option.bind_eq_bind, Option.bind_eq_some_iff, Option.pure_def,
      Option.some.injEq, Prod.mk.injEq] at h
    obtain ⟨⟨s₁, o⟩, h1, ⟨s₂, os₁⟩, h2, rfl, -⟩ := h
    exact .cons (hok s i (by simp)) h1 (of_exec (fun s j hj => hok s j (by simp [hj])) h2)

end Run

/-- A loop that can fail keeps what each turn keeps. -/
theorem foldlM_inv {α β : Type*} {f : β → α → Option β} (Inv : β → Prop)
    (hf : ∀ b a b', Inv b → f b a = some b' → Inv b') :
    ∀ {as : List α} {b b' : β}, Inv b → as.foldlM f b = some b' → Inv b'
  | [], b, b', hb, h => by
    simp only [List.foldlM_nil, Option.pure_def, Option.some.injEq] at h
    exact h ▸ hb
  | a :: as, b, b', hb, h => by
    simp only [List.foldlM_cons, Option.bind_eq_bind, Option.bind_eq_some_iff] at h
    obtain ⟨b₁, h1, h2⟩ := h
    exact foldlM_inv Inv hf (hf _ _ _ hb h1) h2

/-- Some run from an initial state ends here. -/
def Reachable (init : σ → Prop) (step : σ → ι → Option (σ × ω)) (ok : σ → ι → Prop) (s : σ) :
    Prop := ∃ s₀ is, init s₀ ∧ Run step ok s₀ is s

theorem Reachable.run {init : σ → Prop} {step : σ → ι → Option (σ × ω)} {ok : σ → ι → Prop}
    {s s' : σ} {is : List ι} (h : Reachable init step ok s) (h' : Run step ok s is s') :
    Reachable init step ok s' := by
  obtain ⟨s₀, js, h0, hr⟩ := h
  exact ⟨s₀, js ++ is, h0, hr.append h'⟩

end PolarWG
