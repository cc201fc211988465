import Mathlib.Data.List.Induction

/-!
# Results that a condition decides

A partial function has a result exactly under a condition, and then one with a property. Where that
is so of each step of a fold, by what was taken up to it, it is so of the fold.
-/

variable {α β σ : Type*}

/-- There exactly under `cond`, and then with `post`. -/
structure Decided (o : Option α) (cond : Prop) (post : α → Prop) : Prop where
  complete : cond → ∃ a, o = some a
  sound : ∀ a, o = some a → cond ∧ post a

namespace Decided

variable {o : Option α} {cond cond' : Prop} {post post' : α → Prop}

theorem isSome_iff (h : Decided o cond post) : o.isSome ↔ cond := by
  rw [Option.isSome_iff_exists]
  exact ⟨fun ⟨a, ha⟩ => (h.sound a ha).1, h.complete⟩

theorem some {a : α} (hc : cond) (hp : post a) : Decided (some a) cond post where
  complete := fun _ => ⟨a, rfl⟩
  sound := fun _ h => Option.some.inj h ▸ ⟨hc, hp⟩

theorem none (hc : ¬ cond) : Decided none cond post where
  complete := fun h => absurd h hc
  sound := fun _ h => by cases h

theorem congr (h : Decided o cond post) (hc : cond ↔ cond') (hp : ∀ a, post a → post' a) :
    Decided o cond' post' where
  complete := fun hc' => h.complete (hc.mpr hc')
  sound := fun a ha => ⟨hc.mp (h.sound a ha).1, hp a (h.sound a ha).2⟩

/-- A result that is there and has the property, whatever decides it. -/
theorem of_isSome (hp : ∀ a, o = Option.some a → post a) : Decided o o.isSome post where
  complete := Option.isSome_iff_exists.mp
  sound := fun a ha => ⟨Option.isSome_iff_exists.mpr ⟨a, ha⟩, hp a ha⟩

theorem bind {f : α → Option β} {after : β → Prop} (h : Decided o cond post)
    (hf : ∀ a, cond → post a → Decided (f a) cond' after) :
    Decided (o.bind f) (cond ∧ cond') after where
  complete := fun ⟨hc, hc'⟩ => by
    obtain ⟨a, rfl⟩ := h.complete hc
    exact (hf a hc (h.sound a rfl).2).complete hc'
  sound := fun b hb => by
    obtain ⟨a, rfl, hb⟩ := Option.bind_eq_some_iff.mp hb
    obtain ⟨hc, hp⟩ := h.sound a rfl
    exact ⟨⟨hc, ((hf a hc hp).sound b hb).1⟩, ((hf a hc hp).sound b hb).2⟩

theorem map {f : α → β} {after : β → Prop} (h : Decided o cond post)
    (hf : ∀ a, o = Option.some a → post a → after (f a)) : Decided (o.map f) cond after where
  complete := fun hc => by
    obtain ⟨a, rfl⟩ := h.complete hc
    exact ⟨f a, rfl⟩
  sound := fun b hb => by
    obtain ⟨a, rfl, rfl⟩ := Option.map_eq_some_iff.mp hb
    exact ⟨(h.sound a rfl).1, hf a rfl (h.sound a rfl).2⟩

/-- A fold goes on as long as the condition holds of what it has taken. -/
theorem foldlM {step : σ → α → Option σ} {s : σ} (cond : List α → Prop)
    (post : List α → σ → Prop) (hmono : ∀ l a, cond (l ++ [a]) → cond l) (hcond : cond [])
    (hpost : post [] s) (hstep : ∀ l a t, cond l → post l t →
      Decided (step t a) (cond (l ++ [a])) (post (l ++ [a]))) (l : List α) :
    Decided (l.foldlM step s) (cond l) (post l) := by
  induction l using List.reverseRecOn with
  | nil => exact .some hcond hpost
  | append_singleton l a ih =>
    have hone : ∀ t, [a].foldlM step t = step t a := fun t => by
      rw [List.foldlM_cons]
      exact bind_pure _
    rw [List.foldlM_append]
    refine (ih.bind fun t hc hp => ?_).congr (and_iff_right_of_imp (hmono l a)) fun _ h => h
    rw [hone]
    exact hstep l a t hc hp

end Decided
