import Mathlib.Data.List.Basic

/-!
# Routes

A route covers addresses. A table of routes that are included keeps an address out if none of them
covers it, or if a route that is excluded does and is at least as specific as each that does.
-/

namespace Routing

variable {α ρ : Type*} (covers : ρ → α → Prop)

/-- At least as specific: it covers no address that the other one does not. -/
def MoreSpecific (e r : ρ) : Prop := ∀ x, covers e x → covers r x

def KeptOut (included excluded : List ρ) (x : α) : Prop :=
  (∀ r ∈ included, ¬ covers r x)
    ∨ ∃ e ∈ excluded, covers e x ∧ ∀ r ∈ included, covers r x → MoreSpecific covers e r

variable {covers}

theorem keptOut_nil {included : List ρ} {x : α} :
    KeptOut covers included [] x ↔ ∀ r ∈ included, ¬ covers r x := by
  simp [KeptOut]

/-- A route to the address alone is as specific as any that covers it. -/
theorem keptOut_of_host {included excluded : List ρ} {e : ρ} {x : α} (he : e ∈ excluded)
    (hx : covers e x) (honly : ∀ y, covers e y → y = x) : KeptOut covers included excluded x :=
  .inr ⟨e, he, hx, fun _ _ hr y hy => honly y hy ▸ hr⟩

section Firsts

variable {κ : Type*} [DecidableEq κ] (key : ρ → κ)

/-- The first of each key, in order. -/
def firsts : List ρ → List κ → List ρ
  | [], _ => []
  | r :: rs, seen => if key r ∈ seen then firsts rs seen else r :: firsts rs (key r :: seen)

variable {key}

theorem mem_of_mem_firsts {r : ρ} : ∀ {rs : List ρ} {seen : List κ}, r ∈ firsts key rs seen → r ∈ rs
  | [], _, h => by cases h
  | a :: rs, seen, h => by
    unfold firsts at h
    split at h
    · exact List.mem_cons_of_mem a (mem_of_mem_firsts h)
    · rcases List.mem_cons.mp h with rfl | h
      · exact List.mem_cons_self
      · exact List.mem_cons_of_mem a (mem_of_mem_firsts h)

theorem exists_mem_firsts {r : ρ} : ∀ {rs : List ρ} {seen : List κ}, r ∈ rs → key r ∉ seen →
    ∃ r' ∈ firsts key rs seen, key r' = key r
  | a :: rs, seen, h, hseen => by
    unfold firsts
    by_cases hkey : key r = key a
    · rw [if_neg (hkey ▸ hseen)]
      exact ⟨a, List.mem_cons_self, hkey.symm⟩
    · have hr : r ∈ rs := (List.mem_cons.mp h).resolve_left fun e => hkey (congrArg key e)
      split
      · exact exists_mem_firsts hr hseen
      · have hnew : key r ∉ key a :: seen := fun h => (List.mem_cons.mp h).elim hkey hseen
        obtain ⟨r', hr', he⟩ := exists_mem_firsts hr hnew
        exact ⟨r', List.mem_cons_of_mem a hr', he⟩

theorem mem_firsts_iff {rs : List ρ} (hinj : ∀ a ∈ rs, ∀ b ∈ rs, key a = key b → a = b) {r : ρ} :
    r ∈ firsts key rs [] ↔ r ∈ rs := by
  refine ⟨mem_of_mem_firsts, fun hr => ?_⟩
  obtain ⟨r', hr', he⟩ := exists_mem_firsts hr (List.not_mem_nil (a := key r))
  rwa [hinj r' (mem_of_mem_firsts hr') r hr he] at hr'

end Firsts

end Routing
