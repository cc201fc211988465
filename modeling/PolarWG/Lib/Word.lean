import Mathlib

/-!
# Words

Arithmetic on words of `w` bits wraps around, as machines have it. Each result comes with a note of
whether something did on the way to it.
-/

namespace PolarWG

structure Traced (α : Type) where
  val : α
  clean : Bool
deriving DecidableEq

namespace Traced

instance : Monad Traced where
  pure a := ⟨a, true⟩
  bind x f := ⟨(f x.val).val, x.clean && (f x.val).clean⟩

variable {α β : Type}

theorem pure_bind (a : α) (f : α → Traced β) : (pure a >>= f) = f a := rfl

/-- Nothing wraps around, and the result is one of these. -/
def Returns (x : Traced α) (P : α → Prop) : Prop := ∃ a, x = pure a ∧ P a

theorem Returns.pure {a : α} {P : α → Prop} (h : P a) : (pure a : Traced α).Returns P := ⟨a, rfl, h⟩

theorem Returns.bind {x : Traced α} {f : α → Traced β} {P : α → Prop} {Q : β → Prop}
    (hx : x.Returns P) (hf : ∀ a, P a → (f a).Returns Q) : (x >>= f).Returns Q := by
  obtain ⟨a, rfl, ha⟩ := hx
  exact hf a ha

theorem Returns.mono {x : Traced α} {P Q : α → Prop} (hx : x.Returns P) (h : ∀ a, P a → Q a) :
    x.Returns Q := by
  obtain ⟨a, rfl, ha⟩ := hx
  exact ⟨a, rfl, h a ha⟩

theorem Returns.eq {x : Traced α} {a : α} (hx : x.Returns (· = a)) : x = ⟨a, true⟩ := by
  obtain ⟨_, rfl, rfl⟩ := hx
  rfl

/-- A loop simulates another where each turn does. -/
theorem Returns.foldlM {γ σ : Type} {f : β → γ → Traced β} {g : σ → γ → σ} (Rel : β → σ → Prop)
    (hf : ∀ b s c, Rel b s → (f b c).Returns (Rel · (g s c))) :
    ∀ (cs : List γ) {b : β} {s : σ}, Rel b s → (cs.foldlM f b).Returns (Rel · (cs.foldl g s))
  | [], _, _, h => .pure h
  | c :: cs, b, s, h => by
    rw [List.foldlM_cons]
    exact (hf b s c h).bind fun _ h' => foldlM Rel hf cs h'

end Traced

/-! ## Operations -/

variable {w a b : ℕ}

def wordAdd (w a b : ℕ) : Traced ℕ := ⟨(a + b) % 2 ^ w, decide (a + b < 2 ^ w)⟩

def wordSub (w a b : ℕ) : Traced ℕ := ⟨(a + (2 ^ w - b)) % 2 ^ w, decide (b ≤ a)⟩

def wordMul (w a b : ℕ) : Traced ℕ := ⟨a * b % 2 ^ w, decide (a * b < 2 ^ w)⟩

def wordShl (w a k : ℕ) : Traced ℕ := ⟨(a <<< k) % 2 ^ w, decide (a <<< k < 2 ^ w)⟩

/-- A conversion to fewer bits that is meant to lose none. -/
def wordCast (w a : ℕ) : Traced ℕ := ⟨a % 2 ^ w, decide (a < 2 ^ w)⟩

theorem wordAdd_eq (h : a + b < 2 ^ w) : wordAdd w a b = pure (a + b) := by
  simp only [wordAdd, Nat.mod_eq_of_lt h, h, decide_true]
  rfl

theorem wordSub_eq (h : b ≤ a) (ha : a < 2 ^ w) : wordSub w a b = pure (a - b) := by
  have : (a + (2 ^ w - b)) % 2 ^ w = a - b := by
    rw [show a + (2 ^ w - b) = a - b + 2 ^ w by omega, Nat.add_mod_right]
    exact Nat.mod_eq_of_lt (by omega)
  simp only [wordSub, this, h, decide_true]
  rfl

theorem wordMul_eq (h : a * b < 2 ^ w) : wordMul w a b = pure (a * b) := by
  simp only [wordMul, Nat.mod_eq_of_lt h, h, decide_true]
  rfl

theorem wordShl_eq {k : ℕ} (h : a * 2 ^ k < 2 ^ w) : wordShl w a k = pure (a * 2 ^ k) := by
  simp only [wordShl, Nat.shiftLeft_eq, Nat.mod_eq_of_lt h, h, decide_true]
  rfl

theorem wordCast_eq (h : a < 2 ^ w) : wordCast w a = pure a := by
  simp only [wordCast, Nat.mod_eq_of_lt h, h, decide_true]
  rfl

/-! ## Packed words -/

/-- The disjunction of numbers that are shifted. -/
def orShl (w : ℕ) : List (ℕ × ℕ) → Traced ℕ
  | [] => pure 0
  | (b, k) :: parts => do
    let x ← wordShl w b k
    let y ← orShl w parts
    pure (x ||| y)

/-- The sum of numbers that are shifted. -/
def sumShl : List (ℕ × ℕ) → ℕ
  | [] => 0
  | (b, k) :: parts => b * 2 ^ k + sumShl parts

/-- Each part begins where the one before ends, and the last ends at `n`. -/
def Packed (n : ℕ) : ℕ → List (ℕ × ℕ) → Prop
  | k, [] => k = n
  | k, (b, j) :: parts => j = k ∧ ∃ m, b < 2 ^ m ∧ Packed n (k + m) parts

theorem Packed.le {n : ℕ} : ∀ {parts : List (ℕ × ℕ)} {k : ℕ}, Packed n k parts → k ≤ n
  | [], _, h => Nat.le_of_eq h
  | _ :: _, k, ⟨_, m, _, h⟩ => (Nat.le_add_right k m).trans h.le

theorem orShl_eq {n : ℕ} (hn : n ≤ w) : ∀ {parts : List (ℕ × ℕ)} {k : ℕ}, Packed n k parts →
    ∃ m, orShl w parts = pure (2 ^ k * m) ∧ 2 ^ k * m < 2 ^ n
      ∧ 2 ^ k * m = sumShl parts
  | [], k, _ => ⟨0, rfl, by positivity, rfl⟩
  | (b, j) :: parts, k, h => by
    obtain ⟨rfl, m, hb, hrest⟩ := h
    obtain ⟨c, hc, hlt, hsum⟩ := orShl_eq hn hrest
    have hlow : b * 2 ^ j < 2 ^ (j + m) := by
      rw [pow_add, Nat.mul_comm]
      exact (Nat.mul_lt_mul_left (by positivity)).mpr hb
    have hend : b * 2 ^ j < 2 ^ n := hlow.trans_le (Nat.pow_le_pow_right (by decide) hrest.le)
    have hor : b * 2 ^ j ||| 2 ^ (j + m) * c = 2 ^ j * (b + 2 ^ m * c) := by
      rw [Nat.or_comm, ← Nat.two_pow_add_eq_or_of_lt hlow]
      ring
    refine ⟨b + 2 ^ m * c, ?_, ?_, ?_⟩
    · rw [orShl, wordShl_eq (hend.trans_le (Nat.pow_le_pow_right (by decide) hn)), hc, ← hor]
      rfl
    · rw [← hor]
      exact Nat.or_lt_two_pow hend hlt
    · rw [sumShl, ← hsum]
      ring

theorem orShl_spec {n : ℕ} {parts : List (ℕ × ℕ)} (h : Packed n 0 parts) (hn : n ≤ w) :
    (orShl w parts).Returns fun x => x < 2 ^ n ∧ x = sumShl parts := by
  obtain ⟨m, hm, hlt, hsum⟩ := orShl_eq hn h
  exact ⟨2 ^ 0 * m, hm, hlt, hsum⟩

end PolarWG
