import Mathlib

/-!
# Binary tries and longest prefixes

A prefix table maps bit strings to values; `longest` reads a key at its longest prefix in the
table. A trie stores a table as the values met on the way down, and its walk down a key keeps the
last value met, which is the longest prefix's.
-/

namespace PolarWG

/-- The value a table has at the longest prefix of the key that is in it. -/
def longest {α : Type*} (m : List Bool → Option α) (key : List Bool) : Option α :=
  key.inits.reverse.findSome? m

section longest

variable {α : Type*} (m : List Bool → Option α)

theorem longest_nil : longest m [] = m [] := by
  simp [longest]

/-- One more bit: the prefixes through it win over the empty one. -/
theorem longest_cons (b : Bool) (key : List Bool) :
    longest m (b :: key) = (longest (fun p => m (b :: p)) key).or (m []) := by
  simp only [longest, List.inits_cons, List.reverse_cons, ← List.map_reverse,
    List.findSome?_append, List.findSome?_map, List.findSome?_cons, List.findSome?_nil]
  cases m [] <;> rfl

theorem longest_eq_none : ∀ (m : List Bool → Option α) (key : List Bool),
    longest m key = none ↔ ∀ n ≤ key.length, m (key.take n) = none
  | m, [] => by simp [longest_nil]
  | m, b :: key => by
    rw [longest_cons, Option.or_eq_none_iff, longest_eq_none]
    constructor
    · rintro ⟨h, h0⟩ n hn
      rcases n with _ | n
      · exact h0
      · exact h n (by simpa using hn)
    · intro h
      exact ⟨fun n hn => h (n + 1) (by simpa using hn), h 0 (by simp)⟩

theorem longest_eq_some {v : α} : ∀ (m : List Bool → Option α) (key : List Bool),
    longest m key = some v ↔ ∃ n ≤ key.length, m (key.take n) = some v
      ∧ ∀ k ≤ key.length, n < k → m (key.take k) = none
  | m, [] => by
    rw [longest_nil]
    constructor
    · exact fun h => ⟨0, le_rfl, h, fun k hk h0 => absurd hk (by simp at hk ⊢; omega)⟩
    · rintro ⟨n, -, h, -⟩
      simpa using h
  | m, b :: key => by
    rw [longest_cons, Option.or_eq_some_iff, longest_eq_some]
    constructor
    · rintro (⟨n, hn, h, hk⟩ | ⟨h, h0⟩)
      · refine ⟨n + 1, by simpa using hn, h, fun k hk1 hk2 => ?_⟩
        obtain ⟨k, rfl⟩ : ∃ j, k = j + 1 := ⟨k - 1, by omega⟩
        exact hk k (by simpa using hk1) (by omega)
      · refine ⟨0, by simp, h0, fun k hk1 hk2 => ?_⟩
        obtain ⟨k, rfl⟩ : ∃ j, k = j + 1 := ⟨k - 1, by omega⟩
        exact (longest_eq_none _ key).1 h k (by simpa using hk1)
    · rintro ⟨n, hn, h, hk⟩
      rcases n with _ | n
      · exact .inr ⟨(longest_eq_none _ key).2 fun k hk1 =>
          hk (k + 1) (by simpa using hk1) (by omega), h⟩
      · exact .inl ⟨n, by simpa using hn, h, fun k hk1 hk2 =>
          hk (k + 1) (by simpa using hk1) (by omega)⟩

theorem longest_eq_findSome (key : List Bool) : longest m key
    = (List.range (key.length + 1)).reverse.findSome? fun n => m (key.take n) := by
  have hinits : key.inits = (List.range (key.length + 1)).map key.take :=
    List.ext_getElem (by simp) fun n h1 h2 => by simp [List.getElem_inits]
  rw [longest, hinits, ← List.map_reverse, List.findSome?_map]
  rfl

end longest

/-- A trie node: the value of the prefix that ends here, and the subtries by the next bit. -/
inductive BitTrie (α : Type*) where
  | nil
  | node (value : Option α) (zero one : BitTrie α)

namespace BitTrie

variable {α : Type*}

def value : BitTrie α → Option α
  | nil => none
  | node v _ _ => v

def child : BitTrie α → Bool → BitTrie α
  | nil, _ => nil
  | node _ z _, false => z
  | node _ _ o, true => o

/-- The node with one subtrie replaced. -/
def setChild (t : BitTrie α) (b : Bool) (c : BitTrie α) : BitTrie α :=
  match b with
  | false => node t.value c (t.child true)
  | true => node t.value (t.child false) c

/-- The table the trie stores. -/
def find : BitTrie α → List Bool → Option α
  | t, [] => t.value
  | t, b :: p => (t.child b).find p

def insert : BitTrie α → List Bool → α → BitTrie α
  | t, [], a => node (some a) (t.child false) (t.child true)
  | t, b :: p, a => t.setChild b ((t.child b).insert p a)

/-- Clears the value at a prefix; the nodes stay. -/
def remove : BitTrie α → List Bool → BitTrie α
  | nil, _ => nil
  | node _ z o, [] => node none z o
  | t@(node _ _ _), b :: p => t.setChild b ((t.child b).remove p)

/-- The walk down a key, keeping the last value met. -/
def walk : BitTrie α → List Bool → Option α → Option α
  | t, [], best => t.value.or best
  | t, b :: p, best => (t.child b).walk p (t.value.or best)

/-- The number of values stored. -/
def count : BitTrie α → ℕ
  | nil => 0
  | node v z o => v.toList.length + z.count + o.count

@[simp] theorem value_nil : (nil : BitTrie α).value = none := rfl
@[simp] theorem value_node (v : Option α) (z o : BitTrie α) : (node v z o).value = v := rfl
@[simp] theorem child_nil (b : Bool) : (nil : BitTrie α).child b = nil := rfl

@[simp] theorem value_setChild (t : BitTrie α) (b : Bool) (c : BitTrie α) :
    (t.setChild b c).value = t.value := by
  cases b <;> rfl

@[simp] theorem child_setChild_self (t : BitTrie α) (b : Bool) (c : BitTrie α) :
    (t.setChild b c).child b = c := by
  cases b <;> rfl

theorem child_setChild_of_ne (t : BitTrie α) {b b' : Bool} (h : b' ≠ b) (c : BitTrie α) :
    (t.setChild b c).child b' = t.child b' := by
  cases b <;> cases b' <;> first | exact absurd rfl h | rfl

@[simp] theorem find_nil (p : List Bool) : (nil : BitTrie α).find p = none := by
  induction p with
  | nil => rfl
  | cons b p ih => simpa [find] using ih

@[simp] theorem find_empty (t : BitTrie α) : t.find [] = t.value := by
  cases t <;> rfl

@[simp] theorem find_cons (t : BitTrie α) (b : Bool) (p : List Bool) :
    t.find (b :: p) = (t.child b).find p := by
  cases t <;> rfl

theorem find_setChild_cons (t : BitTrie α) (b : Bool) (c : BitTrie α) (b' : Bool)
    (q : List Bool) :
    (t.setChild b c).find (b' :: q) = if b' = b then c.find q else t.find (b' :: q) := by
  by_cases h : b' = b
  · subst h; simp
  · simp [child_setChild_of_ne t h, h]

theorem find_insert : ∀ (t : BitTrie α) (p : List Bool) (a : α),
    (t.insert p a).find = Function.update t.find p (some a)
  | t, [], a => by
    funext q
    cases q with
    | nil => simp [insert]
    | cons b q => cases b <;> simp [insert, Function.update, child]
  | t, b :: p, a => by
    funext q
    cases q with
    | nil => simp [insert, Function.update]
    | cons b' q =>
      rw [insert, find_setChild_cons]
      by_cases h : b' = b
      · subst h
        rw [if_pos rfl, find_insert]
        by_cases hq : q = p <;> simp [Function.update, hq]
      · simp [Function.update, h]

theorem find_remove : ∀ (t : BitTrie α) (p : List Bool),
    (t.remove p).find = Function.update t.find p none
  | nil, p => by
    funext q
    cases p <;> simp [remove, Function.update]
  | node v z o, [] => by
    funext q
    cases q with
    | nil => simp [remove]
    | cons b q => cases b <;> simp [remove, Function.update, child]
  | node v z o, b :: p => by
    funext q
    cases q with
    | nil => simp [remove, Function.update]
    | cons b' q =>
      rw [remove, find_setChild_cons]
      by_cases h : b' = b
      · subst h
        rw [if_pos rfl, find_remove]
        by_cases hq : q = p <;> simp [Function.update, hq]
      · simp [Function.update, h]

/-- The walk ends at the longest prefix, or keeps what it started with. -/
theorem walk_eq : ∀ (t : BitTrie α) (key : List Bool) (best : Option α),
    t.walk key best = (longest t.find key).or best
  | t, [], best => by simp [walk, longest_nil]
  | t, b :: key, best => by
    rw [walk, walk_eq, longest_cons]
    have h : (fun p => t.find (b :: p)) = (t.child b).find := by
      funext p
      simp
    rw [h, Option.or_assoc, find_empty]

theorem count_setChild (t : BitTrie α) (b : Bool) (c : BitTrie α) :
    (t.setChild b c).count + (t.child b).count = t.count + c.count := by
  cases t <;> cases b <;> simp [setChild, count, child] <;> omega

theorem count_insert : ∀ (t : BitTrie α) (p : List Bool) (a : α),
    (t.insert p a).count = t.count + if t.find p = none then 1 else 0
  | t, [], a => by
    rcases t with _ | ⟨_ | v, z, o⟩
    · simp [insert, count, child]
    · simp only [insert, count, child, value_node, Option.toList, List.length_nil, List.length_cons,
        find_empty, if_true]
      omega
    · simp [insert, count, child]
  | t, b :: p, a => by
    have h := count_setChild t b ((t.child b).insert p a)
    rw [count_insert] at h
    rw [insert, find_cons]
    omega

theorem count_remove : ∀ (t : BitTrie α) (p : List Bool),
    (t.remove p).count + (if t.find p = none then 0 else 1) = t.count
  | nil, p => by simp [remove]
  | node v z o, [] => by
    cases v
    · simp [remove, count]
    · simp only [remove, count, value_node, Option.toList, List.length_nil, List.length_cons,
        find_empty, reduceCtorEq, if_false]
      omega
  | node v z o, b :: p => by
    have h := count_setChild (node v z o) b (((node v z o).child b).remove p)
    have ih := count_remove ((node v z o).child b) p
    rw [remove, find_cons]
    omega

/-- The prefixes with a value. -/
def keys : BitTrie α → List (List Bool)
  | nil => []
  | node v z o => (v.toList.map fun _ => []) ++ z.keys.map (false :: ·) ++ o.keys.map (true :: ·)

theorem mem_keys : ∀ (t : BitTrie α) (p : List Bool), p ∈ t.keys ↔ t.find p ≠ none
  | nil, p => by simp [keys]
  | node v z o, [] => by
    cases v <;> simp [keys]
  | node v z o, b :: p => by
    cases v <;> cases b <;> simp [keys, child, mem_keys]

theorem nodup_keys : ∀ t : BitTrie α, t.keys.Nodup
  | nil => List.nodup_nil
  | node v z o => by
    have hz : (z.keys.map (false :: ·)).Nodup :=
      (nodup_keys z).map fun _ _ h => (List.cons.inj h).2
    have ho : (o.keys.map (true :: ·)).Nodup :=
      (nodup_keys o).map fun _ _ h => (List.cons.inj h).2
    cases v <;> simp [keys, List.nodup_append, hz, ho]

theorem length_keys : ∀ t : BitTrie α, t.keys.length = t.count
  | nil => rfl
  | node v z o => by simp [keys, count, length_keys z, length_keys o, Nat.add_assoc]

/-- The count is the number of prefixes with a value. -/
theorem count_eq_ncard (t : BitTrie α) : t.count = {p | t.find p ≠ none}.ncard := by
  have h : {p | t.find p ≠ none} = (t.keys.toFinset : Set (List Bool)) := by
    ext p
    simp [mem_keys]
  rw [h, Set.ncard_coe_finset, List.toFinset_card_of_nodup (nodup_keys t), length_keys]

end BitTrie

end PolarWG
