import PolarWG.CoreConfig
import PolarWG.Proofs.Texts
import PolarWG.Specimen

/-!
# Prefixes

What the parsers take for an address with a prefix length, against the grammar of one. They leave
the number to `atoi`, which reads anything: they take exactly the grammar where what follows the
slash is a number of the family, or is read as one that is too large and this is checked.
-/

namespace PolarWG

variable {p : Prims} {s t n : Text} {f bits : ℕ} {a : Bytes}

/-- A family with the bits of its addresses, and the bytes of an address of it. -/
def address (p : Prims) (t : Text) : Option (ℕ × ℕ × Bytes) :=
  match p.inetPton afInet t with
  | some a => some (afInet, 32, a)
  | none => (p.inetPton afInet6 t).map (afInet6, 128, ·)

/-- A number in decimal. -/
structure Decimal (t : Text) (n : ℕ) : Prop where
  ne : t ≠ []
  digits : ∀ c ∈ t, c.isDigit = true
  value : digitsNat t = n

/-- An address, or an address with a prefix length of at most its bits. -/
def PrefixText (p : Prims) (s t : Text) (f : ℕ) (a : Bytes) (len : ℕ) : Prop :=
  ∃ bits, address p t = some (f, bits, a) ∧ '/' ∉ t ∧ (s = t ∧ len = bits
    ∨ ∃ n, s = t ++ '/' :: n ∧ Decimal n len ∧ len ≤ bits)

/-- What follows the slash after an address is a prefix length, or is seen not to be one. -/
def PrefixRead (p : Prims) (checked : Prop) (s : Text) : Prop :=
  ∀ t n f bits a, s = t ++ '/' :: n → '/' ∉ t → address p t = some (f, bits, a) →
    (∃ len ≤ bits, Decimal n len) ∨ checked ∧ (bits : ℤ) < atoi n

/-! ## The number -/

theorem Decimal.atoi {len : ℕ} (h : Decimal n len) (hlen : len ≤ 128) : atoi n = len := by
  have hv := h.value
  rw [atoi_digits h.ne h.digits (by omega), hv]

/-- A parser and the grammar give the same for `n` just when `n` is a prefix length, or is refused
as too large. -/
theorem number_iff {α : Type*} (mk : ℤ → α) {checked : Prop} [Decidable checked]
    (hbits : bits ≤ 128) :
    (∀ y, (if checked ∧ (bits : ℤ) < (if atoi n < 0 then (bits : ℤ) else atoi n) then none
        else some (mk (if atoi n < 0 then (bits : ℤ) else atoi n))) = some y
      ↔ ∃ len : ℕ, Decimal n len ∧ len ≤ bits ∧ y = mk len)
      ↔ (∃ len ≤ bits, Decimal n len) ∨ checked ∧ (bits : ℤ) < atoi n := by
  by_cases hdec : ∃ len ≤ bits, Decimal n len
  · refine iff_of_true (fun y => ?_) (.inl hdec)
    obtain ⟨len, hle, hn⟩ := hdec
    have ha := hn.atoi (hle.trans hbits)
    rw [ha, if_neg (show ¬ (len : ℤ) < 0 by omega), if_neg (by omega), Option.some.injEq]
    constructor
    · rintro rfl
      exact ⟨len, hn, hle, rfl⟩
    · rintro ⟨len', hn', -, rfl⟩
      rw [← hn'.value, hn.value]
  · have hnone : ∀ y, ¬ ∃ len : ℕ, Decimal n len ∧ len ≤ bits ∧ y = mk len := fun y ⟨len, hn, hle, _⟩ =>
      hdec ⟨len, hle, hn⟩
    by_cases hlarge : checked ∧ (bits : ℤ) < atoi n
    · refine iff_of_true (fun y => ?_) (.inr hlarge)
      rw [if_neg (show ¬ atoi n < 0 by omega), if_pos hlarge]
      exact iff_of_false (by simp) (hnone y)
    · refine iff_of_false (fun h => ?_) (by rintro (h | h) <;> contradiction)
      have hread : ¬ (checked ∧ (bits : ℤ) < (if atoi n < 0 then (bits : ℤ) else atoi n)) := by
        rintro ⟨hc, hlt⟩
        split at hlt
        · exact absurd hlt (lt_irrefl _)
        · exact hlarge ⟨hc, hlt⟩
      rw [if_neg hread] at h
      exact hnone _ ((h _).mp rfl)

/-! ## The parsers -/

theorem address_bits (h : address p t = some (f, bits, a)) : bits ≤ 128 := by
  unfold address at h
  split at h
  · cases h
    decide
  · obtain ⟨b, -, h⟩ := Option.map_eq_some_iff.mp h
    cases h
    exact le_rfl

theorem slash_unique {t t' n n' : Text} (ht : '/' ∉ t) (ht' : '/' ∉ t')
    (h : t ++ '/' :: n = t' ++ '/' :: n') : t = t' ∧ n = n' := by
  have := (strchr_append (u := n) ht).symm.trans (h ▸ strchr_append ht')
  simpa using this

theorem exists_slash (h : '/' ∈ s) : ∃ t n, s = t ++ '/' :: n ∧ '/' ∉ t := by
  obtain ⟨t, n, rfl, ht⟩ := List.eq_append_cons_of_mem h
  exact ⟨t, n, rfl, ht⟩

/-- What the three parsers have in common. -/
def readPrefix {α : Type*} (p : Prims) (checked : Prop) [Decidable checked]
    (mk : ℕ → Text → Bytes → ℤ → α) (s : Text) : Option α :=
  let (t, n) := splitPrefix s
  (address p t).bind fun (f, bits, a) =>
    let len := if n < 0 then (bits : ℤ) else n
    if checked ∧ (bits : ℤ) < len then none else some (mk f t a len)

/-- A parser takes exactly the grammar at `s` just when the number of `s` is read as one. -/
theorem readPrefix_iff {α : Type*} {checked : Prop} [Decidable checked]
    (mk : ℕ → Text → Bytes → ℤ → α) (s : Text) :
    (∀ y, readPrefix p checked mk s = some y
        ↔ ∃ t f a, ∃ len : ℕ, PrefixText p s t f a len ∧ y = mk f t a len)
      ↔ PrefixRead p checked s := by
  unfold readPrefix splitPrefix
  by_cases hslash : '/' ∈ s
  · obtain ⟨t, n, rfl, ht⟩ := exists_slash hslash
    rw [strchr_append ht]
    simp only []
    have htext : ∀ t' f a len, PrefixText p (t ++ '/' :: n) t' f a len
        ↔ t' = t ∧ ∃ bits, address p t = some (f, bits, a) ∧ Decimal n len ∧ len ≤ bits := by
      intro t' f a len
      constructor
      · rintro ⟨bits, ha, ht', ⟨rfl, -⟩ | ⟨n', he, hn, hle⟩⟩
        · exact absurd hslash ht'
        · obtain ⟨rfl, rfl⟩ := slash_unique ht ht' he
          exact ⟨rfl, bits, ha, hn, hle⟩
      · rintro ⟨rfl, bits, ha, hn, hle⟩
        exact ⟨bits, ha, ht, .inr ⟨n, rfl, hn, hle⟩⟩
    rcases ha : address p t with _ | ⟨f, bits, a⟩
    · refine iff_of_true (fun y => ?_) fun t' n' f bits a he ht' ha' => ?_
      · refine iff_of_false (by simp) ?_
        rintro ⟨t', f, a, len, h, -⟩
        obtain ⟨-, bits, hsome, -⟩ := (htext _ _ _ _).mp h
        rw [ha] at hsome
        cases hsome
      · obtain ⟨rfl, rfl⟩ := slash_unique ht ht' he
        rw [ha] at ha'
        cases ha'
    · have hread : PrefixRead p checked (t ++ '/' :: n)
          ↔ (∃ len ≤ bits, Decimal n len) ∨ checked ∧ (bits : ℤ) < atoi n := by
        refine ⟨fun h => h t n f bits a rfl ht ha, fun h t' n' f' bits' a' he ht' ha' => ?_⟩
        obtain ⟨rfl, rfl⟩ := slash_unique ht ht' he
        rw [ha] at ha'
        cases ha'
        exact h
      rw [hread, ← number_iff (mk f t a) (address_bits ha)]
      refine forall_congr' fun y => iff_congr Iff.rfl ?_
      constructor
      · rintro ⟨t', f', a', len, h, rfl⟩
        obtain ⟨rfl, bits', ha', hn, hle⟩ := (htext _ _ _ _).mp h
        rw [ha] at ha'
        cases ha'
        exact ⟨len, hn, hle, rfl⟩
      · rintro ⟨len, hn, hle, rfl⟩
        exact ⟨t, f, a, len, (htext _ _ _ _).mpr ⟨rfl, bits, ha, hn, hle⟩, rfl⟩
  · have hnone : strchr '/' s = none := if_neg hslash
    have hneg : (-1 : ℤ) < 0 := by decide
    rw [hnone]
    simp only [if_pos hneg, lt_irrefl, and_false, if_false]
    refine iff_of_true (fun y => ?_) fun t n f bits a he => absurd (by simp [he]) hslash
    constructor
    · intro h
      obtain ⟨⟨f, bits, a⟩, ha, hy⟩ := Option.bind_eq_some_iff.mp h
      exact ⟨s, f, a, bits, ⟨bits, ha, hslash, .inl ⟨rfl, rfl⟩⟩, (Option.some.inj hy).symm⟩
    · rintro ⟨t, f, a, len, ⟨bits, ha, -, ⟨rfl, rfl⟩ | ⟨n, rfl, -⟩⟩, rfl⟩
      · rw [ha, Option.bind_some]
      · exact absurd (by simp) hslash

theorem checked_iff (bits : ℕ) (n : ℤ) : ((if n < 0 then (bits : ℤ) else n) < 0
    ∨ (bits : ℤ) < (if n < 0 then (bits : ℤ) else n))
    ↔ True ∧ (bits : ℤ) < (if n < 0 then (bits : ℤ) else n) := by
  rw [true_and]
  split <;> omega

theorem parseCidr_eq (hs : s.length < 64) : parseCidr p s
    = readPrefix p True (fun f _ a len => ⟨f, (a ++ zeros 16).take 16, len.toNat⟩) s := by
  unfold parseCidr readPrefix address
  rw [if_neg (by omega)]
  rcases splitPrefix s with ⟨t, n⟩
  simp only [checked_iff]
  rcases p.inetPton afInet t with _ | a
  · rcases p.inetPton afInet6 t with _ | a <;> rfl
  · rfl

theorem parseIfaceAddrCore_eq (hs : s.length < 64) : parseIfaceAddrCore p s
    = readPrefix p True (fun f t _ len => ⟨f, t, len⟩) s := by
  unfold parseIfaceAddrCore readPrefix address
  rw [if_neg (by omega)]
  rcases splitPrefix s with ⟨t, n⟩
  simp only [checked_iff]
  rcases p.inetPton afInet t with _ | a
  · rcases p.inetPton afInet6 t with _ | a <;> rfl
  · rfl

theorem parseIfaceAddr_eq (hs : s.length < 64) : parseIfaceAddr p s
    = readPrefix p False (fun f t _ len => ⟨f, t, len⟩) s := by
  unfold parseIfaceAddr readPrefix address
  rw [if_neg (by omega)]
  rcases splitPrefix s with ⟨t, n⟩
  simp only [false_and, if_false]
  rcases p.inetPton afInet t with _ | a
  · rcases p.inetPton afInet6 t with _ | a <;> rfl
  · rfl

/-- `parse_cidr` takes exactly the grammar at `s`, with the bytes of the address. -/
def CidrExact (p : Prims) (s : Text) : Prop := ∀ c, parseCidr p s = some c
  ↔ ∃ t f a len, PrefixText p s t f a len ∧ c = ⟨f, (a ++ zeros 16).take 16, len⟩

/-- A parser of interface addresses takes exactly the grammar at `s`, with the text of the
address. -/
def IfaceExact (p : Prims) (parse : Text → Option WgsIfaceAddr) (s : Text) : Prop :=
  ∀ x, parse s = some x ↔ ∃ t f a len, PrefixText p s t f a len ∧ x = ⟨f, t, len⟩

/-- Both copies of `parse_cidr` and the client's parser of interface addresses check that the
number is not too large, the session's does not. -/
theorem prefixes_exact (hs : s.length < 64) : (CidrExact p s ↔ PrefixRead p True s)
    ∧ (IfaceExact p (parseIfaceAddrCore p) s ↔ PrefixRead p True s)
    ∧ (IfaceExact p (parseIfaceAddr p) s ↔ PrefixRead p False s) := by
  refine ⟨?_, ?_, ?_⟩
  · rw [← readPrefix_iff fun f _ a len => (⟨f, (a ++ zeros 16).take 16, len.toNat⟩ : WgsAllowedCidr),
      CidrExact, parseCidr_eq hs]
    rfl
  · rw [← readPrefix_iff fun f t _ len => (⟨f, t, len⟩ : WgsIfaceAddr), IfaceExact,
      parseIfaceAddrCore_eq hs]
  · rw [← readPrefix_iff fun f t _ len => (⟨f, t, len⟩ : WgsIfaceAddr), IfaceExact,
      parseIfaceAddr_eq hs]

/-! ## A prefix that is read and one that is not -/

namespace Specimen

def tenNet (n : Text) : Text := "10.0.0.0".toList ++ '/' :: n

theorem tenNet_read : address specimen "10.0.0.0".toList = some (afInet, 32, [10, 0, 0, 0])
    ∧ parseCidr specimen (tenNet ['x']) = some ⟨afInet, 10 :: zeros 15, 0⟩
    ∧ '/' ∉ "10.0.0.0".toList := by
  decide +kernel

end Specimen

open Specimen in
theorem prefixes_exact_network : CidrExact specimen (tenNet ['8']) := by
  refine (prefixes_exact (by decide)).1.mpr fun t n f bits a he ht ha => ?_
  obtain ⟨rfl, rfl⟩ := slash_unique tenNet_read.2.2 ht he
  rw [tenNet_read.1] at ha
  cases ha
  exact .inl ⟨8, by decide, List.cons_ne_nil _ _,
    fun c hc => by rw [List.mem_singleton.mp hc]; decide, rfl⟩

open Specimen in
/-- What is no number is read as 0, and the entry as a default route. -/
theorem prefixes_not_exact : ¬ ∀ p s, s.length < 64 → CidrExact p s
    ∧ IfaceExact p (parseIfaceAddrCore p) s ∧ IfaceExact p (parseIfaceAddr p) s := fun h => by
  obtain ⟨t, f, a, len, ⟨bits, -, ht, hs⟩, -⟩ :=
    ((h specimen (tenNet ['x']) (by decide)).1 _).mp tenNet_read.2.1
  rcases hs with ⟨rfl, -⟩ | ⟨n, he, hn, -⟩
  · exact absurd ht (by decide)
  · obtain ⟨-, rfl⟩ := slash_unique tenNet_read.2.2 ht he
    exact absurd (hn.digits 'x' List.mem_cons_self) (by decide)

end PolarWG
