import PolarWG.Lib.Scalar

/-!
# Primality certificates

Pocklington's criterion: a number is prime when one witness has an order that is divisible by enough
primes that divide the number before it. A certificate is a list of numbers, each with its witness and
its primes, which are certified before it.
-/

namespace Pocklington

open Scalar

/-- The primes of the order of a witness divide what is before any prime factor. -/
theorem dvd_sub_one {N a r ℓ : ℕ} (hr : r.Prime) (hdvd : r ∣ N - 1) (hℓ : ℓ.Prime) (hℓN : ℓ ∣ N)
    (hpow : a ^ (N - 1) ≡ 1 [MOD N]) (hgcd : (a ^ ((N - 1) / r) % N - 1).Coprime N) :
    r ∣ ℓ - 1 := by
  have := Fact.mk hℓ
  have hone : (a : ZMod ℓ) ^ (N - 1) = 1 := by
    have := (ZMod.natCast_eq_natCast_iff _ _ _).mpr (hpow.of_dvd hℓN)
    simpa using this
  have hne : (a : ZMod ℓ) ^ ((N - 1) / r) ≠ 1 := fun h1 => by
    have hmod : a ^ ((N - 1) / r) % N ≡ 1 [MOD ℓ] := by
      refine ((Nat.mod_modEq _ N).of_dvd hℓN).trans ((ZMod.natCast_eq_natCast_iff _ _ _).mp ?_)
      simpa using h1
    have hpos : 1 ≤ a ^ ((N - 1) / r) % N := by
      by_contra h0
      rw [Nat.lt_one_iff.mp (not_le.mp h0)] at hmod
      exact hℓ.one_lt.ne' (Nat.dvd_one.mp ((Nat.modEq_zero_iff_dvd).mp hmod.symm))
    have := Nat.dvd_gcd ((Nat.modEq_iff_dvd' hpos).mp hmod.symm) hℓN
    rw [hgcd] at this
    exact hℓ.one_lt.ne' (Nat.dvd_one.mp this)
  have hord : orderOf (a : ZMod ℓ) ∣ N - 1 := orderOf_dvd_of_pow_eq_one hone
  have hro : r ∣ orderOf (a : ZMod ℓ) := by
    by_contra hno
    rw [← Nat.mul_div_cancel' hdvd] at hord
    have := ((hr.coprime_iff_not_dvd.mpr hno).symm).dvd_of_dvd_mul_left hord
    exact hne (orderOf_dvd_iff_pow_eq_one.mp this)
  have ha : (a : ZMod ℓ) ≠ 0 := fun h0 => by
    rcases Nat.eq_zero_or_pos (N - 1) with hN | hN
    · rw [hN, Nat.zero_div, pow_zero] at hne
      exact hne rfl
    · rw [h0, zero_pow hN.ne'] at hone
      exact zero_ne_one hone
  exact hro.trans (ZMod.orderOf_dvd_card_sub_one ha)

theorem prime_of_witness {N a : ℕ} {rs : List ℕ} (hN : 1 < N) (hrs : ∀ r ∈ rs, r.Prime)
    (hnodup : rs.Nodup) (hdvd : ∀ r ∈ rs, r ∣ N - 1) (hsize : N < rs.prod ^ 2)
    (hpow : a ^ (N - 1) ≡ 1 [MOD N])
    (hgcd : ∀ r ∈ rs, (a ^ ((N - 1) / r) % N - 1).Coprime N) : N.Prime := by
  by_contra hno
  have hℓ := Nat.minFac_prime hN.ne'
  have hall : rs.prod ∣ N.minFac - 1 := by
    have hprod : ∏ r ∈ rs.toFinset, r = rs.prod := by
      simpa using List.prod_toFinset (fun r => r) hnodup
    rw [← hprod]
    refine Finset.prod_primes_dvd _ (fun r hr => ?_) fun r hr => ?_
    · exact (hrs r (List.mem_toFinset.mp hr)).prime
    · have hr := List.mem_toFinset.mp hr
      exact dvd_sub_one (hrs r hr) (hdvd r hr) hℓ N.minFac_dvd hpow (hgcd r hr)
  have hle := Nat.le_of_dvd (Nat.sub_pos_of_lt hℓ.one_lt) hall
  have hsq := Nat.minFac_sq_le_self (Nat.zero_lt_of_lt hN) hno
  have : rs.prod ^ 2 ≤ N.minFac ^ 2 := Nat.pow_le_pow_left (hle.trans (Nat.sub_le _ _)) 2
  omega

/-! ## Certificates -/

/-- A number, its witness and its primes. -/
structure Entry where
  number : ℕ
  witness : ℕ
  primes : List ℕ

def Entry.power (e : Entry) (n : ℕ) : ℕ := powMod e.number e.witness (bits 256 n)

/-- Whether the entry proves its number prime if its primes are. -/
def Entry.check (e : Entry) : Bool :=
  1 < e.number && e.number < 2 ^ 256 && e.primes.Nodup && e.primes.all (· ∣ e.number - 1)
    && e.number < e.primes.prod ^ 2 && e.power (e.number - 1) == 1
    && e.primes.all fun r => Nat.gcd (e.power ((e.number - 1) / r) - 1) e.number == 1

theorem Entry.power_eq {e : Entry} (h : e.number < 2 ^ 256) {n : ℕ} (hn : n ≤ e.number) :
    e.power n = e.witness ^ n % e.number := by
  rw [Entry.power, powMod_eq, ofBits_bits, Nat.mod_eq_of_lt (hn.trans_lt h)]

theorem Entry.prime {e : Entry} (h : e.check = true) (hp : ∀ r ∈ e.primes, r.Prime) :
    e.number.Prime := by
  simp only [Entry.check, Bool.and_eq_true, decide_eq_true_eq, List.all_eq_true, beq_iff_eq] at h
  obtain ⟨⟨⟨⟨⟨⟨hN, hlt⟩, hnodup⟩, hdvd⟩, hsize⟩, hpow⟩, hgcd⟩ := h
  refine prime_of_witness hN hp hnodup hdvd hsize (a := e.witness) ?_ fun r hr => ?_
  · rw [e.power_eq hlt (Nat.sub_le _ _)] at hpow
    exact hpow.trans (Nat.mod_eq_of_lt hN).symm
  · have := hgcd r hr
    rwa [Entry.power_eq hlt ((Nat.div_le_self _ _).trans (Nat.sub_le _ _))] at this

/-- Whether every entry proves its number prime from these primes and the numbers before it. -/
def chain : List ℕ → List Entry → Bool
  | _, [] => true
  | known, e :: es => e.check && e.primes.all (known.contains ·) && chain (e.number :: known) es

theorem chain_prime : ∀ {known : List ℕ} {es : List Entry}, chain known es = true →
    (∀ r ∈ known, r.Prime) → ∀ e ∈ es, e.number.Prime
  | _, [], _, _, _, he => absurd he List.not_mem_nil
  | known, d :: es, h, hknown, e, he => by
    simp only [chain, Bool.and_eq_true, List.all_eq_true, List.contains_iff_mem] at h
    obtain ⟨⟨hcheck, hprimes⟩, hrest⟩ := h
    have hd := Entry.prime hcheck fun r hr => hknown r (hprimes r hr)
    rcases List.mem_cons.mp he with rfl | he
    · exact hd
    · refine chain_prime hrest (fun r hr => ?_) e he
      rcases List.mem_cons.mp hr with rfl | hr
      · exact hd
      · exact hknown r hr

end Pocklington
