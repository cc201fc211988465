import PolarWG.NonceWindow
import PolarWG.Lib.SlidingWindow

/-!
# Every counter once

The array of longs is a ring of bits over the counters, counted from one. Where a long has 64 bits
the numbers of its blocks are exact, and the check is that of a sliding window. Where it has 32 the
numbers are cut, which clears too few blocks after a jump of `2 ^ 37` counters: new counters are
lost then, but no counter is found new twice.
-/

namespace PolarWG

open SlidingWindow

variable {m : Longs}

/-! ## Longs -/

theorem Longs.counterBits_pos (m : Longs) : 0 < m.counterBits := Nat.two_pow_pos _

theorem Longs.backtrackLen_pos (m : Longs) : 0 < m.backtrackLen := by cases m <;> decide

/-- The long of a number is its block, whether or not the block's number is cut. -/
theorem Longs.index_eq (m : Longs) (x : ℕ) :
    m.ulong x &&& (m.backtrackLen - 1) = x % m.backtrackLen := by
  cases m
  · show x % 2 ^ 64 &&& 2 ^ 7 - 1 = x % 2 ^ 7
    rw [Nat.and_two_pow_sub_one_eq_mod]
    omega
  · show x % 2 ^ 32 &&& 2 ^ 8 - 1 = x % 2 ^ 8
    rw [Nat.and_two_pow_sub_one_eq_mod]
    omega

theorem Longs.shift_eq (m : Longs) (x : ℕ) : x >>> m.counterOrder = x / m.counterBits :=
  Nat.shiftRight_eq_div_pow x _

theorem Longs.bit_eq (m : Longs) (x k : ℕ) :
    (BitVec.ofNat m.counterBits (1 <<< (x &&& (m.counterBits - 1)))).getLsbD k
      = decide (k = x % m.counterBits) := by
  have hand : x &&& (m.counterBits - 1) = x % m.counterBits := Nat.and_two_pow_sub_one_eq_mod x _
  have hlt := Nat.mod_lt x m.counterBits_pos
  rw [hand, BitVec.getLsbD_ofNat, Nat.one_shiftLeft, Nat.testBit_two_pow]
  by_cases hk : k = x % m.counterBits
  · simp [hk, hlt]
  · simp [hk, Ne.symm hk]

/-- How many longs are cleared. -/
def Longs.top (m : Longs) (last c : ℕ) : ℕ :=
  min (m.ulong (m.ulong (c / m.counterBits)
    + (2 ^ m.counterBits - m.ulong (last / m.counterBits)))) m.backtrackLen

theorem Longs.top_le (m : Longs) {last c : ℕ} (h : last < c) :
    m.top last c ≤ c / m.counterBits - last / m.counterBits := by
  have hle := Nat.div_le_div_right (c := m.counterBits) h.le
  cases m <;> simp only [Longs.top, Longs.ulong, Longs.counterBits, Longs.counterOrder] at hle ⊢ <;>
    omega

/-- The counters whose block's number is not cut. -/
def Longs.Whole (m : Longs) (c : ℕ) : Prop := c / m.counterBits < 2 ^ m.counterBits

theorem Longs.top_eq (m : Longs) {last c : ℕ} (h : last < c) (hc : m.Whole c) :
    m.top last c = min (c / m.counterBits - last / m.counterBits) m.backtrackLen := by
  have hle := Nat.div_le_div_right (c := m.counterBits) h.le
  cases m <;>
    simp only [Longs.top, Longs.ulong, Longs.counterBits, Longs.counterOrder, Longs.Whole] at * <;>
    omega

/-! ## The ring of an array -/

def NonceWindow.ring (kp : NonceWindow m) : Ring where
  last := kp.kpNonceRecv
  bit j k := (kp.kpBacktrack j).getLsbD k

theorem clearBacktrack_bit (backtrack : ℕ → BitVec m.counterBits) (cur j k : ℕ) : ∀ top : ℕ,
    (clearBacktrack m backtrack cur top j).getLsbD k ↔ (backtrack j).getLsbD k
      ∧ ¬ ∃ i, 1 ≤ i ∧ i ≤ top ∧ (i + cur) % m.backtrackLen = j
  | 0 => by
    refine ⟨fun h => ⟨h, ?_⟩, And.left⟩
    rintro ⟨i, h1, h2, -⟩
    omega
  | top + 1 => by
    rw [clearBacktrack, m.index_eq, Function.update_apply]
    split
    · next hj =>
      refine ⟨fun h => by simp at h, fun h => ?_⟩
      exact absurd ⟨top + 1, by omega, le_rfl, hj.symm⟩ h.2
    · next hj =>
      rw [clearBacktrack_bit backtrack cur j k top]
      refine and_congr_right fun _ => not_congr ⟨?_, ?_⟩
      · rintro ⟨i, h1, h2, h3⟩
        exact ⟨i, h1, by omega, h3⟩
      · rintro ⟨i, h1, h2, h3⟩
        rcases Nat.lt_or_ge top i with hlt | hge
        · obtain rfl : i = top + 1 := by omega
          exact absurd h3.symm hj
        · exact ⟨i, h1, hge, h3⟩

theorem ring_clear (kp : NonceWindow m) (c top : ℕ) :
    (⟨c, clearBacktrack m kp.kpBacktrack (m.ulong (kp.kpNonceRecv / m.counterBits)) top⟩ :
      NonceWindow m).ring = kp.ring.advance m.counterBits m.backtrackLen top c := by
  have hmod : ∀ i, (i + m.ulong (kp.kpNonceRecv / m.counterBits)) % m.backtrackLen
      = (i + kp.kpNonceRecv / m.counterBits) % m.backtrackLen := by
    intro i
    cases m <;> simp only [Longs.ulong, Longs.counterBits, Longs.counterOrder, Longs.backtrackLen,
      Longs.counterBitsTotal] <;> omega
  unfold NonceWindow.ring Ring.advance Ring.Passed
  congr 1
  funext j k
  rw [eq_iff_iff, clearBacktrack_bit]
  simp only [hmod]

theorem ring_mark (kp : NonceWindow m) (c : ℕ) :
    (⟨kp.kpNonceRecv, Function.update kp.kpBacktrack (c / m.counterBits % m.backtrackLen)
      (kp.kpBacktrack (c / m.counterBits % m.backtrackLen)
        ||| BitVec.ofNat m.counterBits (1 <<< (c &&& (m.counterBits - 1))))⟩ : NonceWindow m).ring
      = kp.ring.mark m.counterBits m.backtrackLen c := by
  unfold NonceWindow.ring Ring.mark
  congr 1
  funext j k
  simp only [Function.update_apply]
  split
  · next h => simp [h, m.bit_eq]
  · next h => simp [h]

theorem backtrack_and_ne_zero (kp : NonceWindow m) (c : ℕ) :
    kp.kpBacktrack (c / m.counterBits % m.backtrackLen)
        &&& BitVec.ofNat m.counterBits (1 <<< (c &&& (m.counterBits - 1))) ≠ 0
      ↔ kp.ring.at m.counterBits m.backtrackLen c := by
  have hlt := Nat.mod_lt c m.counterBits_pos
  constructor
  · intro h
    by_contra hbit
    refine h (BitVec.eq_of_getLsbD_eq fun k hk => ?_)
    rw [BitVec.getLsbD_and, m.bit_eq]
    by_cases hk : k = c % m.counterBits
    · simp only [Ring.at, NonceWindow.ring, Bool.not_eq_true] at hbit
      simp [hk, hbit]
    · simp [hk]
  · intro hbit h
    have hand := congrArg (fun x => BitVec.getLsbD x (c % m.counterBits)) h
    simp only [BitVec.getLsbD_and, m.bit_eq, decide_true, Bool.and_true] at hand
    simp only [Ring.at, NonceWindow.ring] at hbit
    simp [hbit] at hand

/-! ## One check -/

/-- What a check can do: the counter is refused at once, or the ring advances where it has to and
the counter's bit decides. -/
theorem nonceCheck_cases (kp : NonceWindow m) (recv : ℕ) :
    (m.rejectAfter ≤ recv ∨ m.rejectAfter + 1 ≤ kp.kpNonceRecv
        ∨ recv + 1 + m.windowSize < kp.kpNonceRecv) ∧ noiseKeypairNonceCheck kp recv = (kp, false)
      ∨ recv < m.rejectAfter ∧ kp.kpNonceRecv ≤ recv + 1 + m.windowSize ∧ ∃ kp₁ : NonceWindow m,
        (kp.kpNonceRecv < recv + 1 ∧ kp₁.ring = kp.ring.advance m.counterBits m.backtrackLen
            (m.top kp.kpNonceRecv (recv + 1)) (recv + 1)
          ∨ recv + 1 ≤ kp.kpNonceRecv ∧ kp₁ = kp)
        ∧ (kp₁.ring.at m.counterBits m.backtrackLen (recv + 1)
            ∧ noiseKeypairNonceCheck kp recv = (kp₁, false)
          ∨ ¬ kp₁.ring.at m.counterBits m.backtrackLen (recv + 1) ∧ ∃ kp₂ : NonceWindow m,
            noiseKeypairNonceCheck kp recv = (kp₂, true)
              ∧ kp₂.ring = kp₁.ring.mark m.counterBits m.backtrackLen (recv + 1)) := by
  by_cases h1 : m.rejectAfter + 1 ≤ kp.kpNonceRecv ∨ m.rejectAfter ≤ recv
  · exact .inl ⟨by omega, by rw [noiseKeypairNonceCheck, if_pos h1]⟩
  have hsum : (recv + 1 + m.windowSize) % 2 ^ 64 = recv + 1 + m.windowSize := by
    have : m.rejectAfter + m.windowSize + 2 = 2 ^ 64 := by cases m <;> rfl
    exact Nat.mod_eq_of_lt (by omega)
  by_cases h2 : recv + 1 + m.windowSize < kp.kpNonceRecv
  · exact .inl ⟨by omega, by simp only [noiseKeypairNonceCheck, if_neg h1, hsum, if_pos h2]⟩
  refine .inr ⟨by omega, by omega, ?_⟩
  simp only [noiseKeypairNonceCheck, if_neg h1, hsum, if_neg h2, m.shift_eq, m.index_eq]
  by_cases h3 : kp.kpNonceRecv < recv + 1
  · simp only [if_pos h3]
    let kp₁ : NonceWindow m := ⟨recv + 1, clearBacktrack m kp.kpBacktrack
      (m.ulong (kp.kpNonceRecv / m.counterBits)) (m.top kp.kpNonceRecv (recv + 1))⟩
    refine ⟨kp₁, .inl ⟨h3, ring_clear kp (recv + 1) _⟩, ?_⟩
    by_cases hbit : kp₁.ring.at m.counterBits m.backtrackLen (recv + 1)
    · exact .inl ⟨hbit, if_pos ((backtrack_and_ne_zero kp₁ _).mpr hbit)⟩
    · exact .inr ⟨hbit, _, if_neg (mt (backtrack_and_ne_zero kp₁ _).mp hbit),
        ring_mark kp₁ (recv + 1)⟩
  · simp only [if_neg h3]
    refine ⟨kp, .inr ⟨by omega, rfl⟩, ?_⟩
    by_cases hbit : kp.ring.at m.counterBits m.backtrackLen (recv + 1)
    · exact .inl ⟨hbit, if_pos ((backtrack_and_ne_zero _ _).mpr hbit)⟩
    · exact .inr ⟨hbit, _, if_neg (mt (backtrack_and_ne_zero _ _).mp hbit), ring_mark _ _⟩

/-- The counters found new, as the ring has them. -/
def NonceWindow.Holds (kp : NonceWindow m) (found : List ℕ) : Prop :=
  Covers m.counterBits m.backtrackLen kp.ring (found.map (· + 1))

theorem Longs.windowSize_eq (m : Longs) : m.windowSize = (m.backtrackLen - 1) * m.counterBits := by
  cases m <;> rfl

theorem succ_mem {recv : ℕ} {found : List ℕ} : recv + 1 ∈ found.map (· + 1) ↔ recv ∈ found := by
  simp

theorem nonceCheck_holds {kp kp' : NonceWindow m} {found : List ℕ} (h : kp.Holds found) {recv : ℕ}
    {new : Bool} (hc : noiseKeypairNonceCheck kp recv = (kp', new)) :
    kp'.Holds (if new then recv :: found else found) ∧ (new → recv ∉ found) := by
  rcases nonceCheck_cases kp recv with ⟨-, heq⟩ | ⟨-, hwin, kp₁, hmove, hbit⟩
  · obtain ⟨rfl, rfl⟩ := Prod.mk.inj (hc ▸ heq)
    exact ⟨h, by simp⟩
  have h₁ : kp₁.Holds found := by
    rcases hmove with ⟨hlt, hring⟩ | ⟨-, rfl⟩
    · rw [NonceWindow.Holds, hring]
      exact Covers.advance h hlt (m.top_le hlt)
    · exact h
  have hle : recv + 1 ≤ kp₁.ring.last := by
    rcases hmove with ⟨-, hring⟩ | ⟨hle, rfl⟩
    · exact le_of_eq (by rw [hring]; rfl)
    · exact hle
  have hlast : kp₁.ring.last ≤ recv + 1 + m.windowSize := by
    rcases hmove with ⟨-, hring⟩ | ⟨-, rfl⟩
    · rw [hring]
      exact Nat.le_add_right _ _
    · exact hwin
  have hlive := Ring.live_of_window m.counterBits_pos m.backtrackLen_pos hle
    (m.windowSize_eq ▸ hlast)
  rcases hbit with ⟨-, heq⟩ | ⟨hbit, kp₂, heq, hring⟩
  · obtain ⟨rfl, rfl⟩ := Prod.mk.inj (hc ▸ heq)
    exact ⟨h₁, by simp⟩
  · obtain ⟨rfl, rfl⟩ := Prod.mk.inj (hc ▸ heq)
    refine ⟨?_, fun _ hmem => hbit (h₁.marked _ (succ_mem.mpr hmem) hlive)⟩
    rw [NonceWindow.Holds, hring]
    exact h₁.mark hle

/-! ## Runs -/

/-- The check of a sliding window. -/
def newCounter (m : Longs) (found : List ℕ) (recv : ℕ) : Bool :=
  recv < m.rejectAfter ∧ Fits m.windowSize found recv

/-- What the exact check needs besides: the bits are those of the counters found, and the greatest
of them is the last. -/
structure NonceWindow.Tells (kp : NonceWindow m) (found : List ℕ) : Prop where
  exact : Exact m.counterBits m.backtrackLen kp.ring (found.map (· + 1))
  last : kp.kpNonceRecv = 0 ∨ kp.kpNonceRecv ∈ found.map (· + 1)
  below : ∀ a ∈ found, a < m.rejectAfter

theorem nonceCheck_tells {kp kp' : NonceWindow m} {found : List ℕ} (h : kp.Holds found)
    (ht : kp.Tells found) {recv : ℕ} (hw : m.Whole (recv + 1)) {new : Bool}
    (hc : noiseKeypairNonceCheck kp recv = (kp', new)) :
    new = newCounter m found recv ∧ kp'.Tells (if new then recv :: found else found) := by
  have hlast : kp.kpNonceRecv ≤ m.rejectAfter := by
    rcases ht.last with h0 | hmem
    · omega
    · obtain ⟨a, ha, heq⟩ := List.mem_map.mp hmem
      have := ht.below a ha
      omega
  rcases nonceCheck_cases kp recv with ⟨hbad, heq⟩ | ⟨hlow, hwin, kp₁, hmove, hbit⟩
  · obtain ⟨rfl, rfl⟩ := Prod.mk.inj (hc ▸ heq)
    refine ⟨?_, ht⟩
    symm
    rw [newCounter, decide_eq_false_iff_not]
    rintro ⟨hlow, -, hfit⟩
    rcases hbad with hbad | hbad | hbad
    · omega
    · omega
    · -- the greatest counter found is too far ahead
      rcases ht.last with h0 | hmem
      · omega
      · obtain ⟨a, ha, heq⟩ := List.mem_map.mp hmem
        have := hfit a ha
        omega
  have hx₁ : Exact m.counterBits m.backtrackLen kp₁.ring (found.map (· + 1)) := by
    rcases hmove with ⟨hlt, hring⟩ | ⟨-, rfl⟩
    · rw [hring]
      exact ht.exact.advance m.backtrackLen_pos hlt (m.top_eq hlt hw)
    · exact ht.exact
  have hle : recv + 1 ≤ kp₁.ring.last := by
    rcases hmove with ⟨-, hring⟩ | ⟨hle, rfl⟩
    · exact le_of_eq (by rw [hring]; rfl)
    · exact hle
  have hlast₁ : kp₁.ring.last ≤ recv + 1 + m.windowSize := by
    rcases hmove with ⟨-, hring⟩ | ⟨-, rfl⟩
    · rw [hring]
      exact Nat.le_add_right _ _
    · exact hwin
  have hlive := Ring.live_of_window m.counterBits_pos m.backtrackLen_pos hle
    (m.windowSize_eq ▸ hlast₁)
  have hfit : ∀ a ∈ found, a ≤ recv + m.windowSize := by
    intro a ha
    have hal : a + 1 ≤ kp.kpNonceRecv := h.le _ (succ_mem.mpr ha)
    omega
  rcases hbit with ⟨hbit, heq⟩ | ⟨hbit, kp₂, heq, hring⟩
  · obtain ⟨rfl, rfl⟩ := Prod.mk.inj (hc ▸ heq)
    have hmem : recv ∈ found := succ_mem.mp (hx₁ _ hlive hbit)
    refine ⟨by simp [newCounter, Fits, hmem], ?_⟩
    rcases hmove with ⟨hlt, -⟩ | ⟨-, rfl⟩
    · have hal : recv + 1 ≤ kp.kpNonceRecv := h.le _ (succ_mem.mpr hmem)
      omega
    · exact ht
  · obtain ⟨rfl, rfl⟩ := Prod.mk.inj (hc ▸ heq)
    have hmem : recv ∉ found := (nonceCheck_holds h hc).2 rfl
    refine ⟨(decide_eq_true ⟨hlow, hmem, hfit⟩).symm, ?_, ?_, ?_⟩
    · rw [hring]
      exact hx₁.mark hlive
    · have heq₂ : kp'.kpNonceRecv = kp₁.kpNonceRecv := congrArg Ring.last hring
      rw [heq₂, if_pos rfl, List.map_cons]
      rcases hmove with ⟨-, hring₁⟩ | ⟨-, rfl⟩
      · have heq₁ : kp₁.kpNonceRecv = recv + 1 := congrArg Ring.last hring₁
        exact .inr (by rw [heq₁]; exact List.mem_cons_self)
      · rcases ht.last with h0 | hmem
        · exact .inl h0
        · exact .inr (List.mem_cons_of_mem _ hmem)
    · intro a ha
      rcases List.mem_cons.mp ha with rfl | ha
      · exact hlow
      · exact ht.below a ha

theorem blank_holds (m : Longs) : (NonceWindow.blank m).Holds [] :=
  ⟨fun _ h => absurd h List.not_mem_nil, fun _ h => absurd h List.not_mem_nil⟩

theorem blank_tells (m : Longs) : (NonceWindow.blank m).Tells [] where
  exact a _ hbit := by simp [Ring.at, NonceWindow.ring, NonceWindow.blank] at hbit
  last := .inl rfl
  below _ h := absurd h List.not_mem_nil

theorem nonceChecks_nodup : ∀ {recvs found : List ℕ} {kp : NonceWindow m}, kp.Holds found →
    found.Nodup → (nonceChecks kp found recvs).Nodup
  | [], _, _, _, hn => hn
  | recv :: recvs, found, kp, h, hn => by
    rw [nonceChecks]
    have hc : noiseKeypairNonceCheck kp recv = (_, _) := rfl
    obtain ⟨hkp, hnew⟩ := nonceCheck_holds h hc
    refine nonceChecks_nodup hkp ?_
    split
    · next hd => exact List.nodup_cons.mpr ⟨hnew hd, hn⟩
    · exact hn

theorem nonceChecks_eq_taken : ∀ {recvs found : List ℕ} {kp : NonceWindow m}, kp.Holds found →
    kp.Tells found → (∀ recv ∈ recvs, m.Whole (recv + 1)) →
    nonceChecks kp found recvs = taken (newCounter m) found recvs
  | [], _, _, _, _, _ => rfl
  | recv :: recvs, found, kp, h, ht, hw => by
    rw [nonceChecks, taken]
    have hc : noiseKeypairNonceCheck kp recv = (_, _) := rfl
    obtain ⟨hkp, -⟩ := nonceCheck_holds h hc
    obtain ⟨hnew, htell⟩ := nonceCheck_tells h ht (hw recv List.mem_cons_self) hc
    rw [← hnew]
    exact nonceChecks_eq_taken hkp htell fun c hc => hw c (List.mem_cons_of_mem recv hc)

/-- No counter is found new twice. With longs of 64 bits, or as long as no counter reaches
`2 ^ 37 - 1`, a counter is found new exactly if it is below the limit, has not been found before and
is no further behind one that has than the window is wide. -/
theorem nonce_window (m : Longs) (recvs : List ℕ) :
    (nonceChecks (.blank m) [] recvs).Nodup
      ∧ ((m = .lp64 ∧ ∀ recv ∈ recvs, recv < 2 ^ 64) ∨ (∀ recv ∈ recvs, recv + 1 < 2 ^ 37) →
        nonceChecks (.blank m) [] recvs = taken (newCounter m) [] recvs) := by
  refine ⟨nonceChecks_nodup (blank_holds m) .nil, fun hw => ?_⟩
  refine nonceChecks_eq_taken (blank_holds m) (blank_tells m) fun recv hr => ?_
  rcases hw with ⟨rfl, hw⟩ | hw
  · have := hw recv hr
    simp only [Longs.Whole, Longs.counterBits, Longs.counterOrder]
    omega
  · have := hw recv hr
    cases m <;> simp only [Longs.Whole, Longs.counterBits, Longs.counterOrder] <;> omega

theorem nonce_window_late : nonceChecks (.blank .lp64) [] [3, 1, 3, 9000, 2] = [9000, 1, 3] :=
  ((nonce_window .lp64 [3, 1, 3, 9000, 2]).2 (.inl ⟨rfl, by decide⟩)).trans (by decide)

/-- The number of the block is cut to the one of a block that has not been cleared. -/
example : nonceChecks (.blank .ilp32) [] [40, 2 ^ 37 + 40] = [40] := by decide +kernel

end PolarWG
