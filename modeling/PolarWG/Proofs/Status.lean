import PolarWG.Status
import PolarWG.Proofs.GetBuffer
import PolarWG.Specimen

/-!
# The size of the status text

The loop ends as soon as the offset is past the buffer, so what is returned is the length of the
whole text only where every active peer's line begins in the buffer. What the buffer holds is right
all the same.
-/

namespace PolarWG

open Specimen

variable {longBits : ℕ} {now : ℤ} {s : WgSession}

/-! ## One call -/

/-- As much of `t` as fits in the buffer, and a NUL. -/
structure Written (old : Memory) (len : ℕ) (t : Text) (mem : Memory) : Prop where
  text : ∀ i (h : i < t.length), i < len - 1 → mem i = t[i]
  terminated : mem (min (len - 1) t.length) = nul
  outside : ∀ i, len ≤ i → mem i = old i

theorem written_append {old mem : Memory} {len : ℕ} {t : Text} (hroom : t.length < len)
    (htext : ∀ i (h : i < t.length), i < len - 1 → mem i = t[i])
    (hout : ∀ i, len ≤ i → mem i = old i) (u : Text) :
    Written old len (t ++ u) (vsnprintf mem t.length (len - t.length) u) := by
  have htake : (u.take (len - t.length - 1)).length = min (len - t.length - 1) u.length :=
    List.length_take
  have hfits : 0 < len - t.length := by omega
  refine ⟨fun i hi hlast => ?_, ?_, fun i hi => ?_⟩
  · rw [vsnprintf, if_pos hfits]
    rw [List.length_append] at hi
    by_cases hold : i < t.length
    · rw [Memory.write_outside (.inl hold), htext i hold hlast, List.getElem_append_left hold]
    · obtain ⟨j, rfl⟩ := Nat.exists_eq_add_of_le (show t.length ≤ i by omega)
      have hj : j < (u.take (len - t.length - 1)).length := by omega
      rw [Memory.write_inside _ _ _ _ (by rw [List.length_append]; omega),
        List.getElem_append_left hj, List.getElem_take, List.getElem_append_right (by omega)]
      congr 1
      omega
  · have hend : min (len - 1) (t ++ u).length
        = t.length + (u.take (len - t.length - 1)).length := by
      rw [List.length_append]
      omega
    rw [vsnprintf, if_pos hfits, hend, Memory.write_inside _ _ _ _ (by simp)]
    simp
  · rw [vsnprintf, if_pos hfits, Memory.write_outside (.inr (by
      rw [List.length_append, List.length_singleton]
      omega)), hout i hi]

/-- What is written of a text that is longer than the buffer is written of all that begins so. -/
theorem Written.longer {old mem : Memory} {len : ℕ} {t u : Text} (h : Written old len t mem)
    (hlong : len ≤ t.length) : Written old len (t ++ u) mem := by
  refine ⟨fun i hi hlast => ?_, ?_, h.outside⟩
  · rw [h.text i (by omega) hlast, List.getElem_append_left (by omega)]
  · have := h.terminated
    rw [min_eq_left (by omega)] at this
    rw [min_eq_left (by rw [List.length_append]; omega), this]

theorem Written.sized {old mem : Memory} {len off : ℕ} {t : Text} (h : Written old len t mem)
    (hoff : off = t.length) : Sized t old len (off, mem) :=
  ⟨hoff, h.outside, fun _ => Memory.read_eq_take h.text, fun _ => h.terminated⟩

/-! ## The loop -/

/-- The text up to the line of slot `i`. -/
def statusBefore (longBits : ℕ) (now : ℤ) (s : WgSession) (i : ℕ) : Text :=
  statusHeader s ++ (List.range i).flatMap (statusLine longBits now s)

def statusText (longBits : ℕ) (now : ℤ) (s : WgSession) : Text :=
  statusBefore longBits now s s.nPeers

theorem statusBefore_succ (longBits : ℕ) (now : ℤ) (s : WgSession) (i : ℕ) :
    statusBefore longBits now s (i + 1)
      = statusBefore longBits now s i ++ statusLine longBits now s i := by
  rw [statusBefore, statusBefore, List.range_succ, List.flatMap_append, List.flatMap_singleton,
    List.append_assoc]

theorem statusPeer_ne_nil (longBits : ℕ) (now : ℤ) (i : ℕ) (peer : WgsPeer) :
    statusPeer longBits now i peer ≠ [] := by
  unfold statusPeer
  exact List.append_ne_nil_of_right_ne_nil _ (List.cons_ne_nil _ _)

theorem statusBefore_lt (longBits : ℕ) (now : ℤ) {i j : ℕ} (hact : (s.peers i).active) (hij : i < j) :
    (statusBefore longBits now s i).length < (statusBefore longBits now s j).length := by
  have hpos := List.length_pos_of_ne_nil (statusPeer_ne_nil longBits now i (s.peers i))
  induction j, hij using Nat.le_induction with
  | base =>
    rw [statusBefore_succ, List.length_append, statusLine, if_pos hact]
    omega
  | succ j _ ih =>
    rw [statusBefore_succ, List.length_append]
    omega

theorem statusBefore_grows (longBits : ℕ) (now : ℤ) (s : WgSession) {i j : ℕ} (hij : i ≤ j) :
    statusBefore longBits now s i <+: statusBefore longBits now s j := by
  induction j, hij using Nat.le_induction with
  | base => exact List.prefix_refl _
  | succ j _ ih =>
    rw [statusBefore_succ]
    exact ih.trans (List.prefix_append _ _)

/-- The line of slot `i`, where it has one, begins before the end of the buffer. -/
def BeginsIn (longBits : ℕ) (now : ℤ) (s : WgSession) (bufLen i : ℕ) : Prop :=
  (s.peers i).active → ((statusBefore longBits now s i).length : ℤ) < signed 32 bufLen

/-- After the passes below `i`: all text up to there if each line began in the buffer, and else
what comes before the first line that does not. -/
inductive Passed (longBits : ℕ) (now : ℤ) (s : WgSession) (bufLen i : ℕ) : Text → Prop where
  | whole (hall : ∀ j < i, BeginsIn longBits now s bufLen j) :
    Passed longBits now s bufLen i (statusBefore longBits now s i)
  | part {j : ℕ} (hj : j < i) (hall : ∀ k < j, BeginsIn longBits now s bufLen k)
    (hout : ¬ BeginsIn longBits now s bufLen j) :
    Passed longBits now s bufLen i (statusBefore longBits now s j)

theorem signed_le (n : ℕ) : signed 32 n ≤ n := by
  rw [signed, Int.bmod_def]
  split <;> omega

theorem statusPass_passed {old : Memory} {bufLen i : ℕ} {b : Memory × ℕ} {t : Text}
    (hpassed : Passed longBits now s bufLen i t) (hoff : b.2 = t.length)
    (hw : Written old bufLen t b.1) :
    ∃ t', Passed longBits now s bufLen (i + 1) t'
      ∧ (statusPass longBits now s bufLen b i).2 = t'.length
      ∧ Written old bufLen t' (statusPass longBits now s bufLen b i).1 := by
  have hsucc := statusBefore_succ longBits now s i
  rcases hpassed with hall | ⟨hj, hall, hout⟩
  · by_cases hact : (s.peers i).active
    · by_cases hlt : (b.2 : ℤ) < signed 32 bufLen
      · rw [statusPass, if_pos hlt, if_pos hact]
        rw [statusLine, if_pos hact] at hsucc
        have hroom : (statusBefore longBits now s i).length < bufLen := by
          have := signed_le bufLen
          omega
        refine ⟨_, .whole fun j hj => ?_, ?_, ?_⟩
        · rcases Nat.lt_succ_iff_lt_or_eq.mp hj with hj | rfl
          · exact hall j hj
          · exact fun _ => hoff ▸ hlt
        · rw [statusAppend, hsucc, List.length_append, hoff]
        · rw [statusAppend, hsucc, hoff]
          exact written_append hroom hw.text hw.outside _
      · rw [statusPass, if_neg hlt]
        refine ⟨_, .part (Nat.lt_succ_self i) hall fun h => hlt ?_, hoff, hw⟩
        rw [hoff]
        exact h hact
    · have hsame : statusPass longBits now s bufLen b i = b := by
        rw [statusPass, if_neg hact, ite_self]
      rw [statusLine, if_neg hact, List.append_nil] at hsucc
      rw [hsame, ← hsucc] at *
      refine ⟨_, .whole fun j hj => ?_, hoff, hw⟩
      rcases Nat.lt_succ_iff_lt_or_eq.mp hj with hj | rfl
      · exact hall j hj
      · exact fun h => absurd h hact
  · next j =>
    have hend : ¬ (b.2 : ℤ) < signed 32 bufLen := fun hlt => hout fun _ => hoff ▸ hlt
    rw [statusPass, if_neg hend]
    exact ⟨_, .part (Nat.lt_succ_of_lt hj) hall hout, hoff, hw⟩

theorem status_passed (longBits : ℕ) (now : ℤ) (s : WgSession) (mem : Memory) {bufLen : ℕ}
    (hpos : 0 < bufLen) (n : ℕ) :
    ∃ t, Passed longBits now s bufLen n t
      ∧ ((List.range n).foldl (statusPass longBits now s bufLen)
        (statusAppend bufLen (mem, 0) (statusHeader s))).2 = t.length
      ∧ Written mem bufLen t ((List.range n).foldl (statusPass longBits now s bufLen)
        (statusAppend bufLen (mem, 0) (statusHeader s))).1 := by
  induction n with
  | zero =>
    refine ⟨_, .whole fun j hj => absurd hj (Nat.not_lt_zero j), ?_, ?_⟩
    · simp [statusAppend, statusBefore]
    · have hempty : ∀ i (h : i < ([] : Text).length), i < bufLen - 1 → mem i = ([] : Text)[i] :=
        fun i h => absurd h (Nat.not_lt_zero i)
      have := written_append (t := []) hpos hempty (fun _ _ => rfl) (statusHeader s)
      simpa [statusAppend, statusBefore] using this
  | succ n ih =>
    obtain ⟨t, hpassed, hoff, hw⟩ := ih
    rw [List.range_succ, List.foldl_append, List.foldl_cons, List.foldl_nil]
    exact statusPass_passed hpassed hoff hw

/-! ## The contract -/

theorem Passed.length {bufLen i : ℕ} {t : Text} (h : Passed longBits now s bufLen i t) :
    t.length = (statusBefore longBits now s i).length
      ↔ ∀ j < i, BeginsIn longBits now s bufLen j := by
  rcases h with hall | ⟨hj, hall, hout⟩
  · exact iff_of_true rfl hall
  · have hlt := statusBefore_lt longBits now (Classical.not_imp.mp hout).1 hj
    exact iff_of_false hlt.ne fun h => hout (h _ hj)

/-- The text of a call with any buffer, against the whole text. -/
theorem status_sized_iff (longBits : ℕ) (now : ℤ) (s : WgSession) (mem : Memory) {bufLen : ℕ}
    (hpos : 0 < bufLen) :
    Sized (statusText longBits now s) mem bufLen (wgSessionStatus longBits now s mem bufLen)
      ↔ ∀ i < s.nPeers, BeginsIn longBits now s bufLen i := by
  obtain ⟨t, hpassed, hoff, hw⟩ := status_passed longBits now s mem hpos s.nPeers
  rw [wgSessionStatus, if_neg (by omega)]
  constructor
  · intro h
    exact hpassed.length.mp (hoff.symm.trans h.returned)
  · intro hall
    rcases hpassed with - | ⟨hj, -, hout⟩
    · exact hw.sized hoff
    · exact absurd (hall _ hj) hout

/-- What the buffer holds is right even where the length returned is not. -/
theorem status_written (longBits : ℕ) (now : ℤ) (s : WgSession) (mem : Memory) {bufLen : ℕ}
    (hpos : 0 < bufLen) (hint : bufLen < 2 ^ 31) :
    Written mem bufLen (statusText longBits now s)
      (wgSessionStatus longBits now s mem bufLen).2 := by
  obtain ⟨t, hpassed, -, hw⟩ := status_passed longBits now s mem hpos s.nPeers
  rw [wgSessionStatus, if_neg (by omega)]
  rcases hpassed with hall | ⟨hj, -, hout⟩
  · exact hw
  next j =>
    obtain ⟨u, hu⟩ := statusBefore_grows longBits now s hj.le
    rw [statusText, ← hu]
    have hlong := (Classical.not_imp.mp hout).2
    have hsigned : signed 32 bufLen = bufLen := by
      rw [signed, Int.bmod_def]
      split <;> omega
    exact hw.longer (by omega)

theorem length_statusHeader (hpeers : s.nPeers ≤ wgsMaxPeers) (hport : s.listenPort < 2 ^ 16) :
    0 < (statusHeader s).length ∧ (statusHeader s).length ≤ 64 := by
  have h1 : (fmtUnsigned s.nPeers).length ≤ 1 :=
    (Nat.length_toDigits_le_iff (by decide) (by decide)).mpr (hpeers.trans_lt (by decide))
  have h2 : (fmtUnsigned s.listenPort).length ≤ 5 :=
    (Nat.length_toDigits_le_iff (by decide) (by decide)).mpr (by omega)
  have hlen : (statusHeader s).length
      = 7 + (fmtUnsigned s.nPeers).length + 15 + (fmtUnsigned s.listenPort).length + 1 := by
    unfold statusHeader
    rw [List.length_append, List.length_append, List.length_append, List.length_append]
    rfl
  generalize (fmtUnsigned s.nPeers).length = m at *
  generalize (fmtUnsigned s.listenPort).length = n at *
  omega

theorem statusBefore_header (longBits : ℕ) (now : ℤ) {i : ℕ} (h : ∀ k < i, ¬ (s.peers k).active) :
    statusBefore longBits now s i = statusHeader s := by
  have hnil : (List.range i).flatMap (statusLine longBits now s) = [] :=
    List.flatMap_eq_nil_iff.mpr fun k hk => if_neg (h k (List.mem_range.mp hk))
  rw [statusBefore, hnil, List.append_nil]

/-- The least buffer gets no line of a peer, and the next does not get all the text of one that
does. -/
theorem returned_differ (longBits : ℕ) (now : ℤ) {i : ℕ} (hi : i < s.nPeers) (hact : (s.peers i).active)
    (hpos : 0 < (statusHeader s).length) (hsmall : (statusHeader s).length ≤ 64) (mem : Memory) :
    (wgSessionStatus longBits now s mem 1).1
      < (wgSessionStatus longBits now s mem ((statusHeader s).length + 1)).1 := by
  have hex : ∃ k, k < s.nPeers ∧ (s.peers k).active := ⟨i, hi, hact⟩
  obtain ⟨hj, hactj⟩ := Nat.find_spec hex
  have hbelow : ∀ k < Nat.find hex, ¬ (s.peers k).active := fun k hk h =>
    Nat.find_min hex hk ⟨hk.trans hj, h⟩
  generalize Nat.find hex = j at hj hactj hbelow
  have hhead := statusBefore_header longBits now hbelow
  obtain ⟨t, hpassed, hoff, -⟩ := status_passed longBits now s mem Nat.one_pos s.nPeers
  obtain ⟨t', hpassed', hoff', -⟩ :=
    status_passed longBits now s mem (statusHeader s).length.succ_pos s.nPeers
  have hout : ¬ BeginsIn longBits now s 1 j := fun h => by
    have := h hactj
    rw [hhead, show signed 32 ((1 : ℕ) : ℤ) = 1 from rfl] at this
    omega
  have hin : BeginsIn longBits now s ((statusHeader s).length + 1) j := fun _ => by
    rw [hhead, signed, Int.bmod_def]
    split <;> omega
  have hle : t.length ≤ (statusHeader s).length := by
    rcases hpassed with hall | ⟨-, hall, -⟩
    · exact absurd (hall j hj) hout
    next k =>
      have hkj : k ≤ j := Nat.le_of_not_lt fun hjk => hout (hall j hjk)
      exact hhead ▸ (statusBefore_grows longBits now s hkj).length_le
  have hlt : (statusHeader s).length < t'.length := by
    rw [← hhead]
    rcases hpassed' with - | ⟨hk, -, houtk⟩
    · exact statusBefore_lt longBits now hactj hj
    next k =>
      refine statusBefore_lt longBits now hactj (lt_of_le_of_ne (Nat.le_of_not_lt fun hkj => ?_) ?_)
      · exact hbelow k hkj (Classical.not_imp.mp houtk).1
      · rintro rfl
        exact houtk hin
  rw [wgSessionStatus, if_neg Nat.one_ne_zero, wgSessionStatus, if_neg (Nat.succ_ne_zero _)]
  calc _ = t.length := hoff
    _ < t'.length := hle.trans_lt hlt
    _ = _ := hoff'.symm

/-- A session has one text for buffers of every size exactly if it has no active peer, and the
length of its text is returned exactly where every line begins in the buffer. The array of peers
and the port's type bound what the first line says. -/
theorem status_sizing (longBits : ℕ) (now : ℤ) (s : WgSession) (hpeers : s.nPeers ≤ wgsMaxPeers)
    (hport : s.listenPort < 2 ^ 16) :
    ((∃ T, ∀ mem bufLen, 0 < bufLen → Sized T mem bufLen
        (wgSessionStatus longBits now s mem bufLen)) ↔ ∀ i < s.nPeers, ¬ (s.peers i).active)
      ∧ ∀ mem bufLen, 0 < bufLen →
        (Sized (statusText longBits now s) mem bufLen (wgSessionStatus longBits now s mem bufLen)
          ↔ ∀ i < s.nPeers, BeginsIn longBits now s bufLen i)
        ∧ (bufLen < 2 ^ 31 → Written mem bufLen (statusText longBits now s)
            (wgSessionStatus longBits now s mem bufLen).2) := by
  refine ⟨⟨fun ⟨T, hT⟩ i hi hact => ?_, fun hnone => ⟨statusText longBits now s,
    fun mem bufLen hpos => (status_sized_iff longBits now s mem hpos).mpr
      fun i hi hact => absurd hact (hnone i hi)⟩⟩,
    fun mem bufLen hpos => ⟨status_sized_iff longBits now s mem hpos,
      status_written longBits now s mem hpos⟩⟩
  obtain ⟨hlen, hsmall⟩ := length_statusHeader hpeers hport
  have hlt := returned_differ longBits now hi hact hlen hsmall fun _ => nul
  rw [(hT _ _ Nat.one_pos).returned, (hT _ _ (Nat.succ_pos _)).returned] at hlt
  exact lt_irrefl _ hlt

theorem status_sizing_sessionA : ∃ s, sessionA = some s ∧
    ¬ (∃ T, ∀ mem bufLen, 0 < bufLen → Sized T mem bufLen (wgSessionStatus 64 100 s mem bufLen))
    ∧ Sized (statusText 64 100 s) (fun _ => nul) 64 (wgSessionStatus 64 100 s (fun _ => nul) 64) := by
  have hrun : sessionA.any (fun s => decide (s.nPeers = 1 ∧ (s.peers 0).active ∧ s.listenPort = 0
      ∧ (statusHeader s).length < 64)) = true := by
    decide +kernel
  obtain ⟨s, hs, h⟩ := (Option.any_eq_true _ _).mp hrun
  obtain ⟨hn, hact, hport, hlen⟩ := of_decide_eq_true h
  obtain ⟨hiff, hsized⟩ := status_sizing 64 100 s (by rw [hn]; decide) (by rw [hport]; decide)
  refine ⟨s, hs, fun hT => hiff.mp hT 0 (by omega) hact,
    (hsized _ 64 (by decide)).1.mpr fun i hi _ => ?_⟩
  obtain rfl : i = 0 := by omega
  rw [statusBefore, List.range_zero, List.flatMap_nil, List.append_nil]
  exact (Nat.cast_lt.mpr hlen).trans_eq rfl

/-- With one peer, a buffer of 16 bytes gets the length of the first line, one of 256 that of the
whole text. -/
theorem status_not_sized : ¬ ∀ s, ReachableIf specimen (fun _ _ => True) s →
    ∃ T, ∀ mem bufLen, 0 < bufLen → Sized T mem bufLen (wgSessionStatus 64 100 s mem bufLen) := by
  intro hall
  have hrun : sessionA.any (fun s => decide ((wgSessionStatus 64 100 s (fun _ => nul) 16).1
      ≠ (wgSessionStatus 64 100 s (fun _ => nul) 256).1)) = true := by
    decide +kernel
  obtain ⟨s, hs, h⟩ := (Option.any_eq_true _ _).mp hrun
  obtain ⟨T, hT⟩ := hall s ⟨s, [], ⟨_, _, hs⟩, .nil s⟩
  exact of_decide_eq_true h
    ((hT _ 16 (by decide)).returned.trans (hT _ 256 (by decide)).returned.symm)

end PolarWG
