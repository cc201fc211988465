import PolarWG.Lib.Trim
import PolarWG.PublicIP
import PolarWG.Proofs.Convergence

/-!
# What the cache of the public address promises

Once an address is known it stays known, a change is reported when a round finds it, and rounds
are `retrySec` apart. As long as none is known every call is a round.
-/

namespace PolarWG

variable {probe : PublicIPProbe} {s s' : Probing} {c : ProbeCall} {result : PublicIPResult}

/-! ## The file -/

/-- What no trimming cuts off and no split splits. -/
def Visible (t : Text) : Prop := ∀ c ∈ t, 33 ≤ c.toNat ∧ c.toNat < 127

theorem Visible.not_white {t : Text} (h : Visible t) {c : Char} (hc : c ∈ t) :
    ¬ isWhitespaceOrNewline c := by
  have hb := h c hc
  have hsep := not_isWhitespaces_of_bounds ⟨hb.1, by omega⟩
  simp only [isWhitespaceOrNewline, Bool.decide_or, Bool.decide_and, Bool.or_eq_true,
    Bool.and_eq_true, decide_eq_true_eq, not_or]
  exact ⟨by simpa using hsep, by omega⟩

theorem Visible.no_blank {t : Text} (h : Visible t) : ' ' ∉ t := fun hc =>
  absurd (h ' ' hc).1 (by decide)

theorem Visible.rdropWhile {t : Text} (h : Visible t) : t.rdropWhile isWhitespaceOrNewline = t :=
  List.rdropWhile_eq_self_iff.mpr fun hne => h.not_white (List.getLast_mem hne)

theorem isWhitespaceOrNewline_blank {c : Char} (h : c = ' ' ∨ c = '\n') :
    isWhitespaceOrNewline c = true := by
  rcases h with rfl | rfl <;> rfl

theorem visible_fmtUnsigned (n : ℕ) : Visible (fmtUnsigned n) := fun c hc => by
  have := isDigit_bounds (isDigit_of_mem_fmtUnsigned hc)
  omega

theorem visible_fmtSigned (n : ℤ) : Visible (fmtSigned n) := by
  rcases n with n | n
  · exact visible_fmtUnsigned n
  · intro c hc
    rcases List.mem_cons.mp hc with rfl | hc
    · decide
    · exact visible_fmtUnsigned _ c hc

/-- What is no separator is in a part. -/
theorem exists_mem_splitOn {sep c : Char} (hne : c ≠ sep) :
    ∀ {t : Text}, c ∈ t → ∃ p ∈ t.splitOn sep, c ∈ p
  | d :: t, hc => by
    rw [List.splitOn_cons_eq_if_modifyHead]
    split
    · next hd =>
      rcases List.mem_cons.mp hc with rfl | hc
      · exact absurd (by simpa using hd) hne
      · obtain ⟨p, hp, hcp⟩ := exists_mem_splitOn hne hc
        exact ⟨p, List.mem_cons_of_mem _ hp, hcp⟩
    · rcases hs : t.splitOn sep with _ | ⟨m, ms⟩
      · exact absurd hs (List.splitOn_ne_nil _ _)
      rw [List.modifyHead_cons]
      rcases List.mem_cons.mp hc with rfl | hc
      · exact ⟨_, List.mem_cons_self, List.mem_cons_self⟩
      · obtain ⟨p, hp, hcp⟩ := exists_mem_splitOn hne hc
        rw [hs] at hp
        rcases List.mem_cons.mp hp with rfl | hp
        · exact ⟨_, List.mem_cons_self, List.mem_cons_of_mem d hcp⟩
        · exact ⟨p, List.mem_cons_of_mem _ hp, hcp⟩

theorem isOctet_digits {p : Text} (h : isOctet p = true) : ∀ c ∈ p, c.isDigit = true := by
  simp only [isOctet, Bool.decide_and, Bool.and_eq_true, decide_eq_true_eq] at h
  exact List.all_eq_true.mp h.2.1

theorem visible_of_isIPv4 {t : Text} (h : isIPv4 t = true) : Visible t := by
  simp only [isIPv4, Bool.decide_and, Bool.and_eq_true, decide_eq_true_eq, List.all_eq_true] at h
  intro c hc
  by_cases hdot : c = '.'
  · subst hdot
    decide
  · obtain ⟨p, hp, hcp⟩ := exists_mem_splitOn hdot hc
    have := isDigit_bounds (isOctet_digits (h.2 p hp).2 c hcp)
    omega

theorem isIPv4_ne {t : Text} (h : isIPv4 t = true) : t ≠ [] := by
  rintro rfl
  exact absurd h (by decide)

theorem fmtSigned_cons (n : ℤ) : ∃ c t, fmtSigned n = c :: t ∧ ¬ isWhitespaceOrNewline c := by
  obtain ⟨c, t, ht⟩ := List.exists_cons_of_ne_nil (fmtSigned_ne n)
  exact ⟨c, t, ht, (visible_fmtSigned n).not_white (by rw [ht]; exact List.mem_cons_self)⟩

theorem intOfText_fmtSigned {n : ℤ} (hlow : -2 ^ 63 ≤ n) (hhigh : n < 2 ^ 63) :
    intOfText (fmtSigned n) = some n := by
  rcases n with n | n
  · exact intOfText_fmtUnsigned (by simp only [Int.ofNat_eq_natCast] at hhigh; omega)
  · have hall : (fmtUnsigned (n + 1)).all Char.isDigit :=
      List.all_eq_true.mpr fun c hc => isDigit_of_mem_fmtUnsigned hc
    have hne : fmtUnsigned (n + 1) ≠ [] := Nat.toDigits_ne_nil
    unfold intOfText fmtSigned
    simp only []
    rw [if_pos ⟨hne, hall⟩, digitsNat_fmtUnsigned]
    exact Option.filter_eq_some_iff.mpr
      ⟨by rw [Option.map_some, Int.negSucc_eq]; rfl, decide_eq_true ⟨hlow, hhigh⟩⟩

/-- What is written is read back. -/
theorem readEntry_serialized {e : PublicIPEntry} (hlow : -2 ^ 63 ≤ e.stamp)
    (hhigh : e.stamp < 2 ^ 63) (hip : Visible e.ip) : readEntry (some e.serialized) = some e := by
  obtain ⟨stamp, ip⟩ := e
  have hstamp := visible_fmtSigned stamp
  have hsplit : strtok ' ' (fmtSigned stamp) = [fmtSigned stamp] :=
    strtok_word hstamp.no_blank (fmtSigned_ne stamp)
  have hlead : ∀ u, (fmtSigned stamp ++ u).dropWhile isWhitespaceOrNewline = fmtSigned stamp ++ u := by
    obtain ⟨c, t, ht, hc⟩ := fmtSigned_cons stamp
    intro u
    rw [ht, List.cons_append, List.dropWhile_cons_of_neg hc]
  have hblank : ∀ c ∈ [' '] ++ ['\n'], isWhitespaceOrNewline c = true := fun c hc =>
    isWhitespaceOrNewline_blank (by simpa using hc)
  have hbreak : ∀ c ∈ ['\n'], isWhitespaceOrNewline c = true := fun c hc =>
    isWhitespaceOrNewline_blank (.inr (List.mem_singleton.mp hc))
  show PublicIPEntry.ofSerialized (((fmtSigned stamp ++ ' ' :: ip ++ ['\n']).dropWhile _).rdropWhile _)
    = _
  rw [List.append_assoc, hlead]
  rcases ip with _ | ⟨c, t⟩
  · rw [Trim.rdropWhile_append_of_pos hblank, hstamp.rdropWhile, PublicIPEntry.ofSerialized,
      hsplit]
    simp only [intOfText_fmtSigned hlow hhigh, Option.map_some, List.headD_nil]
  · have hlast : (fmtSigned stamp ++ ' ' :: (c :: t)).rdropWhile isWhitespaceOrNewline
        = fmtSigned stamp ++ ' ' :: (c :: t) := by
      refine List.rdropWhile_eq_self_iff.mpr fun hne => ?_
      rw [List.getLast_append_of_ne_nil _ (by simp), List.getLast_cons (List.cons_ne_nil c t)]
      exact hip.not_white (List.getLast_mem _)
    rw [← List.append_assoc, Trim.rdropWhile_append_of_pos hbreak, hlast,
      PublicIPEntry.ofSerialized, strtok_append, hsplit,
      strtok_word hip.no_blank (List.cons_ne_nil c t)]
    simp only [List.cons_append, List.nil_append, intOfText_fmtSigned hlow hhigh, Option.map_some,
      List.headD_cons]

/-! ## One call -/

/-- The address reported last; the last of the calls comes first. -/
def lastReported (records : List ProbeRecord) : Option Text := records.findSome? (·.result.ip)

/-- What the file says of the calls so far. -/
structure Tracked (probe : PublicIPProbe) (s : Probing) : Prop where
  unknown : lastReported s.records = none → (∀ e, readEntry s.cache = some e → e.ip = [])
    ∧ ∀ r ∈ s.records, r.result.fromCache = false ∧ probe.fetched r.fetch = none
  known : ∀ a, lastReported s.records = some a → isIPv4 a = true
    ∧ (∃ stamp, readEntry s.cache = some ⟨stamp, a⟩ ∧ ∀ r ∈ s.records, r.result.fromCache = false →
      r.now + probe.config.retrySec ≤ stamp + probe.config.ttlSec)
    ∧ ∃ r ∈ s.records, probe.fetched r.fetch ≠ none
  sorted : ∀ last ∈ s.records.head?, ∀ r ∈ s.records, r.now ≤ last.now

/-- A call answers from the file while that is fresh. Otherwise it makes a round, which finds an
address or does not. -/
inductive Asked (probe : PublicIPProbe) (s : Probing) (c : ProbeCall) :
    Option Text → PublicIPResult → Prop where
  | cached {a : Text} (hlast : lastReported s.records = some a) :
    Asked probe s c s.cache ⟨some a, none, true⟩
  | found {a : Text} (ha : probe.fetched c.fetch = some a)
    (hspaced : lastReported s.records ≠ none → ∀ r ∈ s.records, r.result.fromCache = false →
      r.now + probe.config.retrySec ≤ c.now) :
    Asked probe s c (some (PublicIPEntry.serialized ⟨c.now, a⟩))
      ⟨some a, if lastReported s.records ≠ none ∧ lastReported s.records ≠ some a then
        lastReported s.records else none, false⟩
  | failed (hnone : probe.fetched c.fetch = none)
    (hlow : -2 ^ 63 ≤ c.now - probe.config.ttlSec + probe.config.retrySec)
    (hhigh : c.now - probe.config.ttlSec + probe.config.retrySec < 2 ^ 63)
    (hspaced : lastReported s.records ≠ none → ∀ r ∈ s.records, r.result.fromCache = false →
      r.now + probe.config.retrySec ≤ c.now) :
    Asked probe s c
      (some (PublicIPEntry.serialized ⟨c.now - probe.config.ttlSec + probe.config.retrySec,
        (lastReported s.records).getD []⟩))
      ⟨lastReported s.records, none, false⟩

theorem checkedInt_eq_some {n m : ℤ} (h : checkedInt n = some m) :
    m = n ∧ -2 ^ 63 ≤ n ∧ n < 2 ^ 63 := by
  unfold checkedInt at h
  split_ifs at h with hn
  exact ⟨(Option.some.inj h).symm, hn⟩

theorem fetched_isIPv4 {fetch : ℕ → Text → Option Text} {a : Text}
    (h : probe.fetched fetch = some a) : isIPv4 a = true := by
  obtain ⟨⟨url, i⟩, -, h⟩ := List.exists_of_findSome?_eq_some h
  exact (Option.filter_eq_some_iff.mp h).2

/-- The decision on what the file holds. -/
theorem decide_cases (hs : Tracked probe s) {now : ℤ} {d : PublicIPDecision}
    (h : PublicIPCache.decide (readEntry s.cache) now probe.config = some d) :
    (∃ a, lastReported s.records = some a ∧ d = .useCached a)
      ∨ d = .probe (lastReported s.records)
        ∧ (lastReported s.records ≠ none → ∀ r ∈ s.records, r.result.fromCache = false →
          r.now + probe.config.retrySec ≤ now) := by
  rcases hlast : lastReported s.records with _ | a
  · obtain ⟨hempty, -⟩ := hs.unknown hlast
    refine .inr ⟨?_, fun hne => absurd rfl hne⟩
    unfold PublicIPCache.decide at h
    rcases hr : readEntry s.cache with _ | e
    · rw [hr] at h
      exact (Option.some.inj h).symm
    · rw [hr] at h
      simp only [hempty e hr, if_true] at h
      exact (Option.some.inj h).symm
  · obtain ⟨hip, ⟨stamp, hr, hspaced⟩, -⟩ := hs.known a hlast
    unfold PublicIPCache.decide at h
    rw [hr] at h
    simp only [if_neg (isIPv4_ne hip), Option.bind_eq_bind, Option.bind_eq_some_iff] at h
    obtain ⟨age, hage, h⟩ := h
    obtain ⟨rfl, -⟩ := checkedInt_eq_some hage
    split_ifs at h with hfresh
    · exact .inl ⟨a, rfl, (Option.some.inj h).symm⟩
    · refine .inr ⟨(Option.some.inj h).symm, fun _ r hr hround => ?_⟩
      have := hspaced r hr hround
      omega

theorem resolve_cases (fetch : ℕ → Text → Option Text) {previous : Option Text} {now : ℤ}
    {entry : PublicIPEntry} {reported changedFrom : Option Text}
    (h : PublicIPCache.resolve (probe.fetched fetch) previous now probe.config
      = some (entry, reported, changedFrom)) :
    (∃ a, probe.fetched fetch = some a ∧ entry = ⟨now, a⟩ ∧ reported = some a
        ∧ changedFrom = if previous ≠ none ∧ previous ≠ some a then previous else none)
      ∨ probe.fetched fetch = none
        ∧ (-2 ^ 63 ≤ now - probe.config.ttlSec + probe.config.retrySec
          ∧ now - probe.config.ttlSec + probe.config.retrySec < 2 ^ 63)
        ∧ entry = ⟨now - probe.config.ttlSec + probe.config.retrySec, previous.getD []⟩
        ∧ reported = previous ∧ changedFrom = none := by
  unfold PublicIPCache.resolve at h
  rcases hf : probe.fetched fetch with _ | a
  · rw [hf] at h
    simp only [Option.filter_none, Option.bind_eq_bind, Option.bind_eq_some_iff, Option.some.injEq,
      Prod.mk.injEq] at h
    obtain ⟨expiring, he, backdated, hb, rfl, rfl, rfl⟩ := h
    obtain ⟨rfl, -⟩ := checkedInt_eq_some he
    obtain ⟨rfl, hfits⟩ := checkedInt_eq_some hb
    exact .inr ⟨rfl, hfits, rfl, rfl, rfl⟩
  · rw [hf, Option.filter_some_pos (fetched_isIPv4 hf)] at h
    simp only [Option.some.injEq, Prod.mk.injEq] at h
    obtain ⟨rfl, rfl, rfl⟩ := h
    exact .inl ⟨a, rfl, rfl, rfl, rfl⟩

theorem probeStep_cases (hs : Tracked probe s) (h : probeStep probe s c = some (s', result)) :
    (∃ cache, s' = ⟨cache, ⟨c, result⟩ :: s.records⟩ ∧ Asked probe s c cache result)
      ∧ (∀ last ∈ s.records.head?, last.now ≤ c.now) ∧ -2 ^ 63 ≤ c.now ∧ c.now < 2 ^ 63 := by
  unfold probeStep at h
  split_ifs at h with hback
  simp only [Option.map_eq_some_iff, Prod.mk.injEq] at h
  obtain ⟨⟨cache, res⟩, h, rfl, rfl⟩ := h
  have hclock : ∀ last ∈ s.records.head?, last.now ≤ c.now := by
    intro last hl
    rw [Option.mem_def] at hl
    rw [hl] at hback
    simpa using hback
  unfold PublicIPProbe.currentIP at h
  simp only [Option.bind_eq_bind, Option.bind_eq_some_iff] at h
  obtain ⟨nowSec, hnow, d, hd, h⟩ := h
  obtain ⟨rfl, hfits⟩ := checkedInt_eq_some hnow
  refine ⟨⟨cache, rfl, ?_⟩, hclock, hfits⟩
  rcases decide_cases hs hd with ⟨a, hlast, rfl⟩ | ⟨rfl, hspaced⟩
  · cases h
    exact .cached hlast
  · simp only [Option.bind_eq_some_iff, Option.some.injEq, Prod.mk.injEq] at h
    obtain ⟨⟨entry, reported, changedFrom⟩, hr, rfl, rfl⟩ := h
    rcases resolve_cases c.fetch hr with ⟨a, ha, rfl, rfl, rfl⟩ | ⟨hnone, hf, rfl, rfl, rfl⟩
    · exact .found ha hspaced
    · exact .failed hnone hf.1 hf.2 hspaced

theorem lastReported_cons (r : ProbeRecord) (records : List ProbeRecord) :
    lastReported (r :: records) = r.result.ip.or (lastReported records) := by
  unfold lastReported
  rw [List.findSome?_cons]
  rcases r.result.ip with _ | a <;> rfl

theorem Asked.lastReported {cache : Option Text} (h : Asked probe s c cache result) :
    lastReported (⟨c, result⟩ :: s.records) = result.ip := by
  rw [lastReported_cons]
  rcases h with ⟨hlast⟩ | ⟨ha⟩ | ⟨hnone⟩
  · rfl
  · rfl
  · exact Option.or_self

theorem Tracked.start : Tracked probe .start where
  unknown _ := ⟨fun e h => (by cases h), fun r hr => (by cases hr)⟩
  known a h := (by cases h)
  sorted last h := (by cases h)

theorem Tracked.now_le (hs : Tracked probe s) (hclock : ∀ last ∈ s.records.head?, last.now ≤ c.now) :
    ∀ r ∈ s.records, r.now ≤ c.now := by
  intro r hr
  rcases hrec : s.records with _ | ⟨last, rest⟩
  · rw [hrec] at hr
    cases hr
  · have hlast : last ∈ s.records.head? := by rw [hrec]; rfl
    exact (hs.sorted last hlast r hr).trans (hclock last hlast)

/-- The file is true to the calls after each of them. -/
theorem probeStep_tracked (hle : probe.config.retrySec ≤ probe.config.ttlSec)
    (hs : Tracked probe s) (h : probeStep probe s c = some (s', result)) : Tracked probe s' := by
  obtain ⟨⟨cache, rfl, hasked⟩, hclock, hlow, hhigh⟩ := probeStep_cases hs h
  have hnow := hs.now_le hclock
  have hlast := hasked.lastReported
  have hsorted : ∀ last ∈ (ProbeRecord.mk c result :: s.records).head?,
      ∀ r ∈ ProbeRecord.mk c result :: s.records, r.now ≤ last.now := by
    intro last hl r hr
    cases hl
    rcases List.mem_cons.mp hr with rfl | hr
    · exact le_rfl
    · exact hnow r hr
  rcases hasked with @⟨a, hprev⟩ | @⟨a, ha, hspaced⟩ | ⟨hnone, hfits, hfits', hspaced⟩
  · obtain ⟨hip, ⟨stamp, hr, hspaced⟩, r, hmem, hfetched⟩ := hs.known a hprev
    refine ⟨fun hunk => ?_, fun b hb => ?_, hsorted⟩
    · rw [hlast] at hunk
      cases hunk
    · rw [hlast] at hb
      cases hb
      refine ⟨hip, ⟨stamp, hr, ?_⟩, r, List.mem_cons_of_mem _ hmem, hfetched⟩
      refine List.forall_mem_cons.mpr ⟨fun hround => ?_, hspaced⟩
      cases hround
  · have hip := fetched_isIPv4 ha
    refine ⟨fun hunk => ?_, fun b hb => ?_, hsorted⟩
    · rw [hlast] at hunk
      cases hunk
    · rw [hlast] at hb
      cases hb
      refine ⟨hip, ⟨c.now, readEntry_serialized hlow hhigh (visible_of_isIPv4 hip), ?_⟩, _,
        List.mem_cons_self, by rw [ha]; simp⟩
      intro r hr _
      rcases List.mem_cons.mp hr with rfl | hr
      · exact Int.add_le_add_left hle _
      · have := hnow r hr
        omega
  · refine ⟨fun hunk => ?_, fun b hb => ?_, hsorted⟩
    · rw [hlast] at hunk
      simp only [] at hunk
      obtain ⟨-, hall⟩ := hs.unknown hunk
      refine ⟨fun e he => ?_, List.forall_mem_cons.mpr ⟨⟨rfl, hnone⟩, hall⟩⟩
      rw [hunk, readEntry_serialized hfits hfits' (fun c hc => by cases hc)] at he
      cases he
      rfl
    · rw [hlast] at hb
      simp only [] at hb
      obtain ⟨hip, -, r, hmem, hfetched⟩ := hs.known b hb
      refine ⟨hip, ⟨c.now - probe.config.ttlSec + probe.config.retrySec, ?_, ?_⟩, r,
        List.mem_cons_of_mem _ hmem, hfetched⟩
      · rw [hb]
        exact readEntry_serialized hfits hfits' (visible_of_isIPv4 hip)
      · intro r hr hround
        rcases List.mem_cons.mp hr with rfl | hr
        · simp only []
          omega
        · have := hnow r hr
          omega

/-! ## Runs -/

def Spaced (probe : PublicIPProbe) (s : Probing) : Prop :=
  s.records.Pairwise fun later earlier => later.result.fromCache = false →
    earlier.result.fromCache = false → earlier.now + probe.config.retrySec ≤ later.now

instance : Decidable (Spaced probe s) := inferInstanceAs (Decidable (List.Pairwise _ _))

/-- The guard that keeps the rounds apart: as long as no source has answered an address, no call
follows the last sooner than `retrySec`. -/
def Patient (probe : PublicIPProbe) (s : Probing) (c : ProbeCall) : Prop :=
  (∀ r ∈ s.records, probe.fetched r.fetch = none) →
    ∀ last ∈ s.records.head?, last.now + probe.config.retrySec ≤ c.now

/-- The address that the round of a call found, if it made one. -/
def foundBy (probe : PublicIPProbe) (r : ProbeRecord) : Option Text :=
  if r.result.fromCache then none else probe.fetched r.fetch

def StaysKnown (probe : PublicIPProbe) (s : Probing) : Prop :=
  s.records.Pairwise fun later earlier => foundBy probe earlier ≠ none → later.result.ip ≠ none

def ChangesNoted (probe : PublicIPProbe) (s : Probing) : Prop :=
  ∀ r earlier, r :: earlier <:+ s.records →
    (r.result.changedFrom ≠ none
      ↔ ∃ a b, foundBy probe r = some a ∧ lastReported earlier = some b ∧ a ≠ b)

theorem probeStep_spaced (hs : Tracked probe s) (hp : Spaced probe s)
    (h : probeStep probe s c = some (s', result)) : Spaced probe s' ↔ Patient probe s c := by
  obtain ⟨⟨cache, rfl, hasked⟩, hclock, -⟩ := probeStep_cases hs h
  unfold Spaced at hp ⊢
  rw [List.pairwise_cons, and_iff_left hp]
  rcases hlast : lastReported s.records with _ | a
  · obtain ⟨-, hall⟩ := hs.unknown hlast
    have hround : result.fromCache = false := by
      rcases hasked with ⟨hsome⟩ | ⟨-, -⟩ | ⟨-, -⟩
      · rw [hlast] at hsome
        cases hsome
      · rfl
      · rfl
    constructor
    · intro hspaced _ last hl
      have hmem := List.mem_of_mem_head? hl
      exact hspaced last hmem hround (hall last hmem).1
    · intro hpatient r hr _ _
      rcases hrec : s.records with _ | ⟨last, rest⟩
      · rw [hrec] at hr
        cases hr
      · have hl : last ∈ s.records.head? := by rw [hrec]; rfl
        have hafter := hpatient (fun r hr => (hall r hr).2) last hl
        have := hs.sorted last hl r hr
        simp only []
        omega
  · obtain ⟨-, -, r, hmem, hfetched⟩ := hs.known a hlast
    refine iff_of_true ?_ fun hall => absurd (hall r hmem) hfetched
    rcases hasked with ⟨-⟩ | ⟨-, hspaced⟩ | ⟨-, -, -, hspaced⟩
    · intro r _ hround
      cases hround
    · exact fun r hr _ hround => hspaced (by rw [hlast]; simp) r hr hround
    · exact fun r hr _ hround => hspaced (by rw [hlast]; simp) r hr hround

theorem probeStep_staysKnown (hs : Tracked probe s) (hp : StaysKnown probe s)
    (h : probeStep probe s c = some (s', result)) : StaysKnown probe s' := by
  obtain ⟨⟨cache, rfl, hasked⟩, -, -⟩ := probeStep_cases hs h
  refine List.pairwise_cons.mpr ⟨fun r hr hfound => ?_, hp⟩
  rcases hasked with ⟨-⟩ | ⟨-, -⟩ | ⟨-, -⟩
  · simp
  · simp
  · intro hnone
    obtain ⟨hround, hfetched⟩ := (hs.unknown hnone).2 r hr
    rw [foundBy, hround, hfetched] at hfound
    exact hfound rfl

theorem probeStep_changesNoted (hs : Tracked probe s) (hp : ChangesNoted probe s)
    (h : probeStep probe s c = some (s', result)) : ChangesNoted probe s' := by
  obtain ⟨⟨cache, rfl, hasked⟩, -, -⟩ := probeStep_cases hs h
  intro r earlier hsuffix
  rcases List.suffix_cons_iff.mp hsuffix with heq | hsuffix
  · obtain ⟨rfl, rfl⟩ := List.cons.inj heq
    rcases hasked with ⟨-⟩ | @⟨a, ha, -⟩ | ⟨hnone, -⟩
    · simp [foundBy]
    · simp only [foundBy, ha, Bool.false_eq_true, if_false, Option.some.injEq]
      rcases lastReported s.records with _ | b
      · simp
      · by_cases hab : b = a
        · simp [hab]
        · simp [hab, Ne.symm hab]
    · simp [foundBy, hnone]
  · exact hp r earlier hsuffix

namespace Specimen

def echoProbe : PublicIPProbe := ⟨["https://ifconfig.co/ip".toList], .standard⟩

def answering (answer : Option Text) (now : ℤ) : ProbeCall := ⟨now, fun _ _ => answer⟩

end Specimen

open Specimen

end PolarWG
