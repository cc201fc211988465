import PolarWG.MbufStub
import PolarWG.Lib.Run

/-!
# The packet buffer as a sequence of bytes

As long as `m_data` is where the allocation starts, the capacity says what `m_append` has room for.
A head that is trimmed moves it away for good, and the capacity is then more than the room.
-/

namespace PolarWG

/-! ## What a buffer stands for -/

structure StandsFor (m : MbufStub) (b : Mbuf) : Prop where
  visible : m.visible = b.data
  len : m.mLen = b.data.length
  pktLen : m.pktLen = m.mLen

/-- The visible bytes are in the allocation, and so are those of an append that the capacity
admits. -/
structure MbufStub.Fits (m : MbufStub) : Prop where
  inside : m.off + m.mLen.toNat ≤ m.alloc.length
  next : ∀ cp : Bytes, m.mLen.toNat + cp.length ≤ m.cap →
    m.off + m.mLen.toNat + cp.length ≤ m.alloc.length

/-- Each operation has a result, and each buffer on the way is the sequence of bytes that the
plain operations make. -/
def Faithful : MbufStub → Mbuf → List MbufOp → Prop
  | m, b, [] => StandsFor m b ∧ m.Fits
  | m, b, op :: ops => (StandsFor m b ∧ m.Fits)
    ∧ ∃ m' rc, mbufStep m op = some (m', rc) ∧ Faithful m' (mbufSpec rc b op) ops

theorem Faithful.head {m : MbufStub} {b : Mbuf} : ∀ {ops : List MbufOp}, Faithful m b ops →
    StandsFor m b ∧ m.Fits
  | [], h => h
  | _ :: _, h => h.1

/-- The head is not trimmed, and the lengths are `int`s. -/
def MbufOp.Tame (m : MbufStub) : MbufOp → Prop
  | .devget _ _ => True
  | .append _ _ cp => m.mLen + cp.1.length ≤ intMax
  | .adj len => (0 < len.toInt → m.mLen = 0) ∧ len.toInt ≠ intMin

/-! ## The steps -/

/-- A buffer as `m_devget` makes it: from the start of the allocation, all of which is counted. -/
structure Rooted (m : MbufStub) (b : Mbuf) : Prop where
  root : m.off = 0
  cap : m.cap = m.alloc.length
  prefixed : b.data <+: m.alloc
  len : m.mLen = b.data.length
  pktLen : m.pktLen = m.mLen

theorem length_overwrite {bs new : Bytes} {off : ℕ} (h : off + new.length ≤ bs.length) :
    (overwrite bs off new).length = bs.length := by
  simp only [overwrite, List.length_append, List.length_take, List.length_drop]
  omega

theorem length_fresh (heap : ℕ → UInt8) (n : ℕ) : (fresh heap n).length = n := by
  simp [fresh]

variable {m m' : MbufStub} {b : Mbuf}

theorem Rooted.represents (h : Rooted m b) : StandsFor m b ∧ m.Fits := by
  obtain ⟨hroot, hcap, hprefix, hlen, hpkt⟩ := h
  have hle := hprefix.length_le
  refine ⟨⟨?_, hlen, hpkt⟩, ⟨by omega, fun cp hcp => by omega⟩⟩
  rw [MbufStub.visible, hroot, List.drop_zero, hlen, Int.toNat_natCast]
  exact (List.prefix_iff_eq_take.mp hprefix).symm

theorem devget_rooted (heap : ℕ → UInt8) (data : Chunk) :
    Rooted (mDevget heap data) ⟨data.1⟩ := by
  refine ⟨rfl, ?_, ?_, rfl, rfl⟩
  · have hroom : 0 + data.1.length ≤ (fresh heap (data.1.length + 64)).length := by
      rw [length_fresh]
      omega
    exact ((length_overwrite hroom).trans (length_fresh _ _)).symm
  · simp only [mDevget, overwrite, List.take_zero, List.nil_append]
    exact List.prefix_append _ _

theorem Rooted.copied (h : Rooted m b) (cp : Bytes)
    (hroom : b.data.length + cp.length ≤ m.alloc.length) :
    ∃ m', m.copied cp = some (m', 1) ∧ Rooted m' ⟨b.data ++ cp⟩ := by
  obtain ⟨hroot, hcap, hprefix, hlen, hpkt⟩ := h
  have hdst : m.off + m.mLen.toNat = b.data.length := by omega
  have htake : m.alloc.take b.data.length = b.data := (List.prefix_iff_eq_take.mp hprefix).symm
  refine ⟨{ m with
    alloc := overwrite m.alloc b.data.length cp
    mLen := m.mLen + cp.length
    pktLen := m.pktLen + cp.length }, ?_, hroot, ?_, ?_, ?_, ?_⟩
  · simp only [MbufStub.copied, hdst, if_neg (Nat.not_lt.mpr hroom)]
  · exact hcap.trans (length_overwrite (by omega)).symm
  · rw [overwrite, htake]
    exact List.prefix_append _ _
  · simp only [hlen, List.length_append, Nat.cast_add]
  · exact congrArg (· + (cp.length : ℤ)) hpkt

theorem Rooted.append (h : Rooted m b) (memory : Bool) (heap : ℕ → UInt8) {cp : Chunk}
    (hint : m.mLen + cp.1.length ≤ intMax) :
    ∃ m' rc, m.mAppend memory heap cp = some (m', rc)
      ∧ Rooted m' ((mAppend (rc = 1) b cp.1).getD b) := by
  have hneed : (m.mLen + cp.1.length).toNat = b.data.length + cp.1.length := by
    rw [h.len]
    omega
  have hle := h.prefixed.length_le
  rw [MbufStub.mAppend, if_neg (by omega)]
  simp only [hneed]
  split
  · next hcap =>
    obtain ⟨m', hm', hr⟩ := h.copied cp.1 (by have := h.cap; omega)
    exact ⟨m', 1, hm', hr⟩
  next hcap =>
  rw [if_neg (not_not.mpr h.root)]
  split
  · have hgrown : (m.alloc ++ fresh heap (b.data.length + cp.1.length + 64 - m.alloc.length)).length
        = b.data.length + cp.1.length + 64 := by
      have := h.cap
      rw [List.length_append, length_fresh]
      omega
    have hr : Rooted { m with
        alloc := m.alloc ++ fresh heap (b.data.length + cp.1.length + 64 - m.alloc.length)
        cap := b.data.length + cp.1.length + 64 } b :=
      ⟨h.root, hgrown.symm, h.prefixed.trans (List.prefix_append _ _), h.len, h.pktLen⟩
    obtain ⟨m', hm', hr'⟩ := hr.copied cp.1 (by rw [hgrown]; omega)
    exact ⟨m', 1, hm', hr'⟩
  · exact ⟨m, 0, rfl, h⟩

theorem Rooted.adj (h : Rooted m b) {len : Int32} (hhead : 0 < len.toInt → m.mLen = 0)
    (hmin : len.toInt ≠ intMin) : ∃ m', m.mAdj len = some m' ∧ Rooted m' (mAdj b len.toInt) := by
  obtain ⟨hroot, hcap, hprefix, hlen, hpkt⟩ := h
  unfold MbufStub.mAdj mAdj
  simp only []
  split
  · next hpos =>
    have hcut : (if len.toInt > m.mLen then m.mLen else len.toInt) = 0 := by
      split <;> omega
    have hdrop : b.data.drop len.toInt.toNat = b.data := by
      rcases eq_or_lt_of_le hpos with h0 | h0
      · rw [← h0, Int.toNat_zero, List.drop_zero]
      · have hnil : b.data = [] := List.eq_nil_of_length_eq_zero (by have := hhead h0; omega)
        rw [hnil, List.drop_nil]
    rw [hcut, hdrop]
    exact ⟨_, rfl, by simpa using hroot, hcap, hprefix, by simpa using hlen, by simpa using hpkt⟩
  · next hneg =>
    refine ⟨_, rfl, hroot, hcap, (List.take_prefix _ _).trans hprefix, ?_, ?_⟩
    · simp only [List.length_take, hlen]
      split <;> omega
    · simp only [hpkt]

theorem Rooted.step (h : Rooted m b) {op : MbufOp} (hop : op.Tame m) :
    ∃ m' rc, mbufStep m op = some (m', rc) ∧ Rooted m' (mbufSpec rc b op) := by
  cases op with
  | devget heap data => exact ⟨_, _, rfl, devget_rooted heap data⟩
  | append memory heap cp => exact h.append memory heap hop
  | adj len =>
    obtain ⟨m', hm', hr⟩ := h.adj hop.1 hop.2
    exact ⟨m', 1, by rw [mbufStep, hm', Option.map_some], hr⟩

/-- Once the head is trimmed, the capacity admits an append that there is no room for. -/
theorem Rooted.tame (h : Rooted m b) {op : MbufOp} {m' : MbufStub} {rc : ℤ}
    (hstep : mbufStep m op = some (m', rc)) (hfits : m'.Fits) : op.Tame m := by
  cases op with
  | devget heap data => trivial
  | append memory heap cp =>
    by_contra hover
    rw [MbufOp.Tame, not_le] at hover
    rw [mbufStep, MbufStub.mAppend, if_pos hover] at hstep
    cases hstep
  | adj len =>
    simp only [mbufStep, Option.map_eq_some_iff, Prod.mk.injEq] at hstep
    obtain ⟨_, hadj, rfl, -⟩ := hstep
    unfold MbufStub.mAdj at hadj
    simp only [] at hadj
    constructor
    · intro hpos
      rw [if_pos hpos.le, Option.some.injEq] at hadj
      subst hadj
      by_contra hne
      have hle := h.prefixed.length_le
      obtain ⟨hlen, hcap, hroot⟩ := And.intro h.len (And.intro h.cap h.root)
      have hnext := hfits.next
        (List.replicate (m.cap - (m.mLen - if len.toInt > m.mLen then m.mLen else len.toInt).toNat) 0)
      simp only [List.length_replicate] at hnext
      have := hnext (by split <;> omega)
      split at this <;> omega
    · intro hmin
      rw [if_neg (by rw [hmin]; decide), if_pos hmin] at hadj
      cases hadj

/-- From `m_devget` on, a sequence of operations is faithful exactly if each of them is tame. -/
theorem mbuf_refines (heap : ℕ → UInt8) (data : Chunk) (ops : List MbufOp) :
    Faithful (mDevget heap data) ⟨data.1⟩ ops
      ↔ ∃ m, Run mbufStep (fun m op => op.Tame m) (mDevget heap data) ops m := by
  generalize hm : mDevget heap data = m
  have h : Rooted m ⟨data.1⟩ := hm ▸ devget_rooted heap data
  generalize (⟨data.1⟩ : Mbuf) = b at h
  clear hm
  induction ops generalizing m b with
  | nil => exact iff_of_true h.represents ⟨m, .nil m⟩
  | cons op ops ih =>
    constructor
    · rintro ⟨-, m', rc, hstep, hrest⟩
      have hop := h.tame hstep hrest.head.2
      obtain ⟨_, _, hstep', hr⟩ := h.step hop
      rw [hstep, Option.some.injEq, Prod.mk.injEq] at hstep'
      obtain ⟨rfl, rfl⟩ := hstep'
      obtain ⟨m'', hrun⟩ := (ih _ _ hr).mp hrest
      exact ⟨m'', .cons hop hstep hrun⟩
    · rintro ⟨m'', hrun⟩
      rcases hrun with _ | ⟨hop, hstep, hrest⟩
      obtain ⟨_, _, hstep', hr⟩ := h.step hop
      rw [hstep, Option.some.injEq, Prod.mk.injEq] at hstep'
      obtain ⟨rfl, rfl⟩ := hstep'
      exact ⟨h.represents, _, _, hstep, (ih _ _ hr).mpr ⟨m'', hrest⟩⟩

/-- A head of one byte is trimmed, and 65 bytes are appended: the capacity admits them, and the
copy ends one byte past the allocation. -/
theorem mbuf_overrun : ¬ ∀ heap data ops, Faithful (mDevget heap data) ⟨data.1⟩ ops := by
  intro hall
  obtain ⟨-, m', rc, hadj, -, m'', rc', happend, -⟩ := hall (fun _ => 0) ⟨[1], by decide⟩
    [.adj 1, .append true (fun _ => 0) ⟨List.replicate 65 2, by decide⟩]
  have hm' : m' = { mDevget (fun _ => 0) ⟨[1], by decide⟩ with off := 1, mLen := 0, pktLen := 0 } :=
    (Prod.mk.inj (Option.some.inj hadj)).1.symm
  have hnone : ({ mDevget (fun _ => 0) ⟨[1], by decide⟩ with off := 1, mLen := 0, pktLen := 0
      } : MbufStub).mAppend true (fun _ => 0) ⟨List.replicate 65 2, by decide⟩ = none := by decide
  rw [hm', mbufStep, hnone] at happend
  cases happend

end PolarWG
