import PolarWG.RateLimit
import PolarWG.Lib.Exact

/-!
# What is pending is not always scheduled

The stub takes a callout for pending once anything was ever done to it, so a block that has called
back leaves it pending with nothing scheduled. The limiter sets its callout only where none is
pending: its first collection is its last, unless the callout is initialised again.
-/

namespace PolarWG

/-! ## Callouts -/

namespace Callout

/-- The steps of the queue itself. -/
def QueueOp : CalloutOp → Prop
  | .check _ _ | .run _ => True
  | .init | .reset _ _ | .stop => False

/-- Left to the queue, some block still calls back. -/
def WillCall (c : Callout) : Prop :=
  ∃ ops c₁ i c₂, (∀ op ∈ ops, QueueOp op) ∧ FreeRun calloutStep c ops c₁
    ∧ calloutStep c₁ (.run i) = some (c₂, true)

def Live (c : Callout) : Prop := ∃ b ∈ c.blocks, b.gen = c.coGeneration

instance (c : Callout) : Decidable c.Live := inferInstanceAs (Decidable (∃ b ∈ c.blocks, _))

end Callout

variable {c c' : Callout} {i : ℕ} {now : ℤ} {calls : Bool}

theorem blockCheck_cases (h : blockCheck c i now = some c') :
    ∃ b, c.blocks[i]? = some b ∧ c'.coGeneration = c.coGeneration
      ∧ (b.gen ≠ c.coGeneration ∧ c'.blocks = c.blocks.eraseIdx i
        ∨ b.gen = c.coGeneration ∧ c'.blocks = c.blocks.set i { b with checked := true }) := by
  unfold blockCheck at h
  rcases hb : c.blocks[i]? with _ | b
  · simp [hb] at h
  rw [hb, Option.bind_eq_bind, Option.bind_some] at h
  split_ifs at h with h1 h2
  · cases h
    exact ⟨b, rfl, rfl, .inl ⟨h2, rfl⟩⟩
  · cases h
    exact ⟨b, rfl, rfl, .inr ⟨not_not.mp h2, rfl⟩⟩

theorem blockRun_cases (h : blockRun c i = some (c', calls)) :
    ∃ b, c.blocks[i]? = some b ∧ b.checked = true ∧ c' = { c with blocks := c.blocks.eraseIdx i }
      ∧ calls = decide (b.gen = c.coGeneration) := by
  unfold blockRun at h
  rcases hb : c.blocks[i]? with _ | b
  · simp [hb] at h
  rw [hb, Option.bind_eq_bind, Option.bind_some] at h
  split_ifs at h with h1
  cases h
  exact ⟨b, rfl, h1, rfl, rfl⟩

theorem mem_eraseIdx_of_gen {bs : List CalloutBlock} {g : UInt32} {b : CalloutBlock}
    (hb : bs[i]? = some b) (hg : b.gen ≠ g) : (∃ b' ∈ bs.eraseIdx i, b'.gen = g) ↔ ∃ b' ∈ bs, b'.gen = g := by
  constructor
  · rintro ⟨b', hb', rfl⟩
    exact ⟨b', List.mem_of_mem_eraseIdx hb', rfl⟩
  · rintro ⟨b', hb', rfl⟩
    obtain ⟨j, hj⟩ := List.mem_iff_getElem?.mp hb'
    have hne : j ≠ i := by
      rintro rfl
      rw [hb, Option.some.injEq] at hj
      exact hg (congrArg CalloutBlock.gen hj)
    exact ⟨b', List.mem_eraseIdx_iff_getElem?.mpr ⟨j, hne, hj⟩, rfl⟩

/-- A block that passes its first check or bails out leaves the others as live as they were. -/
theorem blockCheck_live (h : blockCheck c i now = some c') : c'.Live ↔ c.Live := by
  obtain ⟨b, hb, hgen, ⟨hne, hbs⟩ | ⟨heq, hbs⟩⟩ := blockCheck_cases h
  · unfold Callout.Live
    rw [hbs, hgen, mem_eraseIdx_of_gen hb hne]
  · have hi := (List.getElem?_eq_some_iff.mp hb).1
    refine iff_of_true ⟨{ b with checked := true }, ?_, ?_⟩ ⟨b, List.mem_of_getElem? hb, heq⟩
    · rw [hbs]
      exact List.mem_set hi _
    · rw [hgen, ← heq]

theorem queueOp_live {op : CalloutOp} (hop : Callout.QueueOp op)
    (h : calloutStep c op = some (c', calls)) (hlive : c'.Live) : c.Live := by
  rcases op with _ | _ | _ | ⟨i, now⟩ | i
  · exact hop.elim
  · exact hop.elim
  · exact hop.elim
  · simp only [calloutStep, Option.map_eq_some_iff, Prod.mk.injEq] at h
    obtain ⟨_, h, rfl, -⟩ := h
    exact (blockCheck_live h).mp hlive
  · obtain ⟨b, -, -, rfl, -⟩ := blockRun_cases h
    obtain ⟨b', hb', hgen⟩ := hlive
    exact ⟨b', List.mem_of_mem_eraseIdx hb', hgen⟩

theorem blockRun_calls (h : blockRun c i = some (c', true)) : c.Live := by
  obtain ⟨b, hb, -, -, hc⟩ := blockRun_cases h
  exact ⟨b, List.mem_of_getElem? hb, of_decide_eq_true hc.symm⟩

theorem willCall_iff : c.WillCall ↔ c.Live := by
  constructor
  · rintro ⟨ops, c₁, i, c₂, hq, hrun, hcall⟩
    have hlive : c₁.Live := blockRun_calls hcall
    clear hcall
    induction hrun with
    | nil c => exact hlive
    | cons _ hst _ ih =>
      exact queueOp_live (hq _ (by simp)) hst (ih (fun op hop => hq op (by simp [hop])) hlive)
  · rintro ⟨b, hb, hgen⟩
    obtain ⟨i, hi⟩ := List.mem_iff_getElem?.mp hb
    have hlt := (List.getElem?_eq_some_iff.mp hi).1
    rcases hc : b.checked with _ | _
    · obtain ⟨c₁, hc₁⟩ : ∃ c₁, c₁ = { c with blocks := c.blocks.set i { b with checked := true } } :=
        ⟨_, rfl⟩
      have hcheck : calloutStep c (.check i b.due) = some (c₁, false) := by
        simp [calloutStep, blockCheck, hi, hc, hgen, hc₁]
      have hcall : calloutStep c₁ (.run i)
          = some ({ c₁ with blocks := c₁.blocks.eraseIdx i }, true) := by
        simp [calloutStep, blockRun, hc₁, hlt, hgen]
      exact ⟨[.check i b.due], c₁, i, _, by simp [Callout.QueueOp],
        .cons trivial hcheck (.nil _), hcall⟩
    · refine ⟨[], c, i, { c with blocks := c.blocks.eraseIdx i }, by simp, .nil c, ?_⟩
      simp [calloutStep, blockRun, hi, hc, hgen]

/-- What keeps `callout_pending` true to its name. A stop spoils it, unless it brings the counter
round to zero or to the number of a block left from before an initialisation; so does a block that
calls back, unless another waits with its number. -/
def calloutOk (c : Callout) : CalloutOp → Prop
  | .init | .check _ _ => True
  | .reset _ _ => c.coGeneration + 1 ≠ 0
  | .stop => c.coGeneration + 1 = 0 ∨ ∃ b ∈ c.blocks, b.gen = c.coGeneration + 1
  | .run i => ∀ b, c.blocks[i]? = some b → b.gen = c.coGeneration →
      ∃ b' ∈ c.blocks.eraseIdx i, b'.gen = c.coGeneration

theorem calloutPending_iff : calloutPending c = true ↔ c.coGeneration ≠ 0 := by
  simp [calloutPending]

theorem calloutReset_live (c : Callout) (ticks now : ℤ) : (calloutReset c ticks now).Live :=
  ⟨_, List.mem_append_right _ (List.mem_singleton.mpr rfl), rfl⟩

def Callout.Numbered (c : Callout) : Prop := ∀ b ∈ c.blocks, b.gen ≠ 0

theorem Callout.Numbered.pending (h : c.Numbered) (hlive : c.Live) : calloutPending c = true := by
  obtain ⟨b, hb, hgen⟩ := hlive
  exact calloutPending_iff.mpr (hgen ▸ h b hb)

theorem Callout.Numbered.reset {ticks : ℤ} (h : c.Numbered) (hne : c.coGeneration + 1 ≠ 0) :
    (calloutReset c ticks now).Numbered := by
  intro b hb
  rcases List.mem_append.mp hb with hb | hb
  · exact h b hb
  · rw [List.mem_singleton.mp hb]
    exact hne

theorem Callout.Numbered.dead (h : c.Numbered) {g : UInt32} (hg : g = 0) :
    ¬ ∃ b ∈ c.blocks, b.gen = g := by
  rintro ⟨b, hb, hgen⟩
  exact h b hb (hgen.trans hg)

theorem blockCheck_numbered (h : blockCheck c i now = some c') (hn : c.Numbered) :
    c'.Numbered := by
  intro b' hb'
  obtain ⟨b, hb, -, ⟨-, hbs⟩ | ⟨-, hbs⟩⟩ := blockCheck_cases h <;> rw [hbs] at hb'
  · exact hn b' (List.mem_of_mem_eraseIdx hb')
  · rcases List.mem_or_eq_of_mem_set hb' with hb' | rfl
    · exact hn b' hb'
    · exact hn b (List.mem_of_getElem? hb)

theorem calloutStep_exact {op : CalloutOp} (hn : c.Numbered)
    (hp : calloutPending c = true ↔ c.Live) (h : calloutStep c op = some (c', calls)) :
    ((calloutPending c' = true ↔ c'.Live) ↔ calloutOk c op)
      ∧ ((calloutPending c' = true ↔ c'.Live) → c'.Numbered) := by
  rcases op with _ | ⟨ticks, now⟩ | _ | ⟨i, now⟩ | i
  · cases h
    refine ⟨iff_of_true (iff_of_false (by simp [calloutPending, calloutInitMtx]) ?_) trivial,
      fun _ => hn⟩
    exact hn.dead rfl
  · cases h
    rw [iff_true_right (calloutReset_live c ticks now), calloutPending_iff]
    exact ⟨Iff.rfl, hn.reset⟩
  · cases h
    refine ⟨?_, fun _ => hn⟩
    rw [calloutPending_iff]
    by_cases h0 : c.coGeneration + 1 = 0
    · exact iff_of_true (iff_of_false (not_not.mpr h0) (hn.dead h0)) (.inl h0)
    · exact (iff_true_left h0).trans (or_iff_right h0).symm
  · simp only [calloutStep, Option.map_eq_some_iff, Prod.mk.injEq] at h
    obtain ⟨_, h, rfl, -⟩ := h
    obtain ⟨-, -, hgen, -⟩ := blockCheck_cases h
    refine ⟨?_, fun _ => blockCheck_numbered h hn⟩
    rw [blockCheck_live h, calloutPending, hgen]
    exact iff_of_true hp trivial
  · obtain ⟨b, hb, -, rfl, -⟩ := blockRun_cases h
    refine ⟨?_, fun _ b' hb' => hn b' (List.mem_of_mem_eraseIdx hb')⟩
    by_cases hgen : b.gen = c.coGeneration
    · have hpend := hn.pending ⟨b, List.mem_of_getElem? hb, hgen⟩
      have hpend' : calloutPending { c with blocks := c.blocks.eraseIdx i } = true := hpend
      simp [hpend', calloutOk, hb, hgen, Callout.Live]
    · have hlive : Callout.Live { c with blocks := c.blocks.eraseIdx i } ↔ c.Live :=
        mem_eraseIdx_of_gen hb hgen
      rw [hlive]
      refine iff_of_true hp fun b' hb' hgen' => ?_
      rw [hb, Option.some.injEq] at hb'
      exact absurd (hb' ▸ hgen') hgen

/-! ## The limiter -/

namespace Ratelimit

/-- Entries are there only while a collection is still to come. -/
def Collected (rl : Ratelimit) : Prop := rl.rlTable ≠ [] → rl.rlGc.WillCall

structure Sound (rl : Ratelimit) : Prop where
  num : rl.rlTableNum = rl.rlTable.length
  numbered : rl.rlGc.Numbered

theorem collected_iff {rl : Ratelimit} : rl.Collected ↔ (rl.rlTable ≠ [] → rl.rlGc.Live) := by
  rw [Collected, willCall_iff]

end Ratelimit

variable {rl rl' : Ratelimit} {siphash13 : Bytes → ℕ → Bytes → UInt64} {sa : Sockaddr} {vnet : ℕ}
  {alloc allowed : Bool}

/-- What a schedule does where there are entries: it arms the callout or finds it pending. -/
theorem ratelimitGcSchedule_spec (rl : Ratelimit) (now : ℤ) (hn : rl.rlGc.Numbered)
    (hnum : 0 < rl.rlTableNum) :
    (ratelimitGcSchedule rl now).rlTable = rl.rlTable
      ∧ (ratelimitGcSchedule rl now).rlTableNum = rl.rlTableNum
      ∧ (ratelimitGcSchedule rl now).rlGc.Numbered
      ∧ ((ratelimitGcSchedule rl now).rlGc.Live ↔
        calloutPending rl.rlGc = false ∨ rl.rlGc.Live) := by
  unfold ratelimitGcSchedule
  rcases hp : calloutPending rl.rlGc with _ | _
  · rw [if_pos ⟨hnum, by simp⟩]
    have h0 : rl.rlGc.coGeneration = 0 := by
      by_contra hne
      rw [calloutPending_iff.mpr hne] at hp
      cases hp
    refine ⟨rfl, rfl, hn.reset (by rw [h0]; decide), ?_⟩
    exact iff_of_true (calloutReset_live _ _ _) (.inl rfl)
  · rw [if_neg (by simp)]
    exact ⟨rfl, rfl, hn, by simp⟩

theorem ratelimitGc_force (rl : Ratelimit) (now : ℤ) (hs : rl.Sound) :
    (ratelimitGc rl true now).rlTable = [] ∧ (ratelimitGc rl true now).Sound := by
  unfold ratelimitGc
  split_ifs with h0
  · exact ⟨List.length_eq_zero_iff.mp (hs.num ▸ h0), hs⟩
  · have hkept : rl.rlTable.filter (fun r => ¬ gcExpired now true r) = [] := by
      simp [gcExpired]
    simp only [hkept, List.length_nil, Nat.sub_zero, hs.num, Nat.sub_self]
    exact ⟨rfl, rfl, hs.numbered⟩

/-- A collection from the callout finds it pending, and leaves it as it is. -/
theorem ratelimitGc_pending (now : ℤ) (hs : rl.Sound) (hp : calloutPending rl.rlGc = true) :
    (ratelimitGc rl false now).rlTable = rl.rlTable.filter (fun r => ¬ gcExpired now false r)
      ∧ (ratelimitGc rl false now).rlGc = rl.rlGc ∧ (ratelimitGc rl false now).Sound := by
  unfold ratelimitGc
  split_ifs with h0
  · have hnil : rl.rlTable = [] := List.length_eq_zero_iff.mp (hs.num ▸ h0)
    exact ⟨by simp [hnil], rfl, hs⟩
  · have hle := List.length_filter_le (fun r => ¬ gcExpired now false r) rl.rlTable
    rw [ratelimitGcSchedule, if_neg (by simp [hp])]
    refine ⟨rfl, rfl, ?_, hs.numbered⟩
    simp only [hs.num]
    omega

/-- Whether an address asked for goes into an empty table. -/
def FirstEntry (rl : Ratelimit) (sa : Sockaddr) (vnet : ℕ) (alloc : Bool) : Prop :=
  rl.rlTable = [] ∧ (ratelimitKey sa vnet).isSome ∧ alloc = true

/-- What keeps a collection scheduled: no address goes into an empty table once the callout has
called back, and no collection leaves an entry, unless another block waits with its number. -/
def limitOk (rl : Ratelimit) : LimitOp → Prop
  | .init _ | .deinit _ | .check _ _ => True
  | .allow sa vnet _ alloc => FirstEntry rl sa vnet alloc →
      calloutPending rl.rlGc = false ∨ rl.rlGc.Live
  | .run i now => ∀ b, rl.rlGc.blocks[i]? = some b → b.gen = rl.rlGc.coGeneration →
      (∀ r ∈ rl.rlTable, gcExpired now false r = true)
        ∨ ∃ b' ∈ rl.rlGc.blocks.eraseIdx i, b'.gen = rl.rlGc.coGeneration

theorem ratelimitAllow_exact (siphash13 : Bytes → ℕ → Bytes → UInt64) (sa : Sockaddr) (vnet : ℕ)
    (now : ℤ) (alloc : Bool) (hs : rl.Sound) (hp : rl.Collected) :
    ((ratelimitAllow siphash13 rl sa vnet now alloc).1.Collected
        ↔ limitOk rl (.allow sa vnet now alloc))
      ∧ (ratelimitAllow siphash13 rl sa vnet now alloc).1.Sound := by
  have hskip : ¬ FirstEntry rl sa vnet alloc →
      (rl.Collected ↔ limitOk rl (.allow sa vnet now alloc)) :=
    fun h => iff_of_true hp fun hfirst => absurd hfirst h
  unfold ratelimitAllow
  rcases hk : ratelimitKey sa vnet with _ | ⟨key, len⟩
  · refine ⟨hskip fun h => ?_, hs⟩
    have := h.2.1
    rw [hk] at this
    cases this
  simp only []
  split
  · next r hr =>
    have hne : rl.rlTable ≠ [] := by
      intro hnil
      rw [hnil] at hr
      cases hr
    refine ⟨?_, ?_, hs.numbered⟩
    · rw [← hskip fun h => hne h.1, Ratelimit.collected_iff, Ratelimit.collected_iff]
      have hne' : rl.rlTable.replace r (ratelimitTokens r now).1 ≠ [] := by
        rwa [← List.length_pos_iff, List.length_replace, List.length_pos_iff]
      exact ⟨fun h _ => h hne', fun h _ => h hne⟩
    · rw [List.length_replace]
      exact hs.num
  · next hr =>
    have hsize : 0 < ratelimitSizeMax := by decide
    split_ifs with hfull halloc
    · refine ⟨hskip fun h => ?_, hs⟩
      rw [hs.num, h.1] at hfull
      exact absurd hfull (Nat.not_le.mpr hsize)
    · obtain ⟨htable, hnum, hnumbered, hlive⟩ := ratelimitGcSchedule_spec
        { rl with
          rlTable := ⟨siphash13 rl.rlSecret key.vnet (key.ip.take len) &&& ratelimitMask, key, now,
            tokenMax - initiationCost⟩ :: rl.rlTable,
          rlTableNum := rl.rlTableNum + 1 } now hs.numbered (Nat.succ_pos _)
      refine ⟨?_, ?_, hnumbered⟩
      · rw [Ratelimit.collected_iff, htable, hlive]
        by_cases hnil : rl.rlTable = []
        · have hfirst : FirstEntry rl sa vnet alloc :=
            ⟨hnil, by rw [hk]; rfl, halloc⟩
          exact ⟨fun h _ => h (List.cons_ne_nil _ _), fun h _ => h hfirst⟩
        · have hlive' := Ratelimit.collected_iff.mp hp hnil
          exact iff_of_true (fun _ => .inr hlive') fun _ => .inr hlive'
      · rw [hnum, htable, List.length_cons, hs.num]
    · exact ⟨hskip fun h => halloc h.2.2, hs⟩

theorem ratelimitDeinit_spec (now : ℤ) (hs : rl.Sound) (hp : rl.Collected) :
    (ratelimitDeinit rl now).Collected ∧ (ratelimitDeinit rl now).Sound := by
  unfold ratelimitDeinit
  by_cases hi : rl.rlInitialized = true
  swap
  · rw [if_pos hi]
    exact ⟨hp, hs⟩
  rw [if_neg (not_not.mpr hi)]
  obtain ⟨hnil, hnum, hnumbered⟩ := ratelimitGc_force
    { rl with rlGc := calloutStop rl.rlGc } now ⟨hs.num, hs.numbered⟩
  exact ⟨fun hne => absurd hnil hne, hnum, hnumbered⟩

theorem limitStep_exact {op : LimitOp} (hs : rl.Sound) (hp : rl.Collected)
    (h : limitStep siphash13 rl op = some (rl', allowed)) :
    (rl'.Collected ↔ limitOk rl op) ∧ rl'.Sound := by
  rcases op with secret | now | ⟨sa, vnet, now, alloc⟩ | ⟨i, now⟩ | ⟨i, now⟩
  · cases h
    exact ⟨iff_of_true (fun h => absurd rfl h) trivial, rfl, hs.numbered⟩
  · cases h
    obtain ⟨hcollected, hsound⟩ := ratelimitDeinit_spec now hs hp
    exact ⟨iff_of_true hcollected trivial, hsound⟩
  · have h' : ratelimitAllow siphash13 rl sa vnet now alloc = (rl', allowed) := Option.some.inj h
    have := ratelimitAllow_exact siphash13 sa vnet now alloc hs hp
    rwa [h'] at this
  · simp only [limitStep, Option.map_eq_some_iff, Prod.mk.injEq] at h
    obtain ⟨c, h, rfl, -⟩ := h
    refine ⟨iff_of_true ?_ trivial, hs.num, blockCheck_numbered h hs.numbered⟩
    rw [Ratelimit.collected_iff] at hp ⊢
    exact fun hne => (blockCheck_live h).mpr (hp hne)
  · simp only [limitStep, Option.map_eq_some_iff, Prod.mk.injEq] at h
    obtain ⟨⟨c, calls⟩, h, rfl, -⟩ := h
    obtain ⟨b, hb, -, rfl, rfl⟩ := blockRun_cases h
    have hsound : Ratelimit.Sound
        { rl with rlGc := { rl.rlGc with blocks := rl.rlGc.blocks.eraseIdx i } } :=
      ⟨hs.num, fun b' hb' => hs.numbered b' (List.mem_of_mem_eraseIdx hb')⟩
    by_cases hgen : b.gen = rl.rlGc.coGeneration
    · have hpend : calloutPending rl.rlGc = true :=
        hs.numbered.pending ⟨b, List.mem_of_getElem? hb, hgen⟩
      obtain ⟨htable, hgc, hsound'⟩ := ratelimitGc_pending now hsound hpend
      simp only [hgen, decide_true, if_true]
      refine ⟨?_, hsound'⟩
      have hkept : rl.rlTable.filter (fun r => ¬ gcExpired now false r) = []
          ↔ ∀ r ∈ rl.rlTable, gcExpired now false r = true := by
        simp [List.filter_eq_nil_iff]
      rw [Ratelimit.collected_iff, htable, hgc, Ne, hkept, imp_iff_not_or, not_not]
      refine ⟨fun h b' _ _ => h, fun h => h b hb hgen⟩
    · simp only [hgen, decide_false]
      refine ⟨iff_of_true ?_ ?_, hsound⟩
      · rw [if_neg (by simp), Ratelimit.collected_iff]
        exact fun hne => (mem_eraseIdx_of_gen hb hgen).mpr (Ratelimit.collected_iff.mp hp hne)
      · intro b' hb' hgen'
        rw [hb, Option.some.injEq] at hb'
        exact absurd (hb' ▸ hgen') hgen

/-- A callout is pending all along exactly while a block of its own will call back, and the limiter
has a collection scheduled all along for what it holds, exactly if each step meets its guard. -/
theorem scheduled_while_needed {ops : List CalloutOp} {lops : List LimitOp}
    (hc : FreeRun calloutStep ⟨0, []⟩ ops c)
    (hl : FreeRun (limitStep siphash13) .blank lops rl) :
    (Always calloutStep (fun c => calloutPending c = true ↔ c.WillCall) ⟨0, []⟩ ops
        ↔ Run calloutStep calloutOk ⟨0, []⟩ ops c)
      ∧ (Always (limitStep siphash13) (fun rl => rl.rlTable ≠ [] → rl.rlGc.WillCall) .blank lops
        ↔ Run (limitStep siphash13) limitOk .blank lops rl) := by
  constructor
  · simp only [willCall_iff]
    refine hc.always_iff Callout.Numbered (fun b hb => absurd hb List.not_mem_nil) ?_
      fun _ _ _ _ hn hp hst => calloutStep_exact hn hp hst
    exact iff_of_false (by decide) (by decide)
  · refine hl.always_iff (P := Ratelimit.Collected) Ratelimit.Sound
      ⟨rfl, fun b hb => absurd hb List.not_mem_nil⟩ (fun h => absurd rfl h)
      fun _ _ _ _ hs hp hst => ?_
    obtain ⟨hiff, hsound⟩ := limitStep_exact hs hp hst
    exact ⟨hiff, fun _ => hsound⟩

namespace Specimen

def siphashZero : Bytes → ℕ → Bytes → UInt64 := fun _ _ _ => 0

def sinA : Sockaddr := ⟨afInet, 0, [10, 0, 0, 1], 0, fun _ => rfl, fun h => absurd h (by decide)⟩
def sinB : Sockaddr := ⟨afInet, 0, [10, 0, 0, 2], 0, fun _ => rfl, fun h => absurd h (by decide)⟩

/-- Two addresses half a second apart, and the collection that frees the first. -/
def twoAddresses : List LimitOp :=
  [.init (zeros 16), .allow sinA 0 0 true, .allow sinB 0 500000000 true, .check 0 1000000001,
    .run 0 1000000001]

end Specimen

open Specimen

theorem scheduled_while_needed_first :
    Always calloutStep (fun c => calloutPending c = true ↔ c.WillCall) ⟨0, []⟩ [.reset 1000 0]
      ∧ Always (limitStep siphashZero) (fun rl => rl.rlTable ≠ [] → rl.rlGc.WillCall) .blank
        [.init (zeros 16), .allow sinA 0 0 true] := by
  have hc : FreeRun calloutStep ⟨0, []⟩ [.reset 1000 0] (calloutReset ⟨0, []⟩ 1000 0) :=
    .cons trivial rfl (.nil _)
  have hl : FreeRun (limitStep siphashZero) .blank [.init (zeros 16), .allow sinA 0 0 true] _ :=
    .cons trivial rfl (.cons trivial rfl (.nil _))
  obtain ⟨hcallout, hlimit⟩ := scheduled_while_needed hc hl
  refine ⟨hcallout.mpr (.cons ?_ rfl (.nil _)), hlimit.mpr (.cons trivial rfl (.cons ?_ rfl (.nil _)))⟩
  · exact show (0 : UInt32) + 1 ≠ 0 by decide
  · exact fun _ => .inl rfl

/-- After its first collection the limiter holds an address and has nothing scheduled. -/
theorem second_address_kept :
    ¬ Always calloutStep (fun c => calloutPending c = true ↔ c.WillCall) ⟨0, []⟩
        [.reset 1000 0, .check 0 1000000000, .run 0]
      ∧ ¬ Always (limitStep siphashZero) (fun rl => rl.rlTable ≠ [] → rl.rlGc.WillCall) .blank
        twoAddresses := by
  constructor
  · intro h
    have hrun : FreeRun calloutStep ⟨0, []⟩ [.reset 1000 0, .check 0 1000000000, .run 0] ⟨1, []⟩ :=
      .cons trivial rfl (.cons trivial rfl (.cons trivial rfl (.nil _)))
    have hlast : calloutPending ⟨1, []⟩ = true ↔ Callout.WillCall ⟨1, []⟩ :=
      h _ [] _ (List.append_nil _).symm hrun
    rw [willCall_iff] at hlast
    exact absurd (hlast.mp rfl) (by decide)
  · intro h
    have hexec : (Run.exec (limitStep siphashZero) .blank twoAddresses).any
        (fun x => decide (x.1.rlTable ≠ [] ∧ ¬ x.1.rlGc.Live)) = true := by decide
    obtain ⟨⟨rl, _⟩, hrun, hdec⟩ := (Option.any_eq_true _ _).mp hexec
    obtain ⟨hne, hdead⟩ := of_decide_eq_true hdec
    have hlast := h _ [] rl (List.append_nil _).symm
      (.of_exec (fun _ _ _ => trivial) hrun) hne
    exact hdead (willCall_iff.mp hlast)

end PolarWG
