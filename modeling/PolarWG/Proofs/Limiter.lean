import PolarWG.RateLimit
import PolarWG.Lib.TokenBucket

/-!
# A bucket for each address

The table is a cache of token buckets, one for each address. An entry that the collection frees has
been full for some time, so nothing is lost with it: the answers to an address are those of a bucket
of its own, unless there is no entry for it and no room for one either. The addresses of one family
go into one table.
-/

namespace PolarWG

open TokenBucket

variable (siphash13 : Bytes → ℕ → Bytes → UInt64)

/-! ## Requests -/

def addressLen (family : ℕ) : ℕ := if family = afInet then ipv4MaskSize else ipv6MaskSize

def bucketOf (secret : Bytes) (family : ℕ) (key : RatelimitKey) : UInt64 :=
  siphash13 secret key.vnet (key.ip.take (addressLen family)) &&& ratelimitMask

/-- Whether there is an entry for the address, or can be. -/
def ratelimitServes (rl : Ratelimit) (key : RatelimitKey) (len : ℕ) (alloc : Bool) : Bool :=
  let bucket := siphash13 rl.rlSecret key.vnet (key.ip.take len) &&& ratelimitMask
  (rl.rlTable.find? (entryOf bucket key len)).isSome ∨ (rl.rlTableNum < ratelimitSizeMax ∧ alloc)

structure LimitAnswer where
  time : ℤ
  served : Bool
  allowed : Bool
deriving DecidableEq

/-- What a key's request is answered. -/
def allowLog (key : RatelimitKey) (rl : Ratelimit) : LimitOp → List LimitAnswer
  | .allow sa vnet now alloc =>
    match ratelimitKey sa vnet with
    | none => []
    | some (k, len) =>
      if k = key then
        [⟨now, ratelimitServes siphash13 rl k len alloc,
          (ratelimitAllow siphash13 rl sa vnet now alloc).2⟩]
      else []
  | _ => []

/-- What the requests of one key are answered over a run. -/
def limitLog (key : RatelimitKey) : Ratelimit → List LimitOp → List LimitAnswer
  | _, [] => []
  | rl, op :: ops => allowLog siphash13 key rl op ++
    match limitStep siphash13 rl op with
    | none => []
    | some (rl, _) => limitLog key rl ops

/-- A table in service is asked about the addresses of one family. -/
def Serving (family : ℕ) : LimitOp → Prop
  | .allow sa _ _ _ => sa.family = family
  | .check _ _ | .run _ _ => True
  | .init _ | .deinit _ => False

def LimitOp.time : LimitOp → ℤ
  | .init _ => 0
  | .deinit now | .allow _ _ now _ | .check _ now | .run _ now => now

/-! ## Keys -/

/-- The keys that addresses of a family have. -/
def Formed (family : ℕ) (key : RatelimitKey) : Prop :=
  if family = afInet then ∃ a : Bytes, a.length = 4 ∧ key.ip = a ++ zeros 4 else key.ip.length = 8

theorem ratelimitKey_formed {sa : Sockaddr} {vnet : ℕ} {key : RatelimitKey} {len : ℕ}
    (h : ratelimitKey sa vnet = some (key, len)) :
    Formed sa.family key ∧ len = addressLen sa.family := by
  unfold ratelimitKey at h
  unfold Formed addressLen
  split at h
  · next h4 =>
    simp only [Option.some.injEq, Prod.mk.injEq] at h
    obtain ⟨rfl, rfl⟩ := h
    have hlen := sa.v4 h4
    rw [if_pos h4, if_pos h4]
    exact ⟨⟨_, by simp [ipv4MaskSize, hlen], rfl⟩, rfl⟩
  · next h4 =>
    split at h
    · next h6 =>
      simp only [Option.some.injEq, Prod.mk.injEq] at h
      obtain ⟨rfl, rfl⟩ := h
      have hlen := sa.v6 h6
      rw [if_neg h4, if_neg h4]
      exact ⟨by simp [ipv6MaskSize, hlen], rfl⟩
    · cases h

/-- The bytes that are compared tell keys of one family apart. -/
theorem Formed.eq_iff {family : ℕ} {k k' : RatelimitKey} (h : Formed family k)
    (h' : Formed family k') :
    k = k' ↔ k.vnet = k'.vnet ∧ k.ip.take (addressLen family) = k'.ip.take (addressLen family) := by
  refine ⟨fun e => e ▸ ⟨rfl, rfl⟩, fun ⟨hv, hip⟩ => ?_⟩
  rcases k with ⟨v, ip⟩
  rcases k' with ⟨v', ip'⟩
  obtain rfl : v = v' := hv
  unfold Formed at h h'
  unfold addressLen at hip
  split at h
  · next h4 =>
    obtain ⟨a, ha, rfl⟩ := h
    rw [if_pos h4] at h' hip
    obtain ⟨a', ha', rfl⟩ := h'
    simp only [ipv4MaskSize, List.take_left' ha, List.take_left' ha'] at hip
    rw [hip]
  · next h4 =>
    rw [if_neg h4] at h' hip
    simp only [ipv6MaskSize, List.take_of_length_le h.le, List.take_of_length_le h'.le] at hip
    rw [hip]

theorem replace_map {α β : Type*} [BEq α] [LawfulBEq α] (key : α → β) {a b : α}
    (hk : key b = key a) : ∀ l : List α, (l.replace a b).map key = l.map key
  | [] => rfl
  | x :: xs => by
    rw [List.replace_cons]
    split
    · next h => simp [hk, beq_iff_eq.mp h]
    · simp [replace_map key hk xs]

theorem mem_replace_iff {α β : Type*} [BEq α] [LawfulBEq α] (key : α → β) {a b x : α} :
    ∀ {l : List α}, (l.map key).Nodup → a ∈ l →
      (x ∈ l.replace a b ↔ x = b ∨ x ∈ l ∧ key x ≠ key a)
  | y :: ys, hn, ha => by
    rw [List.map_cons, List.nodup_cons] at hn
    rw [List.replace_cons]
    by_cases hy : y = a
    · subst hy
      have hne : ∀ z ∈ ys, key z ≠ key y := fun z hz e => hn.1 (e ▸ List.mem_map_of_mem hz)
      simp only [beq_self_eq_true, List.mem_cons]
      constructor
      · rintro (rfl | hx)
        · exact .inl rfl
        · exact .inr ⟨.inr hx, hne x hx⟩
      · rintro (rfl | ⟨rfl | hx, hkx⟩)
        · exact .inl rfl
        · exact absurd rfl hkx
        · exact .inr hx
    · have hay : a ∈ ys := (List.mem_cons.mp ha).resolve_left (Ne.symm hy)
      have hkey : key y ≠ key a := fun e => hn.1 (e ▸ List.mem_map_of_mem hay)
      have ih := mem_replace_iff key (b := b) (x := x) hn.2 hay
      have hbeq : (a == y) = false := beq_false_of_ne (Ne.symm hy)
      simp only [hbeq, List.mem_cons, ih]
      constructor
      · rintro (rfl | rfl | ⟨hx, hkx⟩)
        · exact .inr ⟨.inl rfl, hkey⟩
        · exact .inl rfl
        · exact .inr ⟨.inr hx, hkx⟩
      · rintro (rfl | ⟨rfl | hx, hkx⟩)
        · exact .inr (.inl rfl)
        · exact .inl rfl
        · exact .inr (.inr ⟨hx, hkx⟩)

/-! ## The table -/

theorem initiationCost_eq : initiationCost = 50000000 := rfl

theorem tokenMax_eq : tokenMax = 250000000 := rfl

theorem initiationCost_le : initiationCost ≤ tokenMax :=
  Nat.le_mul_of_pos_right initiationCost (by decide)

/-- The table holds those of the buckets that are not known to be full. -/
structure Tracks (family : ℕ) (rl : Ratelimit) (now : ℤ)
    (buckets : RatelimitKey → Option Bucket) : Prop where
  formed : ∀ r ∈ rl.rlTable, Formed family r.rKey
  chained : ∀ r ∈ rl.rlTable, r.bucket = bucketOf siphash13 rl.rlSecret family r.rKey
  nodup : (rl.rlTable.map (·.rKey)).Nodup
  past : ∀ r ∈ rl.rlTable, 0 ≤ r.rLastTime ∧ r.rLastTime ≤ now
  level : ∀ r ∈ rl.rlTable, r.rTokens ≤ tokenMax
  entry : ∀ r ∈ rl.rlTable, buckets r.rKey = some ⟨r.rLastTime, r.rTokens⟩
  gone : ∀ key, (∀ r ∈ rl.rlTable, r.rKey ≠ key) → ∀ b, buckets key = some b →
    (tokenMax : ℤ) ≤ b.tokens + (now - b.last)

variable {siphash13} {family : ℕ} {rl : Ratelimit} {now : ℤ}
  {buckets : RatelimitKey → Option Bucket}

theorem Tracks.later (h : Tracks siphash13 family rl now buckets) {later : ℤ} (hl : now ≤ later) :
    Tracks siphash13 family rl later buckets where
  formed := h.formed
  chained := h.chained
  nodup := h.nodup
  past r hr := ⟨(h.past r hr).1, (h.past r hr).2.trans hl⟩
  level := h.level
  entry := h.entry
  gone key hk b hb := by
    have := h.gone key hk b hb
    omega

theorem Tracks.congr (h : Tracks siphash13 family rl now buckets) {rl' : Ratelimit}
    (hs : rl'.rlSecret = rl.rlSecret) (ht : rl'.rlTable = rl.rlTable) :
    Tracks siphash13 family rl' now buckets := by
  constructor <;> simp only [hs, ht]
  exacts [h.formed, h.chained, h.nodup, h.past, h.level, h.entry, h.gone]

theorem Tracks.find_entry (h : Tracks siphash13 family rl now buckets) {key : RatelimitKey}
    (hk : Formed family key) :
    rl.rlTable.find? (entryOf (bucketOf siphash13 rl.rlSecret family key) key (addressLen family))
      = rl.rlTable.find? fun r => r.rKey = key := by
  refine List.find?_congr fun r hr => ?_
  rw [entryOf, decide_eq_decide, h.chained r hr, (h.formed r hr).eq_iff hk]
  constructor
  · rintro ⟨-, hv, hip⟩
    exact ⟨hv, hip⟩
  · rintro ⟨hv, hip⟩
    exact ⟨by rw [((h.formed r hr).eq_iff hk).mpr ⟨hv, hip⟩], hv, hip⟩

theorem ratelimitTokens_eq (r : RatelimitEntry) (h : 0 ≤ r.rLastTime ∧ r.rLastTime ≤ now)
    (hlevel : r.rTokens ≤ tokenMax) (hnow : now < 2 ^ 63) :
    ratelimitTokens r now
      = ({ r with
            rLastTime := (ask tokenMax initiationCost (some ⟨r.rLastTime, r.rTokens⟩) now).1.last
            rTokens := (ask tokenMax initiationCost (some ⟨r.rLastTime, r.rTokens⟩) now).1.tokens },
          (ask tokenMax initiationCost (some ⟨r.rLastTime, r.rTokens⟩) now).2) := by
  rw [tokenMax_eq] at hlevel
  have hmod : ((r.rTokens : ℤ) + (now - r.rLastTime)) % 2 ^ 64 = r.rTokens + (now - r.rLastTime) :=
    Int.emod_eq_of_lt (by omega) (by omega)
  have hmin : (if ((r.rTokens : ℤ) + (now - r.rLastTime)).toNat > tokenMax then tokenMax
      else ((r.rTokens : ℤ) + (now - r.rLastTime)).toNat)
      = TokenBucket.level tokenMax (some ⟨r.rLastTime, r.rTokens⟩) now := by
    simp only [level_some, Bucket.level, gt_iff_lt]
    split
    · next hgt => rw [Nat.min_eq_left hgt.le]
    · next hle => rw [Nat.min_eq_right (Nat.not_lt.mp hle)]
  simp only [ratelimitTokens, hmod, hmin, ask, ge_iff_le]
  split <;> rfl

/-- A request that an entry answers. -/
theorem Tracks.found (h : Tracks siphash13 family rl now buckets) {r : RatelimitEntry}
    (hr : r ∈ rl.rlTable) (hnow : now < 2 ^ 63) :
    (ratelimitTokens r now).2 = (ask tokenMax initiationCost (buckets r.rKey) now).2
      ∧ Tracks siphash13 family
        { rl with rlTable := rl.rlTable.replace r (ratelimitTokens r now).1 } now
        (Function.update buckets r.rKey
          (some (ask tokenMax initiationCost (buckets r.rKey) now).1)) := by
  have heq := ratelimitTokens_eq r (h.past r hr) (h.level r hr) hnow
  rw [← h.entry r hr] at heq
  set a := ask tokenMax initiationCost (buckets r.rKey) now with ha
  obtain ⟨htokens, hlast⟩ := ask_tokens tokenMax initiationCost (buckets r.rKey) now
  have hle := TokenBucket.level_le tokenMax (buckets r.rKey) now
  rw [← ha] at htokens hlast
  refine ⟨congrArg Prod.snd heq, ?_⟩
  rw [heq]
  set r' : RatelimitEntry := { r with rLastTime := a.1.last, rTokens := a.1.tokens } with hr'
  have hmem : ∀ x, x ∈ rl.rlTable.replace r r' ↔ x = r' ∨ x ∈ rl.rlTable ∧ x.rKey ≠ r.rKey :=
    fun x => mem_replace_iff (·.rKey) h.nodup hr
  have hkeep : ∀ {P : RatelimitEntry → Prop}, P r' → (∀ x ∈ rl.rlTable, P x) →
      ∀ x ∈ rl.rlTable.replace r r', P x := by
    intro P h1 h2 x hx
    rcases (hmem x).mp hx with rfl | ⟨hx, -⟩
    · exact h1
    · exact h2 x hx
  have hpast := h.past r hr
  constructor
  · exact hkeep (h.formed r hr) h.formed
  · exact hkeep (h.chained r hr) h.chained
  · exact (replace_map (·.rKey) (show r'.rKey = r.rKey from rfl) rl.rlTable).symm ▸ h.nodup
  · refine hkeep ?_ h.past
    rw [hr', hlast]
    exact ⟨hpast.1.trans hpast.2, le_rfl⟩
  · refine hkeep ?_ h.level
    show a.1.tokens ≤ tokenMax
    omega
  · intro x hx
    rcases (hmem x).mp hx with rfl | ⟨hx, hne⟩
    · exact Function.update_self ..
    · rw [Function.update_of_ne hne]
      exact h.entry x hx
  · intro key hk b hb
    have hne : key ≠ r.rKey := fun e => hk r' ((hmem r').mpr (.inl rfl)) e.symm
    rw [Function.update_of_ne hne] at hb
    refine h.gone key (fun x hx e => ?_) b hb
    exact hk x ((hmem x).mpr (.inr ⟨hx, e ▸ hne⟩)) e

/-- A request that an entry is made for: the bucket was full. -/
theorem Tracks.created (h : Tracks siphash13 family rl now buckets) {key : RatelimitKey}
    (hf : Formed family key) (hnew : ∀ r ∈ rl.rlTable, r.rKey ≠ key) (h0 : 0 ≤ now) :
    (ask tokenMax initiationCost (buckets key) now).2 = true
      ∧ Tracks siphash13 family
        { rl with rlTable := ⟨bucketOf siphash13 rl.rlSecret family key, key, now,
          tokenMax - initiationCost⟩ :: rl.rlTable } now
        (Function.update buckets key
          (some (ask tokenMax initiationCost (buckets key) now).1)) := by
  have hfull : TokenBucket.level tokenMax (buckets key) now = tokenMax := by
    rcases hb : buckets key with _ | b
    · exact level_none tokenMax now
    · exact level_full (h.gone key hnew b hb) le_rfl
  have hask : ask tokenMax initiationCost (buckets key) now
      = (⟨now, tokenMax - initiationCost⟩, true) := by
    rw [ask, hfull, if_pos initiationCost_le]
  rw [hask]
  refine ⟨rfl, ?_⟩
  constructor
  · exact List.forall_mem_cons.mpr ⟨hf, h.formed⟩
  · exact List.forall_mem_cons.mpr ⟨rfl, h.chained⟩
  · rw [List.map_cons, List.nodup_cons]
    refine ⟨fun hmem => ?_, h.nodup⟩
    obtain ⟨r, hr, hk⟩ := List.mem_map.mp hmem
    exact hnew r hr hk
  · exact List.forall_mem_cons.mpr ⟨⟨h0, le_rfl⟩, h.past⟩
  · exact List.forall_mem_cons.mpr ⟨Nat.sub_le _ _, h.level⟩
  · refine List.forall_mem_cons.mpr ⟨Function.update_self .., fun r hr => ?_⟩
    rw [Function.update_of_ne (hnew r hr)]
    exact h.entry r hr
  · intro k hk b hb
    have hne : k ≠ key := fun e => hk _ List.mem_cons_self e.symm
    rw [Function.update_of_ne hne] at hb
    exact h.gone k (fun r hr => hk r (List.mem_cons_of_mem _ hr)) b hb

theorem ratelimitGcSchedule_keeps (rl : Ratelimit) (now : ℤ) :
    (ratelimitGcSchedule rl now).rlSecret = rl.rlSecret
      ∧ (ratelimitGcSchedule rl now).rlTable = rl.rlTable := by
  unfold ratelimitGcSchedule
  split <;> exact ⟨rfl, rfl⟩

/-- What a collection frees has been full since. -/
theorem Tracks.gc (h : Tracks siphash13 family rl now buckets) :
    Tracks siphash13 family (ratelimitGc rl false now) now buckets := by
  unfold ratelimitGc
  split
  · exact h
  refine Tracks.congr ?_ (ratelimitGcSchedule_keeps _ now).1 (ratelimitGcSchedule_keeps _ now).2
  have hkeep : ∀ {P : RatelimitEntry → Prop}, (∀ r ∈ rl.rlTable, P r) →
      ∀ r ∈ rl.rlTable.filter fun r => ¬ gcExpired now false r, P r :=
    fun hP r hr => hP r (List.mem_of_mem_filter hr)
  constructor
  · exact hkeep h.formed
  · exact hkeep h.chained
  · exact (List.filter_sublist.map _).nodup h.nodup
  · exact hkeep h.past
  · exact hkeep h.level
  · exact hkeep h.entry
  · intro key hk b hb
    by_cases hold : ∀ r ∈ rl.rlTable, r.rKey ≠ key
    · exact h.gone key hold b hb
    · -- the entry is one of those that are freed
      push Not at hold
      obtain ⟨r, hr, rfl⟩ := hold
      have hexp : gcExpired now false r = true := by
        by_contra hne
        exact hk r (List.mem_filter.mpr ⟨hr, by simpa using hne⟩) rfl
      have hlast : r.rLastTime < now - elementTimeout * sbt1S := by simpa [gcExpired] using hexp
      rw [h.entry r hr, Option.some.injEq] at hb
      subst hb
      rw [tokenMax_eq]
      simp only [elementTimeout, sbt1S] at hlast ⊢
      omega

/-! ## Runs -/

/-- What a step gives a key: nothing that its bucket could have served, or the bucket's answer. -/
def Answered (buckets buckets' : RatelimitKey → Option Bucket) (now : ℤ) (log : List LimitAnswer)
    (key : RatelimitKey) : Prop :=
  (∀ e ∈ log, e.served = false ∧ e.allowed = false) ∧ buckets' key = buckets key
    ∨ log = [⟨now, true, (ask tokenMax initiationCost (buckets key) now).2⟩]
      ∧ buckets' key = some (ask tokenMax initiationCost (buckets key) now).1

theorem answered_nil {buckets : RatelimitKey → Option Bucket} {now : ℤ} {key : RatelimitKey} :
    Answered buckets buckets now [] key := .inl ⟨fun _ h => absurd h List.not_mem_nil, rfl⟩

/-- A key's own request, answered by its bucket; other keys have no answer. -/
theorem answered_update {key k : RatelimitKey} {b : Bool}
    (hb : b = (ask tokenMax initiationCost (buckets k) now).2) :
    Answered buckets (Function.update buckets k
      (some (ask tokenMax initiationCost (buckets k) now).1)) now
      (if k = key then [⟨now, true, b⟩] else []) key := by
  by_cases hk : k = key
  · subst hk
    rw [if_pos rfl, hb]
    exact .inr ⟨rfl, Function.update_self ..⟩
  · rw [if_neg hk]
    exact .inl ⟨fun _ h => absurd h List.not_mem_nil, Function.update_of_ne (Ne.symm hk) ..⟩

section Allow

variable {sa : Sockaddr} {vnet : ℕ} {key : RatelimitKey} (alloc : Bool)

theorem ratelimitAllow_found (h : Tracks siphash13 family rl now buckets)
    (hk : Formed family key) (hkey : ratelimitKey sa vnet = some (key, addressLen family))
    {r : RatelimitEntry} (hr : rl.rlTable.find? (fun r => r.rKey = key) = some r) :
    ratelimitAllow siphash13 rl sa vnet now alloc
        = ({ rl with rlTable := rl.rlTable.replace r (ratelimitTokens r now).1 },
          (ratelimitTokens r now).2)
      ∧ ratelimitServes siphash13 rl key (addressLen family) alloc = true := by
  have hfind := h.find_entry hk
  rw [bucketOf, hr] at hfind
  simp only [ratelimitAllow, ratelimitServes, hkey, hfind]
  exact ⟨trivial, by simp⟩

theorem ratelimitAllow_new (h : Tracks siphash13 family rl now buckets)
    (hk : Formed family key) (hkey : ratelimitKey sa vnet = some (key, addressLen family))
    (hr : rl.rlTable.find? (fun r => r.rKey = key) = none)
    (hroom : rl.rlTableNum < ratelimitSizeMax ∧ alloc) :
    ratelimitAllow siphash13 rl sa vnet now alloc
        = (ratelimitGcSchedule { rl with
          rlTable := ⟨bucketOf siphash13 rl.rlSecret family key, key, now,
            tokenMax - initiationCost⟩ :: rl.rlTable
          rlTableNum := rl.rlTableNum + 1 } now, true)
      ∧ ratelimitServes siphash13 rl key (addressLen family) alloc = true := by
  have hfind := h.find_entry hk
  rw [bucketOf, hr] at hfind
  simp only [ratelimitAllow, ratelimitServes, hkey, hfind, ge_iff_le, Nat.not_le.mpr hroom.1,
    hroom.2, hroom.1, ↓reduceIte, not_true_eq_false, bucketOf]
  exact ⟨trivial, by simp⟩

theorem ratelimitAllow_refused (h : Tracks siphash13 family rl now buckets)
    (hk : Formed family key) (hkey : ratelimitKey sa vnet = some (key, addressLen family))
    (hr : rl.rlTable.find? (fun r => r.rKey = key) = none)
    (hroom : ¬ (rl.rlTableNum < ratelimitSizeMax ∧ alloc)) :
    ratelimitAllow siphash13 rl sa vnet now alloc = (rl, false)
      ∧ ratelimitServes siphash13 rl key (addressLen family) alloc = false := by
  have hfind := h.find_entry hk
  rw [bucketOf, hr] at hfind
  simp only [ratelimitAllow, ratelimitServes, hkey, hfind]
  refine ⟨?_, by simpa using hroom⟩
  split
  · rfl
  · rw [if_pos fun ha => hroom ⟨by omega, ha⟩]

end Allow

theorem allow_tracks (h : Tracks siphash13 family rl now buckets) {sa : Sockaddr} {vnet : ℕ}
    {alloc : Bool} (hf : sa.family = family) (h0 : 0 ≤ now) (hlt : now < 2 ^ 63) :
    ∃ buckets', Tracks siphash13 family (ratelimitAllow siphash13 rl sa vnet now alloc).1 now buckets'
      ∧ ∀ key, Answered buckets buckets' now
        (allowLog siphash13 key rl (.allow sa vnet now alloc)) key := by
  rcases hkey : ratelimitKey sa vnet with _ | ⟨k, len⟩
  · simp only [ratelimitAllow, allowLog, hkey]
    exact ⟨buckets, h, fun key => answered_nil⟩
  obtain ⟨hk, rfl⟩ := ratelimitKey_formed hkey
  rw [hf] at hk hkey
  simp only [allowLog, hkey]
  rcases hr : rl.rlTable.find? (fun r => r.rKey = k) with _ | r
  · have hnew : ∀ r ∈ rl.rlTable, r.rKey ≠ k := fun r hr' =>
      by simpa using List.find?_eq_none.mp hr r hr'
    by_cases hroom : rl.rlTableNum < ratelimitSizeMax ∧ alloc
    · obtain ⟨hallow, hserved⟩ := ratelimitAllow_new alloc h hk hkey hr hroom
      obtain ⟨hask, htracks⟩ := h.created hk hnew h0
      have hkeeps := ratelimitGcSchedule_keeps { rl with
        rlTable := ⟨bucketOf siphash13 rl.rlSecret family k, k, now,
          tokenMax - initiationCost⟩ :: rl.rlTable
        rlTableNum := rl.rlTableNum + 1 } now
      rw [hallow, hserved]
      exact ⟨_, htracks.congr hkeeps.1 hkeeps.2, fun key => answered_update hask.symm⟩
    · obtain ⟨hallow, hserved⟩ := ratelimitAllow_refused alloc h hk hkey hr hroom
      rw [hallow, hserved]
      refine ⟨buckets, h, fun key => .inl ⟨fun e he => ?_, rfl⟩⟩
      split at he
      · rw [List.mem_singleton] at he
        exact he ▸ ⟨rfl, rfl⟩
      · exact absurd he List.not_mem_nil
  · obtain ⟨hallow, hserved⟩ := ratelimitAllow_found alloc h hk hkey hr
    have hrk : r.rKey = k := by simpa using List.find?_some hr
    obtain ⟨hask, htracks⟩ := h.found (List.mem_of_find?_eq_some hr) hlt
    rw [hrk] at hask htracks
    rw [hallow, hserved]
    exact ⟨_, htracks, fun key => answered_update hask⟩

theorem limitStep_tracks (h : Tracks siphash13 family rl now buckets) {op : LimitOp}
    (hserve : Serving family op) (hle : now ≤ op.time) (h0 : 0 ≤ op.time)
    (hlt : op.time < 2 ^ 63) {rl' : Ratelimit} {b : Bool}
    (hs : limitStep siphash13 rl op = some (rl', b)) :
    ∃ buckets', Tracks siphash13 family rl' op.time buckets'
      ∧ ∀ key, Answered buckets buckets' op.time (allowLog siphash13 key rl op) key := by
  cases op with
  | init => exact hserve.elim
  | deinit => exact hserve.elim
  | allow sa vnet t alloc =>
    obtain ⟨rfl, -⟩ := Prod.mk.inj (Option.some.inj hs)
    exact allow_tracks (h.later hle) hserve h0 hlt
  | check i t =>
    obtain ⟨c, -, hc⟩ := Option.map_eq_some_iff.mp hs
    obtain ⟨rfl, -⟩ := Prod.mk.inj hc
    exact ⟨buckets, (h.later hle).congr rfl rfl, fun key => answered_nil⟩
  | run i t =>
    obtain ⟨⟨c, calls⟩, -, hc⟩ := Option.map_eq_some_iff.mp hs
    obtain ⟨rfl, -⟩ := Prod.mk.inj hc
    refine ⟨buckets, ?_, fun key => answered_nil⟩
    have hgc : Tracks siphash13 family { rl with rlGc := c } t buckets :=
      (h.later hle).congr rfl rfl
    split
    · exact hgc.gc
    · exact hgc

/-- The answers of a bucket to what it serves. -/
def Bucketed (b : Option Bucket) (log : List LimitAnswer) : Prop :=
  (∀ e ∈ log, e.allowed → e.served) ∧ (log.filter (·.served)).map (·.allowed)
    = answers tokenMax initiationCost b ((log.filter (·.served)).map (·.time))

theorem Bucketed.skip {b : Option Bucket} {log log' : List LimitAnswer} (h : Bucketed b log)
    (hlog : ∀ e ∈ log', e.served = false ∧ e.allowed = false) : Bucketed b (log' ++ log) := by
  have hfilter : log'.filter (·.served) = [] :=
    List.filter_eq_nil_iff.mpr fun e he => by simp [(hlog e he).1]
  refine ⟨fun e he ha => ?_, by rw [List.filter_append, hfilter, List.nil_append, h.2]⟩
  rcases List.mem_append.mp he with he | he
  · simp [(hlog e he).2] at ha
  · exact h.1 e he ha

theorem Bucketed.serve {b : Option Bucket} {log : List LimitAnswer} {now : ℤ}
    (h : Bucketed (some (ask tokenMax initiationCost b now).1) log) :
    Bucketed b ([⟨now, true, (ask tokenMax initiationCost b now).2⟩] ++ log) := by
  refine ⟨fun e he ha => ?_, ?_⟩
  · rcases List.mem_cons.mp he with rfl | he
    · rfl
    · exact h.1 e he ha
  · simp only [List.singleton_append, List.filter_cons, ↓reduceIte, List.map_cons, answers]
    rw [h.2]

theorem limitLog_bucketed (key : RatelimitKey) : ∀ {ops : List LimitOp} {rl : Ratelimit} {now : ℤ}
    {buckets : RatelimitKey → Option Bucket}, Tracks siphash13 family rl now buckets →
    (∀ op ∈ ops, Serving family op) → (ops.map LimitOp.time).Pairwise (· ≤ ·) →
    (∀ op ∈ ops, now ≤ op.time ∧ 0 ≤ op.time ∧ op.time < 2 ^ 63) →
    Bucketed (buckets key) (limitLog siphash13 key rl ops)
  | [], _, _, _, _, _, _, _ => ⟨fun _ h => absurd h List.not_mem_nil, rfl⟩
  | op :: ops, rl, now, buckets, h, hserve, hsorted, htimes => by
    rw [List.map_cons, List.pairwise_cons] at hsorted
    obtain ⟨hle, h0, hlt⟩ := htimes op List.mem_cons_self
    rw [limitLog]
    rcases hs : limitStep siphash13 rl op with _ | ⟨rl', b⟩
    · have hnil : allowLog siphash13 key rl op = [] := by
        cases op with
        | allow => cases hs
        | _ => rfl
      rw [hnil]
      exact ⟨fun _ h => absurd h List.not_mem_nil, rfl⟩
    obtain ⟨buckets', htracks, hanswer⟩ := limitStep_tracks h (hserve op List.mem_cons_self) hle h0
      hlt hs
    have ih : Bucketed (buckets' key) (limitLog siphash13 key rl' ops) :=
      limitLog_bucketed key htracks (fun o ho => hserve o (List.mem_cons_of_mem op ho)) hsorted.2
        fun o ho => ⟨hsorted.1 _ (List.mem_map_of_mem ho), (htimes o (List.mem_cons_of_mem op ho)).2⟩
    rcases hanswer key with ⟨hnone, hb⟩ | ⟨hlog, hb⟩
    · rw [hb] at ih
      exact ih.skip hnone
    · rw [hb] at ih
      rw [hlog]
      exact ih.serve

theorem limitLog_times (key : RatelimitKey) : ∀ (ops : List LimitOp) (rl : Ratelimit),
    ((limitLog siphash13 key rl ops).map (·.time)).Sublist (ops.map LimitOp.time)
  | [], _ => .refl _
  | op :: ops, rl => by
    have hone : ((allowLog siphash13 key rl op).map (·.time)).Sublist [op.time] := by
      cases op with
      | allow sa vnet now alloc =>
        simp only [allowLog]
        split
        · exact List.nil_sublist _
        · split
          · exact .refl _
          · exact List.nil_sublist _
      | _ => exact List.nil_sublist _
    rw [limitLog, List.map_append, List.map_cons]
    refine List.Sublist.append hone ?_
    split
    · exact List.nil_sublist _
    · exact limitLog_times key ops _

theorem init_tracks (rl : Ratelimit) (secret : Bytes) (family : ℕ) (now : ℤ) :
    Tracks siphash13 family (ratelimitInit rl secret) now (fun _ => none) := by
  constructor
  case gone => exact fun _ _ b hb => by cases hb
  case nodup => exact .nil
  all_goals exact fun _ h => absurd h List.not_mem_nil

/-- What is allowed of a log, as times that a bucket grants. -/
theorem granted_served {b : Option Bucket} {log : List LimitAnswer} (h : Bucketed b log) :
    granted tokenMax initiationCost b ((log.filter (·.served)).map (·.time))
      = (log.filter (·.allowed)).map (·.time) := by
  rw [granted, ← h.2, List.zip_map', List.filter_map, List.map_map, List.filter_filter]
  congr 1
  refine List.filter_congr fun e he => ?_
  rcases ha : e.allowed with _ | _
  · simp [ha]
  · simp [ha, h.1 e he ha]

/-- The answers to the requests of a key are those of a token bucket of its own, apart from the
requests that there was no entry and no room for, which are refused. So in any stretch of time no
address is allowed more initiations than a full bucket and what flows into it pay for. -/
theorem limiter_buckets (siphash13 : Bytes → ℕ → Bytes → UInt64) (rl : Ratelimit) (secret : Bytes)
    {family : ℕ} {ops : List LimitOp} (hserve : ∀ op ∈ ops, Serving family op)
    (hsorted : (ops.map LimitOp.time).Pairwise (· ≤ ·))
    (htimes : ∀ op ∈ ops, 0 ≤ op.time ∧ op.time < 2 ^ 63) (key : RatelimitKey)
    {log : List LimitAnswer} (hlog : log = limitLog siphash13 key (ratelimitInit rl secret) ops) :
    (∀ e ∈ log, e.allowed → e.served)
      ∧ (log.filter (·.served)).map (·.allowed)
        = answers tokenMax initiationCost none ((log.filter (·.served)).map (·.time))
      ∧ ∀ start stop : ℤ, start ≤ stop →
        ((log.filter fun e => e.allowed ∧ start ≤ e.time ∧ e.time ≤ stop).length : ℤ) * initiationCost
          ≤ tokenMax + (stop - start) := by
  have hbucketed : Bucketed none log := hlog ▸ limitLog_bucketed key
    (init_tracks rl secret family 0) hserve hsorted fun op ho => ⟨(htimes op ho).1, htimes op ho⟩
  refine ⟨hbucketed.1, hbucketed.2, fun start stop hle => ?_⟩
  have hsub : ((log.filter (·.served)).map (·.time)).Sublist (ops.map LimitOp.time) :=
    (List.filter_sublist.map _).trans (hlog ▸ limitLog_times key ops _)
  have hwindow : (((granted tokenMax initiationCost none
      ((log.filter (·.served)).map (·.time))).filter fun t => start ≤ t ∧ t ≤ stop).length : ℤ)
      * initiationCost ≤ tokenMax + (stop - start) :=
    granted_window (hsorted.sublist hsub) start stop hle
  rw [granted_served hbucketed, List.filter_map, List.length_map, List.filter_filter] at hwindow
  have hfilter : (log.filter fun e => e.allowed ∧ start ≤ e.time ∧ e.time ≤ stop)
      = log.filter fun e => ((fun t => decide (start ≤ t ∧ t ≤ stop)) ∘ LimitAnswer.time) e
        && e.allowed := by
    refine List.filter_congr fun e _ => ?_
    rw [Bool.and_comm, Bool.decide_and, Bool.decide_eq_true, Function.comp_apply]
  rw [hfilter]
  exact hwindow

/-- A flood from one address, all at once. -/
def flood (n : ℕ) : List LimitOp :=
  List.replicate n (.allow ⟨afInet, 51820, [10, 0, 0, 9], 0, (fun _ => rfl), by decide⟩ 1 sbt1S true)

theorem limiter_buckets_flood :
    ((limitLog (fun _ _ _ => 0) ⟨1, [10, 0, 0, 9] ++ zeros 4⟩ (ratelimitInit .blank (zeros 16))
      (flood 1000)).filter fun e => e.allowed ∧ sbt1S ≤ e.time ∧ e.time ≤ sbt1S).length ≤ 5 := by
  have hflood : ∀ op ∈ flood 1000, Serving afInet op ∧ op.time = sbt1S := fun op hop => by
    rw [List.eq_of_mem_replicate hop]
    exact ⟨rfl, rfl⟩
  have hsorted : ((flood 1000).map LimitOp.time).Pairwise (· ≤ ·) := by
    rw [flood, List.map_replicate]
    exact List.pairwise_replicate.mpr (.inr le_rfl)
  have h := (limiter_buckets (fun _ _ _ => 0) .blank (zeros 16) (fun op hop => (hflood op hop).1)
    hsorted (fun op hop => by rw [(hflood op hop).2]; decide) ⟨1, [10, 0, 0, 9] ++ zeros 4⟩
    rfl).2.2 sbt1S sbt1S le_rfl
  rw [initiationCost_eq, tokenMax_eq] at h
  omega

end PolarWG
