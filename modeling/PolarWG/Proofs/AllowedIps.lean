import PolarWG.AllowedIps

/-!
# The trie equals the table of live prefixes

The reference is a table keyed by masked address and prefix length, which an insert sets and a
remove clears. Reading an address as a number, the bits the trie walks by are its binary digits,
so the prefix of `n` bits is the address masked to `n` bits, and the walk ends at the longest
live prefix.
-/

namespace PolarWG

variable {P : Type*} {w : ℕ}

/-- An address as a number, high byte first. -/
def addrNat (addr : Bytes) : ℕ := addr.foldl (fun a b => 256 * a + b.toNat) 0

/-- The address with all but its first `n` of `w` bits cleared. -/
def mask (w : ℕ) (addr : Bytes) (n : ℕ) : ℕ := addrNat addr / 2 ^ (w - n) * 2 ^ (w - n)

/-- A CIDR of a table of `w`-bit addresses. -/
structure Cidr (w : ℕ) where
  addr : Bytes
  len : ℕ
  addr_bits : 8 * addr.length = w
  len_le : len ≤ w

/-- What identifies a CIDR: its masked address and its length. -/
def Cidr.masked (c : Cidr w) : ℕ × ℕ := (mask w c.addr c.len, c.len)

inductive AipsOp (P : Type*) (w : ℕ) where
  | insert (c : Cidr w) (peer : P)
  | remove (c : Cidr w)

def AipsOp.apply (t : AipsTrie P) : AipsOp P w → AipsTrie P
  | insert c peer => (aipsInsert t c.addr c.len peer).2
  | remove c => (aipsRemove t c.addr c.len).2

/-- The trie after the calls. -/
def aipsAfter (ops : List (AipsOp P w)) : AipsTrie P := ops.foldl AipsOp.apply (aipsInit w)

def AipsOp.track (m : ℕ × ℕ → Option P) : AipsOp P w → ℕ × ℕ → Option P
  | insert c peer => Function.update m c.masked (some peer)
  | remove c => Function.update m c.masked none

/-- The peer of each prefix's latest insert, unless a remove followed it. -/
def live (ops : List (AipsOp P w)) : ℕ × ℕ → Option P := ops.foldl AipsOp.track fun _ => none

/-! ## Bits -/

/-- `n` bits of the address from bit `i`. -/
def addrBits (addr : Bytes) (i n : ℕ) : List Bool :=
  (List.range' i n).map fun j => bitAt addr j == 1

def bitsNat (l : List Bool) : ℕ := l.foldl (fun a b => 2 * a + b.toNat) 0

theorem addrBits_succ (addr : Bytes) (i n : ℕ) :
    addrBits addr i (n + 1) = (bitAt addr i == 1) :: addrBits addr (i + 1) n := rfl

@[simp] theorem length_addrBits (addr : Bytes) (i n : ℕ) : (addrBits addr i n).length = n := by
  simp [addrBits]

theorem addrBits_add (addr : Bytes) (i n k : ℕ) :
    addrBits addr i (n + k) = addrBits addr i n ++ addrBits addr (i + n) k := by
  rw [addrBits, ← List.range'_append_1, List.map_append]
  rfl

theorem take_addrBits (addr : Bytes) {n k : ℕ} (h : k ≤ n) :
    (addrBits addr 0 n).take k = addrBits addr 0 k := by
  obtain ⟨d, rfl⟩ := Nat.exists_eq_add_of_le h
  rw [addrBits_add, List.take_left' (by simp)]

theorem foldl_bits (l : List Bool) : ∀ a : ℕ,
    l.foldl (fun a b => 2 * a + b.toNat) a = a * 2 ^ l.length + bitsNat l := by
  induction l with
  | nil => simp [bitsNat]
  | cons b l ih =>
    intro a
    have hb : bitsNat (b :: l) = (2 * 0 + b.toNat) * 2 ^ l.length + bitsNat l := ih _
    rw [List.foldl_cons, ih, hb, List.length_cons, pow_succ]
    ring

theorem bitsNat_append (l l' : List Bool) :
    bitsNat (l ++ l') = bitsNat l * 2 ^ l'.length + bitsNat l' := by
  rw [bitsNat, List.foldl_append, foldl_bits l']
  rfl

theorem bitsNat_cons (b : Bool) (l : List Bool) :
    bitsNat (b :: l) = b.toNat * 2 ^ l.length + bitsNat l := by
  rw [← List.singleton_append, bitsNat_append]
  simp [bitsNat]

theorem bitsNat_lt : ∀ l : List Bool, bitsNat l < 2 ^ l.length
  | [] => by simp [bitsNat]
  | b :: l => by
    have ih := bitsNat_lt l
    have hb : b.toNat ≤ 1 := Bool.toNat_le b
    rw [bitsNat_cons, List.length_cons, pow_succ]
    nlinarith

theorem bitsNat_inj : ∀ {l l' : List Bool}, l.length = l'.length → bitsNat l = bitsNat l' →
    l = l'
  | [], [], _, _ => rfl
  | b :: l, b' :: l', hlen, h => by
    simp only [List.length_cons, Nat.add_right_cancel_iff] at hlen
    have hl := bitsNat_lt l
    have hl' := bitsNat_lt l'
    rw [bitsNat_cons, bitsNat_cons, hlen] at h
    rw [hlen] at hl
    have hb : b = b' := by
      cases b <;> cases b' <;> first | rfl | (simp only [Bool.toNat_true, Bool.toNat_false] at h; omega)
    subst hb
    rw [bitsNat_inj hlen (by omega)]

theorem bitAt_cons_add (b : UInt8) (addr : Bytes) (i : ℕ) :
    bitAt (b :: addr) (8 + i) = bitAt addr i := by
  have h1 : (8 + i) >>> 3 = i >>> 3 + 1 := by
    simp only [Nat.shiftRight_eq_div_pow]
    omega
  have h2 : (8 + i) &&& 7 = i &&& 7 := by
    rw [show 7 = 2 ^ 3 - 1 by rfl, Nat.and_two_pow_sub_one_eq_mod, Nat.and_two_pow_sub_one_eq_mod]
    omega
  rw [bitAt, h1, h2]
  rfl

theorem addrBits_cons (b : UInt8) (addr : Bytes) (n : ℕ) :
    addrBits (b :: addr) 0 (8 + n)
      = ((List.range 8).map fun i => (b.toNat >>> (7 - i)) &&& 1 == 1) ++ addrBits addr 0 n := by
  rw [addrBits_add]
  -- the first eight bits are the byte's by evaluation
  congr 1
  rw [addrBits, addrBits, List.range'_eq_map_range, List.range'_eq_map_range, List.map_map,
    List.map_map]
  refine List.map_congr_left fun i _ => ?_
  simp only [Function.comp_apply, Nat.zero_add, bitAt_cons_add]

theorem bitsNat_byte (b : UInt8) :
    bitsNat ((List.range 8).map fun i => (b.toNat >>> (7 - i)) &&& 1 == 1) = b.toNat := by
  have h : ∀ n < 256, bitsNat ((List.range 8).map fun i => (n >>> (7 - i)) &&& 1 == 1) = n := by
    decide +kernel
  exact h _ b.toNat_lt

theorem addrNat_eq : ∀ addr : Bytes, addrNat addr = bitsNat (addrBits addr 0 (8 * addr.length))
  | [] => rfl
  | b :: addr => by
    have hfold : ∀ (l : Bytes) (a : ℕ), l.foldl (fun a b => 256 * a + b.toNat) a
        = a * 2 ^ (8 * l.length) + addrNat l := by
      intro l
      induction l with
      | nil => simp [addrNat]
      | cons c l ih =>
        intro a
        have hc : addrNat (c :: l) = (256 * 0 + c.toNat) * 2 ^ (8 * l.length) + addrNat l := ih _
        rw [List.foldl_cons, ih, hc, List.length_cons,
          show 8 * (l.length + 1) = 8 * l.length + 8 by ring, pow_add]
        ring
    rw [List.length_cons, show 8 * (addr.length + 1) = 8 + 8 * addr.length by ring,
      addrBits_cons, bitsNat_append, bitsNat_byte, length_addrBits, ← addrNat_eq addr, addrNat,
      List.foldl_cons, hfold]
    simp

/-- The masked address and length a bit prefix of a `w`-bit address stands for. -/
def prefixKey (w : ℕ) (p : List Bool) : ℕ × ℕ := (bitsNat p * 2 ^ (w - p.length), p.length)

theorem prefixKey_addrBits {addr : Bytes} (h : 8 * addr.length = w) {n : ℕ} (hn : n ≤ w) :
    prefixKey w (addrBits addr 0 n) = (mask w addr n, n) := by
  obtain ⟨d, rfl⟩ := Nat.exists_eq_add_of_le hn
  have hlt := bitsNat_lt (addrBits addr (0 + n) d)
  rw [length_addrBits] at hlt
  rw [prefixKey, mask, addrNat_eq, h, addrBits_add, bitsNat_append, length_addrBits,
    length_addrBits, Nat.add_sub_cancel_left, Nat.mul_comm (bitsNat _) (2 ^ d),
    Nat.mul_add_div (Nat.two_pow_pos d), Nat.div_eq_of_lt hlt, Nat.add_zero,
    Nat.mul_comm (2 ^ d)]

theorem prefixKey_inj {p q : List Bool} (h : prefixKey w p = prefixKey w q) : p = q := by
  simp only [prefixKey, Prod.mk.injEq] at h
  refine bitsNat_inj h.2 ?_
  rw [h.2] at h
  exact Nat.eq_of_mul_eq_mul_right (Nat.two_pow_pos _) h.1

/-! ## The code against the trie library -/

theorem aipsInsertLoop_eq (addr : Bytes) (peer : P) : ∀ (n i : ℕ) (t : AipsNode P),
    aipsInsertLoop addr peer n i t
      = (t.insert (addrBits addr i n) peer, (t.find (addrBits addr i n)).isNone)
  | 0, i, t => by simp [aipsInsertLoop, addrBits, BitTrie.insert]
  | n + 1, i, t => by
    simp only [aipsInsertLoop, aipsInsertLoop_eq addr peer n, addrBits_succ, BitTrie.insert,
      BitTrie.find_cons]

theorem aipsLookupLoop_eq (addr : Bytes) : ∀ (n i : ℕ) (v : Option P) (z o : AipsNode P)
    (best : Option P), aipsLookupLoop addr n i (.node v z o) (v.or best)
      = (BitTrie.node v z o).walk (addrBits addr i n) best
  | 0, i, v, z, o, best => by simp [aipsLookupLoop, addrBits, BitTrie.walk]
  | n + 1, i, v, z, o, best => by
    rw [aipsLookupLoop, addrBits_succ, BitTrie.walk]
    split
    · rename_i hc
      rw [hc, BitTrie.walk_eq]
      have hnone : longest (BitTrie.nil : AipsNode P).find (addrBits addr (i + 1) n) = none :=
        (longest_eq_none _ _).2 fun _ _ => BitTrie.find_nil _
      rw [hnone]
      rfl
    · rename_i v' z' o' hc
      rw [hc, ← aipsLookupLoop_eq addr n]
      rfl

theorem aipsLookup_eq (t : AipsTrie P) (addr : Bytes) :
    aipsLookup t addr = longest t.root.find (addrBits addr 0 t.maxBits) := by
  rw [aipsLookup]
  split
  · rename_i h
    rw [h]
    exact ((longest_eq_none _ _).2 fun _ _ => BitTrie.find_nil _).symm
  · rename_i v z o h
    have := aipsLookupLoop_eq addr t.maxBits 0 v z o none
    rw [Option.or_none] at this
    rw [h, this, BitTrie.walk_eq, Option.or_none]

theorem aipsRemoveLoop_eq (addr : Bytes) : ∀ (n i : ℕ) (t : AipsNode P),
    aipsRemoveLoop addr n i t = if t.find (addrBits addr i n) = none then none
      else some (t.remove (addrBits addr i n))
  | n, i, .nil => by simp [aipsRemoveLoop]
  | 0, i, .node none z o => by simp [aipsRemoveLoop, addrBits]
  | 0, i, .node (some v) z o => by simp [aipsRemoveLoop, addrBits, BitTrie.remove]
  | n + 1, i, .node v z o => by
    rw [aipsRemoveLoop, aipsRemoveLoop_eq addr n, addrBits_succ, BitTrie.find_cons, BitTrie.remove]
    split_ifs <;> rfl

/-! ## The table of live prefixes -/

/-- The trie stores the table, and counts its prefixes. -/
structure Represents (t : AipsTrie P) (m : ℕ × ℕ → Option P) (w : ℕ) : Prop where
  maxBits : t.maxBits = w
  find : ∀ p, p.length ≤ w → t.root.find p = m (prefixKey w p)
  find_long : ∀ p, w < p.length → t.root.find p = none
  key : ∀ q, m q ≠ none → ∃ p, p.length ≤ w ∧ prefixKey w p = q
  entries : t.entries = t.root.count

theorem Represents.init : Represents (aipsInit w) (fun _ => (none : Option P)) w where
  maxBits := rfl
  find := fun _ _ => BitTrie.find_nil _
  find_long := fun _ _ => BitTrie.find_nil _
  key := fun _ h => absurd rfl h
  entries := rfl

/-- Setting the prefix of `c` in both keeps the representation. -/
theorem Represents.update {t t' : AipsTrie P} {m : ℕ × ℕ → Option P} (h : Represents t m w)
    (c : Cidr w) (v : Option P) (hm : t'.maxBits = t.maxBits)
    (hf : t'.root.find = Function.update t.root.find (addrBits c.addr 0 c.len) v)
    (he : t'.entries = t'.root.count) : Represents t' (Function.update m c.masked v) w := by
  have hkey : prefixKey w (addrBits c.addr 0 c.len) = c.masked :=
    prefixKey_addrBits c.addr_bits c.len_le
  refine ⟨hm.trans h.maxBits, fun p hp => ?_, fun p hp => ?_, fun q hq => ?_, he⟩
  · rw [hf, ← hkey]
    by_cases hpc : p = addrBits c.addr 0 c.len
    · simp [hpc]
    · have : prefixKey w p ≠ prefixKey w (addrBits c.addr 0 c.len) :=
        fun hk => hpc (prefixKey_inj hk)
      simp [hpc, this, h.find p hp]
  · rw [hf, Function.update_of_ne, h.find_long p hp]
    rintro rfl
    rw [length_addrBits] at hp
    exact absurd c.len_le (by omega)
  · by_cases hqc : q = c.masked
    · exact ⟨_, by rw [length_addrBits]; exact c.len_le, hkey.trans hqc.symm⟩
    · rw [Function.update_of_ne hqc] at hq
      exact h.key q hq

theorem Represents.insert {t : AipsTrie P} {m : ℕ × ℕ → Option P} (h : Represents t m w)
    (c : Cidr w) (peer : P) : Represents (aipsInsert t c.addr c.len peer).2
      (Function.update m c.masked (some peer)) w := by
  have hle : ¬ t.maxBits < c.len := by rw [h.maxBits]; exact not_lt.2 c.len_le
  have hcount := BitTrie.count_insert t.root (addrBits c.addr 0 c.len) peer
  rw [aipsInsert, if_neg hle, aipsInsertLoop_eq]
  refine h.update c (some peer) rfl (BitTrie.find_insert _ _ _) ?_
  simp only [Option.isNone_iff_eq_none, hcount, h.entries]
  split_ifs <;> rfl

theorem aipsRemove_eq {t : AipsTrie P} {m : ℕ × ℕ → Option P} (h : Represents t m w)
    (c : Cidr w) : aipsRemove t c.addr c.len = if m c.masked = none then (-1, t) else
      (0, { t with
        root := t.root.remove (addrBits c.addr 0 c.len), entries := t.entries - 1 }) := by
  have hle : ¬ t.maxBits < c.len := by rw [h.maxBits]; exact not_lt.2 c.len_le
  have hkey : m c.masked = t.root.find (addrBits c.addr 0 c.len) := by
    rw [h.find _ (by rw [length_addrBits]; exact c.len_le), prefixKey_addrBits c.addr_bits c.len_le]
    rfl
  rw [aipsRemove, if_neg hle, aipsRemoveLoop_eq, hkey]
  split_ifs <;> rfl

theorem Represents.remove {t : AipsTrie P} {m : ℕ × ℕ → Option P} (h : Represents t m w)
    (c : Cidr w) :
    Represents (aipsRemove t c.addr c.len).2 (Function.update m c.masked none) w := by
  have hkey : t.root.find (addrBits c.addr 0 c.len) = m c.masked := by
    rw [h.find _ (by rw [length_addrBits]; exact c.len_le), prefixKey_addrBits c.addr_bits c.len_le]
    rfl
  rw [aipsRemove_eq h]
  split_ifs with hm
  · rwa [Function.update_eq_self_iff.2 hm.symm]
  · refine h.update c none rfl (BitTrie.find_remove _ _) ?_
    have hcount := BitTrie.count_remove t.root (addrBits c.addr 0 c.len)
    rw [hkey, if_neg hm] at hcount
    have he := h.entries
    simp only
    omega

theorem represents_after (ops : List (AipsOp P w)) : Represents (aipsAfter ops) (live ops) w := by
  have hrun : ∀ (ops : List (AipsOp P w)) (t : AipsTrie P) (m : ℕ × ℕ → Option P),
      Represents t m w → Represents (ops.foldl AipsOp.apply t) (ops.foldl AipsOp.track m) w := by
    intro ops
    induction ops with
    | nil => exact fun _ _ h => h
    | cons op ops ih =>
      intro t m h
      cases op with
      | insert c peer => exact ih _ _ (h.insert c peer)
      | remove c => exact ih _ _ (h.remove c)
  exact hrun ops _ _ .init

/-- The table read along an address of the right width. -/
theorem Represents.find_take {t : AipsTrie P} {m : ℕ × ℕ → Option P} (h : Represents t m w)
    {addr : Bytes} (ha : 8 * addr.length = w) {n : ℕ} (hn : n ≤ w) :
    t.root.find ((addrBits addr 0 w).take n) = m (mask w addr n, n) := by
  rw [take_addrBits _ hn, h.find _ (by rw [length_addrBits]; exact hn),
    prefixKey_addrBits ha hn]

theorem Represents.entries_eq {t : AipsTrie P} {m : ℕ × ℕ → Option P} (h : Represents t m w) :
    t.entries = {q | m q ≠ none}.ncard := by
  have himage : {q | m q ≠ none} = prefixKey w '' {p | t.root.find p ≠ none} := by
    ext q
    constructor
    · intro hq
      obtain ⟨p, hp, rfl⟩ := h.key q hq
      exact ⟨p, by rwa [Set.mem_ofPred_eq, h.find p hp], rfl⟩
    · rintro ⟨p, hp, rfl⟩
      rcases Nat.lt_or_ge w p.length with hlt | hle
      · exact absurd (h.find_long p hlt) hp
      · rwa [Set.mem_ofPred_eq, ← h.find p hle]
  rw [himage, Set.ncard_image_of_injective _ fun _ _ => prefixKey_inj, h.entries,
    BitTrie.count_eq_ncard]

/-- After any calls, a lookup finds the longest live prefix of the address, the entry count is the
number of live prefixes, and removing a prefix that is not live does nothing and returns `-1`. -/
theorem aips_eq_live (ops : List (AipsOp P w)) :
    (∀ addr : Bytes, 8 * addr.length = w →
      (∀ peer, aipsLookup (aipsAfter ops) addr = some peer ↔
        ∃ n ≤ w, live ops (mask w addr n, n) = some peer
          ∧ ∀ k ≤ w, n < k → live ops (mask w addr k, k) = none)
      ∧ (aipsLookup (aipsAfter ops) addr = none ↔ ∀ n ≤ w, live ops (mask w addr n, n) = none))
    ∧ (aipsAfter ops).entries = {q | live ops q ≠ none}.ncard
    ∧ ∀ c : Cidr w, live ops c.masked = none →
        aipsRemove (aipsAfter ops) c.addr c.len = (-1, aipsAfter ops) := by
  have h := represents_after ops
  refine ⟨fun addr ha => ⟨fun peer => ?_, ?_⟩, h.entries_eq, fun c hc => ?_⟩
  · rw [aipsLookup_eq, longest_eq_some, length_addrBits, h.maxBits]
    refine exists_congr fun n => and_congr_right fun hn => ?_
    rw [h.find_take ha hn]
    refine and_congr_right fun _ => forall_congr' fun k => imp_congr_right fun hk =>
      imp_congr_right fun _ => ?_
    rw [h.find_take ha hk]
  · rw [aipsLookup_eq, longest_eq_none, length_addrBits, h.maxBits]
    refine forall_congr' fun n => imp_congr_right fun hn => ?_
    rw [h.find_take ha hn]
  · rw [aipsRemove_eq h, if_pos hc]

example : aipsLookup (aipsAfter (w := 32)
    [.insert ⟨[10, 0, 0, 0], 8, rfl, by decide⟩ 'A', .insert ⟨[10, 88, 0, 0], 16, rfl, by decide⟩ 'B',
      .insert ⟨[10, 88, 0, 2], 32, rfl, by decide⟩ 'C']) [10, 88, 0, 3] = some 'B' := by
  decide

end PolarWG
