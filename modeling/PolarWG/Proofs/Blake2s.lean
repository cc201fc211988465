import PolarWG.Blake2s
import PolarWG.Lib.Blocks

/-!
# BLAKE2s is RFC 7693's

The function of RFC 7693, section 3, over words of 32 bits, and that the hash of a text does not
depend on the pieces it comes in. With it the Noise layer's hashing is HMAC and HKDF.
-/

namespace PolarWG

open Blocks

/-! ## The function -/

namespace Rfc7693

def rotr (n : ℕ) (w : UInt32) : UInt32 := ⟨w.toBitVec.rotateRight n⟩

/-- Section 2.6: the first 32 bits of the fractional parts of square roots of primes. -/
def iv : List UInt32 :=
  [0x6A09E667, 0xBB67AE85, 0x3C6EF372, 0xA54FF53A, 0x510E527F, 0x9B05688C, 0x1F83D9AB, 0x5BE0CD19]

/-- Section 2.7, one line for each round. -/
def sigma : ℕ → List ℕ
  | 0 => [0, 1, 2, 3, 4, 5, 6, 7, 8, 9, 10, 11, 12, 13, 14, 15]
  | 1 => [14, 10, 4, 8, 9, 15, 13, 6, 1, 12, 0, 2, 11, 7, 5, 3]
  | 2 => [11, 8, 12, 0, 5, 2, 15, 13, 10, 14, 3, 6, 7, 1, 9, 4]
  | 3 => [7, 9, 3, 1, 13, 12, 11, 14, 2, 6, 5, 10, 4, 0, 15, 8]
  | 4 => [9, 0, 5, 7, 2, 4, 10, 15, 14, 1, 11, 12, 6, 8, 3, 13]
  | 5 => [2, 12, 6, 10, 0, 11, 8, 3, 4, 13, 7, 5, 15, 14, 1, 9]
  | 6 => [12, 5, 1, 15, 14, 13, 4, 10, 0, 7, 6, 3, 9, 2, 8, 11]
  | 7 => [13, 11, 7, 14, 12, 1, 3, 9, 5, 0, 15, 4, 8, 6, 2, 10]
  | 8 => [6, 15, 14, 9, 11, 3, 0, 8, 12, 2, 13, 7, 1, 4, 10, 5]
  | _ => [10, 2, 8, 4, 7, 6, 1, 5, 15, 11, 9, 14, 3, 12, 13, 0]

/-- The mixing function `G`. -/
def mix (v : List UInt32) (a b c d : ℕ) (x y : UInt32) : List UInt32 :=
  let v := v.set a (word v a + word v b + x)
  let v := v.set d (rotr 16 (word v d ^^^ word v a))
  let v := v.set c (word v c + word v d)
  let v := v.set b (rotr 12 (word v b ^^^ word v c))
  let v := v.set a (word v a + word v b + y)
  let v := v.set d (rotr 8 (word v d ^^^ word v a))
  let v := v.set c (word v c + word v d)
  v.set b (rotr 7 (word v b ^^^ word v c))

def round (m : List UInt32) (v : List UInt32) (i : ℕ) : List UInt32 :=
  let s := sigma (i % 10)
  let x k := word m (s.getD k 0)
  let v := mix v 0 4 8 12 (x 0) (x 1)
  let v := mix v 1 5 9 13 (x 2) (x 3)
  let v := mix v 2 6 10 14 (x 4) (x 5)
  let v := mix v 3 7 11 15 (x 6) (x 7)
  let v := mix v 0 5 10 15 (x 8) (x 9)
  let v := mix v 1 6 11 12 (x 10) (x 11)
  let v := mix v 2 7 8 13 (x 12) (x 13)
  mix v 3 4 9 14 (x 14) (x 15)

/-- The compression function `F`; `t` is how many bytes came before the end of the block. -/
def compress (h : List UInt32) (block : Bytes) (t : ℕ) (last : Bool) : List UInt32 :=
  let v := h ++ iv
  let v := v.set 12 (word v 12 ^^^ UInt32.ofNat t)
  let v := v.set 13 (word v 13 ^^^ UInt32.ofNat (t / 2 ^ 32))
  let v := if last then v.set 14 (word v 14 ^^^ 0xFFFFFFFF) else v
  let v := (List.range 10).foldl (round (blockWords block)) v
  (List.range 8).map fun i => word h i ^^^ word v i ^^^ word v (i + 8)

/-- The key comes first, in a block of its own. -/
def padded (key m : Bytes) : Bytes :=
  if key = [] then m else key ++ zeros (64 - key.length) ++ m

/-- The last block, filled up, ends where the text does. -/
def blake2s (nn : ℕ) (key m : Bytes) : Bytes :=
  let d := padded key m
  let dd := max 1 ((d.length + 63) / 64)
  let h := iv.set 0 (word iv 0 ^^^ (0x01010000 ^^^ UInt32.ofNat (key.length * 2 ^ 8) ^^^
    UInt32.ofNat nn))
  let h := (List.range (dd - 1)).foldl
    (fun h i => compress h (slice (i * 64) 64 d) ((i + 1) * 64) false) h
  let final := d.drop ((dd - 1) * 64)
  let h := compress h (final ++ zeros (64 - final.length)) d.length true
  (h.flatMap le32enc).take nn

end Rfc7693

/-! ## Compression -/

theorem blake2sG_eq (m : List UInt32) (r i a b c d : ℕ) (v : List UInt32) :
    blake2sG m r i a b c d v
      = Rfc7693.mix v a b c d (word m (sigma r (2 * i))) (word m (sigma r (2 * i + 1))) := by
  simp only [blake2sG, Rfc7693.mix, add_assoc]
  rfl

theorem sigma_eq {r : ℕ} (h : r < 10) : blake2sSigma.getD r [] = Rfc7693.sigma (r % 10) := by
  interval_cases r <;> rfl

theorem blake2sRound_eq (m v : List UInt32) {r : ℕ} (h : r < 10) :
    blake2sRound m v r = Rfc7693.round m v r := by
  simp only [blake2sRound, Rfc7693.round, blake2sG_eq, sigma, sigma_eq h]

theorem rounds_eq (m v : List UInt32) : [0, 1, 2, 3, 4, 5, 6, 7, 8, 9].foldl (blake2sRound m) v
    = (List.range 10).foldl (Rfc7693.round m) v := by
  refine List.foldl_ext _ _ v fun v r hr => ?_
  exact blake2sRound_eq m v (List.mem_range.mp hr)

/-- The counter in two words. -/
structure Counted64 (state : Blake2sState) (t : ℕ) : Prop where
  low : state.t0 = UInt32.ofNat t
  high : state.t1 = UInt32.ofNat (t / 2 ^ 32)

theorem Counted64.increment {state : Blake2sState} {t k : ℕ} (h : Counted64 state t)
    (hk : k < 2 ^ 32) : Counted64 (blake2sIncrementCounter state (UInt32.ofNat k)) (t + k) where
  low := by
    rw [blake2sIncrementCounter, h.low, UInt32.ofNat_add]
  high := by
    have hlt : state.t0 + UInt32.ofNat k < UInt32.ofNat k ↔ 2 ^ 32 ≤ t % 2 ^ 32 + k := by
      rw [h.low, UInt32.lt_iff_toNat_lt, UInt32.toNat_add, UInt32.toNat_ofNat', UInt32.toNat_ofNat',
        Nat.mod_eq_of_lt hk]
      omega
    have hdiv : (t + k) / 2 ^ 32 = t / 2 ^ 32 + if 2 ^ 32 ≤ t % 2 ^ 32 + k then 1 else 0 := by
      split <;> omega
    simp only [blake2sIncrementCounter, hlt]
    rw [hdiv, UInt32.ofNat_add, h.high]
    split <;> rfl

/-- What every state of the hash has. -/
structure Shaped (state : Blake2sState) : Prop where
  words : state.h.length = 8
  node : state.f1 = 0

theorem eight_words : ∀ {h : List UInt32}, h.length = 8 →
    ∃ h0 h1 h2 h3 h4 h5 h6 h7, h = [h0, h1, h2, h3, h4, h5, h6, h7]
  | [h0, h1, h2, h3, h4, h5, h6, h7], _ => ⟨h0, h1, h2, h3, h4, h5, h6, h7, rfl⟩

theorem compressBlock_h {state : Blake2sState} (hs : Shaped state) {t k : ℕ} {last : Bool}
    (ht : Counted64 state t) (hk : k < 2 ^ 32) (hf : state.f0 = if last then -1 else 0)
    (block : Bytes) : (blake2sCompressBlock state block (UInt32.ofNat k)).h
      = Rfc7693.compress state.h block (t + k) last := by
  obtain ⟨hlow, hhigh⟩ := ht.increment hk
  have hf0 : (blake2sIncrementCounter state (UInt32.ofNat k)).f0 = state.f0 := rfl
  have hf1 : (blake2sIncrementCounter state (UInt32.ofNat k)).f1 = 0 := hs.node
  have hh : (blake2sIncrementCounter state (UInt32.ofNat k)).h = state.h := rfl
  simp only [blake2sCompressBlock, Rfc7693.compress, rounds_eq, hlow, hhigh, hf0, hf1, hf, hh,
    ← UInt32.xor_assoc]
  obtain ⟨h0, h1, h2, h3, h4, h5, h6, h7, hw⟩ := eight_words hs.words
  rw [hw]
  cases last <;> rfl

theorem compressBlock_shaped {state : Blake2sState} (hs : Shaped state) (block : Bytes)
    (inc : UInt32) : Shaped (blake2sCompressBlock state block inc) where
  words := by simp [blake2sCompressBlock]
  node := hs.node

/-! ## Streams -/

/-- A block that is not the last, with the bytes before it counted. -/
def absorbBlock (s : List UInt32 × ℕ) (block : Bytes) : List UInt32 × ℕ :=
  (Rfc7693.compress s.1 block (s.2 + 64) false, s.2 + 64)

/-- A state that has taken these blocks. -/
structure Took (outlen : ℕ) (state : Blake2sState) (s : List UInt32 × ℕ) : Prop where
  shaped : Shaped state
  h : state.h = s.1
  count : Counted64 state s.2
  more : state.f0 = 0
  outlen : state.outlen = outlen

theorem Took.setBuf {outlen : ℕ} {state : Blake2sState} {s : List UInt32 × ℕ}
    (h : Took outlen state s) (buf : Bytes) : Took outlen { state with buf } s :=
  ⟨⟨h.shaped.words, h.shaped.node⟩, h.h, ⟨h.count.low, h.count.high⟩, h.more, h.outlen⟩

theorem Took.block {outlen : ℕ} {state : Blake2sState} {s : List UInt32 × ℕ}
    (h : Took outlen state s) (block : Bytes) :
    Took outlen (blake2sCompressBlock state block 64) (absorbBlock s block) where
  shaped := compressBlock_shaped h.shaped block 64
  h := by
    have hmore : state.f0 = if false then -1 else 0 := h.more
    have hblock := compressBlock_h (k := 64) h.shaped h.count (by decide) hmore block
    rw [h.h] at hblock
    exact hblock
  count := by
    have hinc := h.count.increment (k := 64) (by decide)
    exact ⟨hinc.low, hinc.high⟩
  more := h.more
  outlen := h.outlen

theorem Took.blocks {outlen : ℕ} : ∀ {n : ℕ} {m : Bytes} {state : Blake2sState}
    {s : List UInt32 × ℕ}, Took outlen state s →
    Took outlen (blake2sCompress state m n 64) ((firsts 64 n m).foldl absorbBlock s)
  | 0, _, _, _, h => h
  | n + 1, m, state, s, h => by
    rw [blake2sCompress, firsts_cons, List.foldl_cons]
    exact (h.block _).blocks

theorem blake2sCompress_buf (inc : UInt32) : ∀ (n : ℕ) (m : Bytes) (state : Blake2sState),
    (blake2sCompress state m n inc).buf = state.buf
  | 0, _, _ => rfl
  | n + 1, m, state => by
    rw [blake2sCompress, blake2sCompress_buf inc n]
    rfl

/-- A state and what it has absorbed. -/
structure Follows (outlen : ℕ) (state : Blake2sState) (s : Absorber UInt8 (List UInt32 × ℕ)) :
    Prop where
  took : Took outlen state s.acc
  buf : state.buf = s.buf

theorem Follows.update {outlen : ℕ} {state : Blake2sState}
    {s : Absorber UInt8 (List UInt32 × ℕ)} (h : Follows outlen state s) (hlen : s.buf.length ≤ 64)
    (m : Bytes) : Follows outlen (blake2sUpdate state m) (Blocks.update 64 absorbBlock s m) := by
  obtain ⟨htook, hbuf⟩ := h
  unfold blake2sUpdate Blocks.update
  simp only [blake2sBlockSize, List.length_eq_zero_iff, hbuf]
  split
  · exact ⟨htook, hbuf⟩
  by_cases hfill : 64 - s.buf.length < m.length
  · have hblock : (s.buf ++ m.take (64 - s.buf.length)).length = 64 := by
      rw [List.length_append, List.length_take]
      omega
    have hfull : Took outlen (blake2sCompress state (s.buf ++ m.take (64 - s.buf.length)) 1 64)
        (absorbBlock s.acc (s.buf ++ m.take (64 - s.buf.length))) := by
      have hone := htook.blocks (n := 1) (m := s.buf ++ m.take (64 - s.buf.length))
      rwa [firsts_cons, List.take_of_length_le hblock.le] at hone
    simp only [if_pos hfill]
    split
    · exact ⟨((hfull.setBuf []).blocks).setBuf _, by simp only [blake2sCompress_buf]⟩
    · exact ⟨(hfull.setBuf []).setBuf _, rfl⟩
  · simp only [if_neg hfill]
    split
    · exact ⟨htook.blocks.setBuf _, by simp only [blake2sCompress_buf, hbuf]⟩
    · exact ⟨htook.setBuf _, by simp only [hbuf]⟩

/-- A state that has absorbed a text from `init` on. -/
def Fed (outlen : ℕ) (init : List UInt32) (m : Bytes) (state : Blake2sState) : Prop :=
  ∃ s, Follows outlen state s ∧ Absorbed 64 absorbBlock (init, 0) m s

theorem Fed.update {outlen : ℕ} {init : List UInt32} {m : Bytes} {state : Blake2sState}
    (h : Fed outlen init m state) (m₂ : Bytes) : Fed outlen init (m ++ m₂) (blake2sUpdate state m₂) := by
  obtain ⟨s, hs, hm⟩ := h
  have hlen : s.buf.length ≤ 64 := hm.buf ▸ length_rest_le (by decide) m
  exact ⟨_, hs.update hlen m₂, hm.update (by decide) m₂⟩

theorem Fed.updates {outlen : ℕ} {init : List UInt32} : ∀ (ms : List Bytes) {m : Bytes}
    {state : Blake2sState}, Fed outlen init m state →
    Fed outlen init (m ++ ms.flatten) (ms.foldl blake2sUpdate state)
  | [], m, state, h => by simpa using h
  | m₂ :: ms, m, state, h => by
    rw [List.foldl_cons, List.flatten_cons, ← List.append_assoc]
    exact Fed.updates ms (h.update m₂)

theorem Fed.init (outlen : ℕ) {param : UInt32} :
    Fed outlen (blake2sInitParam param).h [] { blake2sInitParam param with outlen } :=
  ⟨_, ⟨⟨⟨rfl, rfl⟩, rfl, ⟨rfl, by simp [blake2sInitParam]⟩, rfl, rfl⟩, rfl⟩, Absorbed.nil _⟩

theorem absorbed_firsts (init : List UInt32) (d : Bytes) : ∀ n : ℕ,
    (firsts 64 n d).foldl absorbBlock (init, 0)
      = ((List.range n).foldl (fun h i => Rfc7693.compress h (slice (i * 64) 64 d) ((i + 1) * 64)
        false) init, n * 64)
  | 0 => rfl
  | n + 1 => by
    rw [firsts_succ, List.foldl_append, absorbed_firsts init d n, List.range_succ, List.foldl_append]
    simp only [List.foldl_cons, List.foldl_nil, absorbBlock, slice, Nat.mul_comm 64 n, Nat.add_mul,
      Nat.one_mul]

theorem last_count (d : Bytes) : max 1 ((d.length + 63) / 64) - 1 = Blocks.count 64 d := by
  unfold Blocks.count
  omega

theorem Fed.final {outlen : ℕ} {init : List UInt32} {d : Bytes} {state : Blake2sState}
    (h : Fed outlen init d state) : blake2sFinal state
      = ((Rfc7693.compress
          ((List.range (Blocks.count 64 d)).foldl
            (fun h i => Rfc7693.compress h (slice (i * 64) 64 d) ((i + 1) * 64) false) init)
          (d.drop (Blocks.count 64 d * 64)
            ++ zeros (64 - (d.drop (Blocks.count 64 d * 64)).length)) d.length
          true).flatMap le32enc).take outlen := by
  obtain ⟨s, ⟨htook, hbuf⟩, hm⟩ := h
  have hle := count_mul_le (b := 64) d
  have hrest : state.buf = d.drop (Blocks.count 64 d * 64) := by
    rw [hbuf, hm.buf, rest, Nat.mul_comm]
  have hlen : state.buf.length ≤ 64 := by
    rw [hbuf, hm.buf]
    exact length_rest_le (by decide) d
  have hblock : (state.buf ++ zeros (64 - state.buf.length)).take 64
      = state.buf ++ zeros (64 - state.buf.length) := by
    apply List.take_of_length_le
    rw [List.length_append, zeros, List.length_replicate]
    omega
  have hacc := hm.acc.trans (absorbed_firsts init d _)
  have hh : state.h = s.acc.1 := htook.h
  have hcount : s.acc.2 + state.buf.length = d.length := by
    rw [hacc, hrest, List.length_drop]
    simp only
    omega
  have hlast : Counted64 (blake2sSetLastblock state) s.acc.2 := ⟨htook.count.low, htook.count.high⟩
  have hshaped : Shaped (blake2sSetLastblock state) := ⟨htook.shaped.words, htook.shaped.node⟩
  have hflag : (blake2sSetLastblock state).f0 = if true then -1 else 0 := rfl
  have hfinal := compressBlock_h (k := state.buf.length) hshaped hlast (by omega) hflag
    (state.buf ++ zeros (64 - state.buf.length))
  simp only [blake2sFinal, blake2sCompress, blake2sBlockSize]
  have hbuf' : (blake2sSetLastblock state).buf = state.buf := rfl
  have hout : (blake2sCompressBlock (blake2sSetLastblock state)
      (state.buf ++ zeros (64 - state.buf.length)) (UInt32.ofNat state.buf.length)).outlen
        = outlen := htook.outlen
  rw [hbuf', hblock, hfinal, hout, hcount]
  have hh' : (blake2sSetLastblock state).h = s.acc.1 := hh
  rw [hh', hacc, hrest]

/-! ## The hash -/

theorem param_eq {k n : ℕ} (hk : k ≤ 32) (hn : n ≤ 32) :
    (0x01010000 : UInt32) ||| UInt32.ofNat k <<< 8 ||| UInt32.ofNat n
      = 0x01010000 ^^^ UInt32.ofNat (k * 2 ^ 8) ^^^ UInt32.ofNat n := by
  have hall : ∀ k : Fin 33, ∀ n : Fin 33,
      (0x01010000 : UInt32) ||| UInt32.ofNat k <<< 8 ||| UInt32.ofNat n
        = 0x01010000 ^^^ UInt32.ofNat (k * 2 ^ 8) ^^^ UInt32.ofNat n := by decide +kernel
  exact hall ⟨k, by omega⟩ ⟨n, by omega⟩

/-- The words that a hash of this length starts from under a key. -/
def startWords (outlen : ℕ) (key : Bytes) : List UInt32 :=
  Rfc7693.iv.set 0 (word Rfc7693.iv 0 ^^^
    (0x01010000 ^^^ UInt32.ofNat (key.length * 2 ^ 8) ^^^ UInt32.ofNat outlen))

theorem start_fed {outlen : ℕ} {key : Bytes} (ho : outlen ≤ 32) (hk : key.length ≤ 32) :
    Fed outlen (startWords outlen key) (Rfc7693.padded key []) (blake2sStart outlen key) := by
  have hparam := param_eq hk ho
  unfold blake2sStart Rfc7693.padded startWords
  rw [← hparam]
  by_cases hnil : key = []
  · subst hnil
    exact Fed.init outlen
  · have hpos : key.length ≠ 0 := by simpa using hnil
    rw [if_pos hpos, if_neg hnil, List.append_nil]
    exact (Fed.init outlen).update (key ++ zeros (64 - key.length))

theorem blake2sOf_eq {outlen : ℕ} {key : Bytes} (ms : List Bytes) (ho : outlen ≤ 32)
    (hk : key.length ≤ 32) :
    Streamed.blake2sOf outlen key ms = Rfc7693.blake2s outlen key ms.flatten := by
  have hfed := Fed.updates ms (start_fed ho hk)
  have hpad : Rfc7693.padded key [] ++ ms.flatten = Rfc7693.padded key ms.flatten := by
    unfold Rfc7693.padded
    split <;> simp
  rw [hpad] at hfed
  simp only [Streamed.blake2sOf, Rfc7693.blake2s, last_count]
  exact hfed.final

/-- The hash of a text is RFC 7693's, whatever pieces the text comes in. -/
theorem blake2s_chunking (outlen : ℕ) (key : Bytes) (ms : List Bytes) (ho : outlen ≤ 32)
    (hk : key.length ≤ 32) :
    Streamed.blake2sOf outlen key ms = Rfc7693.blake2s outlen key ms.flatten :=
  blake2sOf_eq ms ho hk

theorem blake2s_chunking_abc :
    Streamed.blake2sOf 32 [] [[0x61], [], [0x62, 0x63]] = Rfc7693.blake2s 32 [] [0x61, 0x62, 0x63] :=
  blake2s_chunking 32 [] [[0x61], [], [0x62, 0x63]] (by decide) (by decide)

/-! ## The Noise layer's hashing -/

/-- RFC 2104 over the hash of 32 bytes, whose blocks have 64. -/
def rfcHmac (key text : Bytes) : Bytes :=
  let H := Rfc7693.blake2s 32 []
  let k := if 64 < key.length then H key else key
  let k := k ++ zeros (64 - k.length)
  H (k.map (· ^^^ 0x5c) ++ H (k.map (· ^^^ 0x36) ++ text))

/-- RFC 5869's `T(1)` to `T(n)` in a row, without any info, and the last one of them. -/
def hkdfBlocks (prk : Bytes) : ℕ → Bytes × Bytes
  | 0 => ([], [])
  | n + 1 =>
    let (okm, t) := hkdfBlocks prk n
    let t := rfcHmac prk (t ++ [UInt8.ofNat (n + 1)])
    (okm ++ t, t)

/-- RFC 5869: extracted with the salt, then expanded to this length. -/
def hkdf (salt ikm : Bytes) (len : ℕ) : Bytes :=
  ((hkdfBlocks (rfcHmac salt ikm) ((len + 31) / 32)).1).take len

theorem length_rfcBlake2s (key m : Bytes) {n : ℕ} (h : n ≤ 32) :
    (Rfc7693.blake2s n key m).length = n := by
  simp only [Rfc7693.blake2s, Rfc7693.compress, List.length_take, List.length_flatMap, List.map_map]
  have hsum : ((List.range 8).map (fun _ => 4)).sum = 32 := rfl
  simp only [Function.comp_def, length_le32enc, hsum]
  omega

theorem length_rfcHmac (key text : Bytes) : (rfcHmac key text).length = 32 :=
  length_rfcBlake2s _ _ le_rfl

/-- The same key, once as it goes into the inner hash and once as it goes into the outer one. -/
theorem xor_pads (k : Bytes) :
    (k.map (· ^^^ 0x36)).map (· ^^^ (0x5c ^^^ 0x36)) = k.map (· ^^^ (0x5c : UInt8)) := by
  rw [List.map_map]
  refine List.map_congr_left fun x _ => ?_
  have hpad : (0x36 ^^^ (0x5c ^^^ 0x36) : UInt8) = 0x5c := by decide
  rw [Function.comp_apply, UInt8.xor_assoc, hpad]

theorem streamedHmac_eq (outlen : ℕ) (text key : Bytes) :
    Streamed.hmac outlen text key = (rfcHmac key text).take outlen := by
  have hH : ∀ ms, Streamed.blake2sOf 32 [] ms = Rfc7693.blake2s 32 [] ms.flatten := fun ms =>
    blake2sOf_eq ms le_rfl (by decide)
  simp only [Streamed.hmac, rfcHmac, blake2sBlockSize, blake2sHashSize, hH, xor_pads,
    List.flatten_cons, List.flatten_nil, List.append_nil]

theorem streamedHmac_hash (text key : Bytes) : Streamed.hmac 32 text key = rfcHmac key text := by
  rw [streamedHmac_eq, List.take_of_length_le (length_rfcHmac key text).le]

/-- What the keys are derived with is HKDF: each is taken from 32 bytes of its output. -/
theorem kdf_hkdf {aLen : ℕ} (bLen cLen : ℕ) (x ck : Bytes) (ha : aLen ≤ 32) :
    Streamed.noiseKdf aLen bLen cLen x ck
      = ((hkdf ck x 96).take aLen, if aLen = 0 then [] else (slice 32 32 (hkdf ck x 96)).take bLen,
        if aLen = 0 ∨ bLen = 0 then [] else (slice 64 32 (hkdf ck x 96)).take cLen) := by
  set prk := rfcHmac ck x with hprk
  set t1 := rfcHmac prk [1] with ht1
  set t2 := rfcHmac prk (t1 ++ [2]) with ht2
  set t3 := rfcHmac prk (t2 ++ [3]) with ht3
  have h1 : t1.length = 32 := length_rfcHmac _ _
  have h2 : t2.length = 32 := length_rfcHmac _ _
  have h3 : t3.length = 32 := length_rfcHmac _ _
  have hokm : hkdf ck x 96 = t1 ++ (t2 ++ t3) := by
    have hblocks : hkdf ck x 96 = ([] ++ t1 ++ t2 ++ t3).take 96 := rfl
    rw [hblocks, List.take_of_length_le (by simp [h1, h2, h3]), List.nil_append, List.append_assoc]
  have ha' : (hkdf ck x 96).take aLen = t1.take aLen := by
    rw [hokm, List.take_append_of_le_length (h1.symm ▸ ha)]
  have hb' : slice 32 32 (hkdf ck x 96) = t2 := by
    rw [hokm, slice, List.drop_left' h1, List.take_left' h2]
  have hc' : slice 64 32 (hkdf ck x 96) = t3 := by
    rw [hokm, slice, ← List.append_assoc, List.drop_left' (by rw [List.length_append, h1, h2]),
      List.take_of_length_le h3.le]
  simp only [Streamed.noiseKdf, blake2sHashSize, streamedHmac_hash, ← hprk, ← ht1, ← ht2, ← ht3,
    ha', hb', hc']
  by_cases h0 : aLen = 0
  · simp [h0]
  by_cases h0' : bLen = 0
  · simp [h0, h0']
  by_cases h0'' : cLen = 0
  · simp [h0, h0', h0'']
  · simp [h0, h0', h0'']

theorem kdf_hkdf_zero : Streamed.noiseKdf 32 0 0 (zeros 32) (zeros 32)
    = ((hkdf (zeros 32) (zeros 32) 96).take 32, [], []) :=
  (kdf_hkdf 0 0 (zeros 32) (zeros 32) le_rfl).trans rfl

/-! ## The primitives of a session -/

/-- The primitives with this hash in them. -/
def Prims.withBlake2s (p : Prims) : Prims := { p with blake2s := PolarWG.blake2s }

theorem blake2s_eq {outlen : ℕ} {key m : Bytes} (ho : outlen ≤ 32) (hk : key.length ≤ 32) :
    PolarWG.blake2s outlen key m = Rfc7693.blake2s outlen key m := by
  have h := blake2sOf_eq [m] ho hk
  rwa [List.flatten_cons, List.flatten_nil, List.append_nil] at h

theorem hmac_withBlake2s (p : Prims) (text key : Bytes) :
    hmac p.withBlake2s text key = rfcHmac key text := by
  have hH : ∀ m, p.withBlake2s.blake2s 32 [] m = Rfc7693.blake2s 32 [] m := fun m =>
    blake2s_eq le_rfl (by decide)
  simp only [hmac, rfcHmac, hH]

/-- With it the Noise layer's hashing is what the code comes to by pieces. -/
theorem noise_hashing (p : Prims) (x ck hash src : Bytes) :
    noiseKdf p.withBlake2s x ck = Streamed.noiseKdf 32 32 32 x ck
      ∧ noiseMixHash p.withBlake2s hash src = Streamed.noiseMixHash hash src
      ∧ noiseParamInit p.withBlake2s src = Streamed.noiseParamInit src := by
  have hH : ∀ m, p.withBlake2s.blake2s 32 [] m = Rfc7693.blake2s 32 [] m := fun m =>
    blake2s_eq le_rfl (by decide)
  have hpieces : ∀ ms, Streamed.blake2sOf 32 [] ms = Rfc7693.blake2s 32 [] ms.flatten := fun ms =>
    blake2sOf_eq ms le_rfl (by decide)
  have hmix : ∀ hash src, noiseMixHash p.withBlake2s hash src = Streamed.noiseMixHash hash src := by
    intro hash src
    simp only [noiseMixHash, Streamed.noiseMixHash, hH, hpieces, List.flatten_cons,
      List.flatten_nil, List.append_nil]
  refine ⟨?_, hmix hash src, ?_⟩
  · simp [noiseKdf, Streamed.noiseKdf, hmac_withBlake2s, streamedHmac_hash, blake2sHashSize,
      List.take_of_length_le, length_rfcHmac]
  · have hname : p.withBlake2s.blake2s 32 [] noiseHandshakeName
        = PolarWG.blake2s 32 [] noiseHandshakeName := rfl
    have hid : ∀ ck, p.withBlake2s.blake2s 32 [] (ck ++ noiseIdentifierName)
        = Streamed.blake2sOf 32 [] [ck, noiseIdentifierName] := by
      intro ck
      simp only [hH, hpieces, List.flatten_cons, List.flatten_nil, List.append_nil]
    simp only [noiseParamInit, Streamed.noiseParamInit, hmix, hname, hid]

end PolarWG
