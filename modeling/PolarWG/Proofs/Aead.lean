import PolarWG.Aead
import PolarWG.Proofs.Poly1305

/-!
# What is opened was sealed

The reference cipher takes each byte with the stream at its place. A text is opened to a plaintext
exactly where it is that plaintext sealed, by flat buffers and by packet buffers.
-/

namespace PolarWG

/-! ## The reference cipher -/

def rotateLeft32 (n : ℕ) (v : UInt32) : UInt32 := ⟨v.toBitVec.rotateLeft n⟩

/-- The quarter round of four words. -/
def chachaQuarter (a b c d : UInt32) : UInt32 × UInt32 × UInt32 × UInt32 :=
  let a := a + b
  let d := rotateLeft32 16 (d ^^^ a)
  let c := c + d
  let b := rotateLeft32 12 (b ^^^ c)
  let a := a + b
  let d := rotateLeft32 8 (d ^^^ a)
  let c := c + d
  let b := rotateLeft32 7 (b ^^^ c)
  (a, b, c, d)

theorem place_lt (i : Fin 16) : i.val < 16 := i.isLt

/-- A quarter round at four places of the state. -/
def chachaAt (x : ChaChaState) (i j k l : Fin 16) : ChaChaState :=
  let (a, b, c, d) := chachaQuarter (x.get i) (x.get j) (x.get k) (x.get l)
  (((x.set i a (place_lt i)).set j b (place_lt j)).set k c (place_lt k)).set l d (place_lt l)

/-- The state as a square. -/
def cell (row column : Fin 4) : Fin 16 := ⟨4 * row + column, by omega⟩

/-- The columns, and the diagonals. -/
def chachaInner (x : ChaChaState) : ChaChaState :=
  let x := (List.finRange 4).foldl
    (fun x j => chachaAt x (cell 0 j) (cell 1 j) (cell 2 j) (cell 3 j)) x
  (List.finRange 4).foldl
    (fun x j => chachaAt x (cell 0 j) (cell 1 (j + 1)) (cell 2 (j + 2)) (cell 3 (j + 3))) x

/-- The constants, the key, and the four words of `tail`. -/
def chachaInput (key : Bytes) (tail : Fin 4 → UInt32) : ChaChaState :=
  Vector.ofFn fun i =>
    if i.val < 4 then le32dec (slice (4 * i) 4 (ascii "expand 32-byte k"))
    else if i.val < 12 then le32dec (slice (4 * (i - 4)) 4 key)
    else tail (Fin.ofNat 4 i)

def chachaBlock (key nonce : Bytes) (counter : ℕ) : Bytes :=
  let x := chachaInput key
    (Fin.cons (UInt32.ofNat counter) fun i => le32dec (slice (4 * i) 4 nonce))
  (Vector.zipWith (· + ·) (chachaInner^[10] x) x).toList.flatMap le32enc

/-- Byte `k` meets byte `k` of the stream. -/
def chachaEncrypt (key nonce : Bytes) (counter : ℕ) (m : Bytes) : Bytes :=
  m.mapIdx fun k b => b ^^^ (chachaBlock key nonce (counter + k / 64)).getD (k % 64) 0

/-- The key for a long nonce: the outer rows of the state. -/
def hchachaKey (key nonce16 : Bytes) : Bytes :=
  let x := chachaInner^[10] (chachaInput key fun i => le32dec (slice (4 * i) 4 nonce16))
  (x.toList.take 4 ++ x.toList.drop 12).flatMap le32enc

def pad16 (bs : Bytes) : Bytes := zeros ((16 - bs.length % 16) % 16)

def aeadMacData (ad ct : Bytes) : Bytes :=
  ad ++ pad16 ad ++ ct ++ pad16 ct ++ leEnc 8 ad.length ++ leEnc 8 ct.length

def aeadTag (key nonce ad ct : Bytes) : Bytes :=
  poly1305Mac ((chachaBlock key nonce 0).take 32) (aeadMacData ad ct)

def aeadSeal (key nonce ad m : Bytes) : Bytes :=
  let ct := chachaEncrypt key nonce 1 m
  ct ++ aeadTag key nonce ad ct

/-! ## The stream -/

/-- A quarter of a quarter round. -/
def mixAt (x : ChaChaState) (a b d : Fin 16) (n : UInt32) : ChaChaState :=
  let x := x.set a (x.get a + x.get b) (place_lt a)
  let x := x.set d (x.get d ^^^ x.get a) (place_lt d)
  x.set d (rotl32 (x.get d) n) (place_lt d)

def putWords (x : ChaChaState) (a b c d : Fin 16) (va vb vc vd : UInt32) : ChaChaState :=
  (((x.set a va (place_lt a)).set b vb (place_lt b)).set c vc (place_lt c)).set d vd (place_lt d)

section putWords
variable {x : ChaChaState} {a b c d : Fin 16} {va vb vc vd : UInt32}

theorem mixAt_putWords (h : [a, b, c, d].Nodup) (n : UInt32) :
    mixAt (putWords x a b c d va vb vc vd) a b d n
      = putWords x a b c d (va + vb) vb vc (rotl32 (vd ^^^ (va + vb)) n) := by
  simp only [List.nodup_cons, List.mem_cons, List.not_mem_nil, not_or, Fin.ext_iff] at h
  obtain ⟨⟨hab, hac, had, -⟩, ⟨hbc, hbd, -⟩, ⟨hcd, -⟩, -⟩ := h
  refine Vector.ext fun i hi => ?_
  simp only [mixAt, putWords, Vector.get_eq_getElem, Vector.getElem_set]
  grind

theorem mixAt_putWords' (h : [a, b, c, d].Nodup) (n : UInt32) :
    mixAt (putWords x a b c d va vb vc vd) c d b n
      = putWords x a b c d va (rotl32 (vb ^^^ (vc + vd)) n) (vc + vd) vd := by
  simp only [List.nodup_cons, List.mem_cons, List.not_mem_nil, not_or, Fin.ext_iff] at h
  obtain ⟨⟨hab, hac, had, -⟩, ⟨hbc, hbd, -⟩, ⟨hcd, -⟩, -⟩ := h
  refine Vector.ext fun i hi => ?_
  simp only [mixAt, putWords, Vector.get_eq_getElem, Vector.getElem_set]
  grind

theorem quarterRound_eq (x : ChaChaState) (h : [a, b, c, d].Nodup) :
    quarterRound x a b c d = chachaAt x a b c d := by
  have hself : x = putWords x a b c d x[a] x[b] x[c] x[d] := by
    refine Vector.ext fun i hi => ?_
    simp only [putWords, Vector.getElem_set, Fin.getElem_fin]
    grind
  have hmix : quarterRound x a b c d
      = mixAt (mixAt (mixAt (mixAt x a b d 16) c d b 12) a b d 8) c d b 7 := rfl
  rw [hmix]
  conv_lhs => rw [hself, mixAt_putWords h, mixAt_putWords' h, mixAt_putWords h, mixAt_putWords' h]
  rfl

end putWords

theorem doubleRound_eq : doubleRound = chachaInner := by
  funext x
  unfold doubleRound
  rw [quarterRound_eq _ (by decide), quarterRound_eq _ (by decide), quarterRound_eq _ (by decide),
    quarterRound_eq _ (by decide), quarterRound_eq _ (by decide), quarterRound_eq _ (by decide),
    quarterRound_eq _ (by decide), quarterRound_eq _ (by decide)]
  rfl

theorem chachaInput_eq (key : Bytes) (tail : Fin 4 → UInt32) : chachaInput key tail
    = #v[0x61707865, 0x3320646e, 0x79622d32, 0x6b206574,
      le32dec (slice 0 4 key), le32dec (slice 4 4 key), le32dec (slice 8 4 key),
      le32dec (slice 12 4 key), le32dec (slice 16 4 key), le32dec (slice 20 4 key),
      le32dec (slice 24 4 key), le32dec (slice 28 4 key), tail 0, tail 1, tail 2, tail 3] := by
  have hconst : ∀ i < 4, le32dec (slice (4 * i) 4 (ascii "expand 32-byte k"))
      = [0x61707865, 0x3320646e, 0x79622d32, 0x6b206574].getD i 0 := by decide
  refine Vector.ext fun i hi => ?_
  simp only [chachaInput, Vector.getElem_ofFn]
  by_cases h : i < 4
  · rw [if_pos h, hconst i h]
    interval_cases i <;> rfl
  · rw [if_neg h]
    interval_cases i <;> first | omega | rfl

theorem chacha20State_eq (key nonce : Bytes) (ctr : UInt32) : chacha20State key nonce ctr
    = chachaInput key (Fin.cons ctr fun i => le32dec (slice (4 * i) 4 nonce)) := by
  rw [chachaInput_eq]
  rfl

theorem le32enc_eq (v : UInt32) :
    [v.toUInt8, (v >>> 8).toUInt8, (v >>> 16).toUInt8, (v >>> 24).toUInt8] = le32enc v := by
  have hbyte : ∀ x : UInt32, x.toUInt8 = UInt8.ofNat x.toNat := fun x => rfl
  simp only [hbyte, UInt32.toNat_shiftRight]
  show _ = leEnc 4 v.toNat
  simp only [leEnc, Nat.div_div_eq_div_mul]
  simp [Nat.shiftRight_eq_div_pow]

theorem chacha20Block_eq (key nonce : Bytes) (ctr : ℕ) :
    chacha20Block (chacha20State key nonce (UInt32.ofNat ctr)) = chachaBlock key nonce ctr := by
  rw [chacha20State_eq, chacha20Block, chachaBlock, doubleRound_eq]
  generalize chachaInput _ _ = x
  have hlist : ∀ v : ChaChaState, v.toList = (List.finRange 16).map (v[·]) := fun v =>
    List.ext_getElem (by simp) (by simp)
  simp only [le32enc_eq]
  rw [hlist, List.flatMap_map]
  simp only [Fin.getElem_fin, Vector.getElem_zipWith]

theorem length_chachaBlock (key nonce : Bytes) (ctr : ℕ) : (chachaBlock key nonce ctr).length = 64 := by
  have hbytes : ∀ ws : List UInt32, (ws.flatMap le32enc).length = 4 * ws.length := fun ws => by
    rw [List.length_flatMap, List.map_congr_left (g := fun _ => 4) fun w _ => length_le32enc w,
      List.map_const', List.sum_replicate, smul_eq_mul, Nat.mul_comm]
  rw [chachaBlock, hbytes, Vector.length_toList]

theorem chachaEncrypt_short (key nonce : Bytes) (ctr : ℕ) {m : Bytes} (h : m.length ≤ 64) :
    chachaEncrypt key nonce ctr m = List.zipWith (· ^^^ ·) m (chachaBlock key nonce ctr) := by
  have hlen := length_chachaBlock key nonce ctr
  refine List.ext_getElem ?_ fun k h1 h2 => ?_
  · rw [chachaEncrypt, List.length_mapIdx, List.length_zipWith, hlen, Nat.min_eq_left h]
  · have hk : k < 64 := by
      rw [chachaEncrypt, List.length_mapIdx] at h1
      omega
    simp only [chachaEncrypt, List.getElem_mapIdx, List.getElem_zipWith]
    rw [Nat.div_eq_of_lt hk, Nat.mod_eq_of_lt hk, Nat.add_zero,
      List.getD_eq_getElem _ _ (by omega)]

theorem chachaEncrypt_append (key nonce : Bytes) (ctr : ℕ) {a : Bytes} (h : a.length = 64)
    (b : Bytes) : chachaEncrypt key nonce ctr (a ++ b)
      = chachaEncrypt key nonce ctr a ++ chachaEncrypt key nonce (ctr + 1) b := by
  have hnext : ∀ k, ctr + (k + 64) / 64 = ctr + 1 + k / 64 := fun k => by omega
  rw [chachaEncrypt, List.mapIdx_append, h]
  simp only [hnext, Nat.add_mod_right]
  rfl

theorem length_chachaEncrypt (key nonce : Bytes) (ctr : ℕ) (m : Bytes) :
    (chachaEncrypt key nonce ctr m).length = m.length := List.length_mapIdx

/-- The same stream twice. -/
theorem chachaEncrypt_chachaEncrypt (key nonce : Bytes) (ctr : ℕ) (m : Bytes) :
    chachaEncrypt key nonce ctr (chachaEncrypt key nonce ctr m) = m := by
  refine List.ext_getElem (by simp only [length_chachaEncrypt]) fun k h1 h2 => ?_
  simp only [chachaEncrypt, List.getElem_mapIdx, UInt8.xor_assoc, UInt8.xor_self, UInt8.xor_zero]

theorem chacha20Loop_eq (key nonce : Bytes) (buf : Bytes) (ctr : ℕ) :
    chacha20Loop (chacha20State key nonce (UInt32.ofNat ctr)) buf
      = chachaEncrypt key nonce ctr buf := by
  have hnext : (chacha20State key nonce (UInt32.ofNat ctr)).set 12
      ((chacha20State key nonce (UInt32.ofNat ctr))[12] + 1)
      = chacha20State key nonce (UInt32.ofNat (ctr + 1)) := by
    rw [UInt32.ofNat_add]
    rfl
  rw [chacha20Loop]
  split
  next hpos =>
    rw [hnext, chacha20Block_eq]
    simp only []
    by_cases h : buf.length < 64
    · rw [if_pos h, List.take_length, List.drop_length, chacha20Loop, if_neg (by simp),
        List.append_nil, chachaEncrypt_short _ _ _ h.le]
    · have hlen : (buf.take 64).length = 64 := by
        rw [List.length_take]
        omega
      rw [if_neg h, chacha20Loop_eq key nonce (buf.drop 64) (ctr + 1),
        ← chachaEncrypt_short _ _ _ hlen.le, ← chachaEncrypt_append _ _ _ hlen,
        List.take_append_drop]
  next hempty =>
    rw [List.eq_nil_of_length_eq_zero (Nat.eq_zero_of_not_pos hempty)]
    rfl
termination_by buf.length
decreasing_by
  rw [List.length_drop]
  omega

theorem chacha20Xor_eq (key nonce m : Bytes) : chacha20Xor m key nonce 1
    = chachaEncrypt key nonce 1 m := chacha20Loop_eq key nonce m 1

theorem poly1305KeyGen_eq (key nonce : Bytes) :
    poly1305KeyGen key nonce = (chachaBlock key nonce 0).take 32 := by
  rw [poly1305KeyGen, ← chacha20Block_eq]
  rfl

theorem hchacha20_eq (nonce16 key : Bytes) : hchacha20 nonce16 key = hchachaKey key nonce16 := by
  have houter : ∀ x : ChaChaState, [x[0], x[1], x[2], x[3], x[12], x[13], x[14], x[15]]
      = x.toList.take 4 ++ x.toList.drop 12 := fun x =>
    List.ext_getElem (by simp) fun k h1 h2 => by
      simp only [List.length_cons, List.length_nil] at h1
      interval_cases k <;> simp
  rw [hchachaKey, chachaInput_eq, ← houter, ← doubleRound_eq]
  rfl

/-! ## The tag -/

theorem ctMemcmp_eq_zero {a b : Bytes} {n : ℕ} (ha : a.length = n) (hb : b.length = n) :
    ctMemcmp a b n = 0 ↔ a = b := by
  have hfold : ∀ k, ctMemcmp a b k = 0 ↔ ∀ i < k, a.getD i 0 = b.getD i 0 := by
    intro k
    induction k with
    | zero => exact ⟨fun _ i hi => absurd hi (Nat.not_lt_zero i), fun _ => rfl⟩
    | succ k ih =>
      rw [ctMemcmp, List.range_succ, List.foldl_append, ← ctMemcmp, List.foldl_cons, List.foldl_nil,
        UInt8.or_eq_zero_iff, ih, UInt8.xor_eq_zero_iff, Nat.forall_lt_succ_right]
  rw [hfold]
  refine ⟨fun h => List.ext_getElem (ha.trans hb.symm) fun i h1 h2 => ?_, fun h i _ => by rw [h]⟩
  have := h i (ha ▸ h1)
  rwa [List.getD_eq_getElem _ _ h1, List.getD_eq_getElem _ _ h2] at this

variable {pk M ct : Bytes} {mac : Poly1305Ctx}

theorem Updated.pad16 (h : Updated pk M mac) (bs : Bytes) :
    (poly1305Pad16 mac bs.length).Returns (Updated pk (M ++ pad16 bs)) := by
  have hrem : bs.length &&& 15 = bs.length % 16 := Nat.and_two_pow_sub_one_eq_mod bs.length 4
  rw [poly1305Pad16, hrem]
  split
  next hne =>
    have hpad : PolarWG.pad16 bs = zeros (16 - bs.length % 16) := by
      rw [PolarWG.pad16, Nat.mod_eq_of_lt (by omega)]
    rw [hpad]
    exact h.update _
  next hz =>
    have hpad : PolarWG.pad16 bs = [] := by
      rw [PolarWG.pad16, not_not.mp hz]
      rfl
    rw [hpad, List.append_nil]
    exact .pure h

/-- What is fed after the associated data, and the tag that comes of it. -/
theorem Updated.macTail {β : Type} {k : Bytes → Traced β} {Q : β → Prop} (ad : Bytes)
    (h : Updated pk (ad ++ PolarWG.pad16 ad) mac)
    (hk : (k (poly1305Mac pk (aeadMacData ad ct))).Returns Q) :
    (do
      let mac ← poly1305Update mac ct
      let mac ← poly1305Pad16 mac ct.length
      let mac ← poly1305Update mac (le64enc ad.length)
      let mac ← poly1305Update mac (le64enc ct.length)
      let tag ← poly1305Finish mac
      k tag).Returns Q := by
  refine (h.update ct).bind fun _ h1 => (h1.pad16 ct).bind fun _ h2 =>
    (h2.update _).bind fun _ h3 => (h3.update _).bind fun _ h4 => h4.finish.bind fun tag htag => ?_
  rw [htag]
  exact hk

theorem length_poly1305Mac (key m : Bytes) : (poly1305Mac key m).length = 16 := length_leEnc 16 _

theorem length_aeadSeal (key nonce ad m : Bytes) :
    (aeadSeal key nonce ad m).length = m.length + 16 := by
  simp only [aeadSeal, aeadTag, List.length_append, length_chachaEncrypt, length_poly1305Mac]

theorem updated_init (key : Bytes) : Updated key [] (poly1305Init key) := ⟨Absorbed.init key, rfl⟩

theorem aeadEncrypt96_returns (src ad nonce key : Bytes) :
    (aeadEncrypt96 src ad nonce key).Returns (· = aeadSeal key nonce ad src) := by
  have hlen := length_chachaEncrypt key nonce 1 src
  unfold aeadEncrypt96
  simp only [chacha20Xor_eq, poly1305KeyGen_eq]
  rw [← hlen]
  exact ((updated_init _).update ad).bind fun _ h => (h.pad16 ad).bind fun _ h =>
    h.macTail ad (.pure rfl)

/-- What the reference makes of a sealed text. -/
def aeadOpen (key nonce ad input : Bytes) : Option Bytes :=
  if input.length < 16 then none
  else
    let ct := input.take (input.length - 16)
    if aeadTag key nonce ad ct = input.drop (input.length - 16)
    then some (chachaEncrypt key nonce 1 ct) else none

theorem aeadOpen_eq_some {key nonce ad input p : Bytes} :
    aeadOpen key nonce ad input = some p ↔ input = aeadSeal key nonce ad p := by
  constructor
  · intro h
    unfold aeadOpen at h
    split at h
    · exact absurd h (by simp)
    · simp only [Option.ite_none_right_eq_some, Option.some.injEq] at h
      obtain ⟨htag, rfl⟩ := h
      rw [aeadSeal]
      simp only [chachaEncrypt_chachaEncrypt, htag, List.take_append_drop]
  · rintro rfl
    have hlen := length_aeadSeal key nonce ad p
    have hct := length_chachaEncrypt key nonce 1 p
    have htake : (aeadSeal key nonce ad p).take p.length = chachaEncrypt key nonce 1 p := by
      rw [aeadSeal, ← hct, List.take_left]
    have hdrop : (aeadSeal key nonce ad p).drop p.length
        = aeadTag key nonce ad (chachaEncrypt key nonce 1 p) := by
      rw [aeadSeal, ← hct, List.drop_left]
    rw [aeadOpen, if_neg (by omega), hlen, Nat.add_sub_cancel, htake, hdrop]
    simp only [if_true, chachaEncrypt_chachaEncrypt]

/-- The comparison at the end, as both paths have it. -/
theorem tag_returns {β : Type} {x y : Traced β} {Q : β → Prop} {tag : Bytes}
    (key nonce ad : Bytes) (hlen : tag.length = 16) (hx : aeadTag key nonce ad ct ≠ tag → x.Returns Q)
    (hy : aeadTag key nonce ad ct = tag → y.Returns Q) :
    (if ctMemcmp (aeadTag key nonce ad ct) tag 16 ≠ 0 then x else y).Returns Q := by
  have hcmp := ctMemcmp_eq_zero (length_poly1305Mac _ _ : (aeadTag key nonce ad ct).length = 16) hlen
  split
  next h => exact hx fun e => h (hcmp.mpr e)
  next h => exact hy (hcmp.mp (not_not.mp h))

theorem aeadDecrypt96_returns (src ad nonce key : Bytes) :
    (aeadDecrypt96 src ad nonce key).Returns (· = aeadOpen key nonce ad src) := by
  unfold aeadDecrypt96 aeadOpen
  split
  next => exact .pure rfl
  next hlong =>
    have hlen : (src.take (src.length - 16)).length = src.length - 16 := by
      rw [List.length_take]
      omega
    simp only [chacha20Xor_eq, poly1305KeyGen_eq]
    generalize hct : src.take (src.length - 16) = ct at *
    rw [← hlen]
    refine ((updated_init _).update ad).bind fun _ h => (h.pad16 ad).bind fun _ h =>
      h.macTail ad (tag_returns key nonce ad ?_ ?_ ?_)
    · rw [List.length_drop]
      omega
    · intro hne
      rw [if_neg hne]
      exact .pure rfl
    · intro he
      rw [if_pos he]
      exact .pure rfl

/-! ## Flat buffers -/

/-- Sealing is the reference's, and what is opened is exactly what was sealed. -/
structure SealsExactly (encrypt : Bytes → Traced Bytes) (decrypt : Bytes → Traced (Option Bytes))
    (reference : Bytes → Bytes) : Prop where
  seals : ∀ p, encrypt p = ⟨reference p, true⟩
  opens : ∀ input p, (decrypt input).val = some p ↔ input = (encrypt p).val
  short : ∀ input, input.length < 16 → (decrypt input).val = none
  clean : ∀ input, (decrypt input).clean = true

theorem sealsExactly_96 (ad nonce key : Bytes) :
    SealsExactly (aeadEncrypt96 · ad nonce key) (aeadDecrypt96 · ad nonce key)
      (aeadSeal key nonce ad) where
  seals p := (aeadEncrypt96_returns p ad nonce key).eq
  opens input p := by
    rw [(aeadDecrypt96_returns input ad nonce key).eq, (aeadEncrypt96_returns p ad nonce key).eq]
    exact aeadOpen_eq_some
  short input h := by
    rw [(aeadDecrypt96_returns input ad nonce key).eq, aeadOpen, if_pos h]
  clean input := by rw [(aeadDecrypt96_returns input ad nonce key).eq]

/-- Both constructions, for every key, nonce and associated data. -/
theorem aead_exact (key nonce ad : Bytes) :
    SealsExactly (chacha20Poly1305Encrypt · ad nonce key) (chacha20Poly1305Decrypt · ad nonce key)
        (aeadSeal key (nonce96 nonce) ad)
      ∧ SealsExactly (xchacha20Poly1305Encrypt · ad nonce key)
        (xchacha20Poly1305Decrypt · ad nonce key)
        (aeadSeal (hchachaKey key nonce) (zeros 4 ++ slice 16 8 nonce) ad) := by
  refine ⟨sealsExactly_96 ad (nonce96 nonce) key, ?_⟩
  rw [← hchacha20_eq]
  exact sealsExactly_96 ad (zeros 4 ++ slice 16 8 nonce) (hchacha20 nonce key)

/-! ## Packet buffers -/

theorem overwrite_left {a b new : Bytes} (h : new.length = a.length) :
    overwrite (a ++ b) 0 new = new ++ b := by
  rw [overwrite, List.take_zero, List.nil_append, Nat.zero_add, h, List.drop_left]

theorem overwrite_right {a b new : Bytes} (h : new.length = b.length) :
    overwrite (a ++ b) a.length new = a ++ new := by
  rw [overwrite, List.take_left, h, ← List.length_append, List.drop_length, List.append_nil]

theorem nonce96_le64enc (nonce : ℕ) :
    nonce96 (le64enc nonce) = zeros 4 ++ slice 0 8 (le64enc nonce) := by
  rw [nonce96, if_neg (by rw [le64enc, length_leEnc]; decide), nonce8To12]

theorem cryptoDispatch_encrypt (plain key : Bytes) (nonce : ℕ) :
    (cryptoDispatch ⟨.encrypt, plain.length, plain.length, le64enc nonce, key⟩
      ⟨plain ++ zeros 16⟩).Returns
      (· = (none, ⟨aeadSeal key (nonce96 (le64enc nonce)) [] plain⟩)) := by
  have hlen := length_chachaEncrypt key (nonce96 (le64enc nonce)) 1 plain
  unfold cryptoDispatch
  simp only [← nonce96_le64enc, chacha20Xor_eq, poly1305KeyGen_eq, List.take_left,
    overwrite_left hlen]
  rw [← hlen, List.take_left]
  refine (updated_init _).macTail [] (.pure ?_)
  rw [overwrite_right (length_poly1305Mac _ _)]
  rfl

theorem cryptoDispatch_decrypt (ct tag key : Bytes) (nonce : ℕ) (htag : tag.length = 16) :
    (cryptoDispatch ⟨.decrypt, ct.length, ct.length, le64enc nonce, key⟩ ⟨ct ++ tag⟩).Returns
      (· = if aeadTag key (nonce96 (le64enc nonce)) [] ct = tag
        then (none, ⟨chachaEncrypt key (nonce96 (le64enc nonce)) 1 ct ++ tag⟩)
        else (some .EBADMSG, ⟨ct ++ tag⟩)) := by
  have hlen := length_chachaEncrypt key (nonce96 (le64enc nonce)) 1 ct
  unfold cryptoDispatch
  simp only [← nonce96_le64enc, chacha20Xor_eq, poly1305KeyGen_eq, List.take_left, List.drop_left,
    overwrite_left hlen]
  refine (updated_init _).macTail []
    (tag_returns key (nonce96 (le64enc nonce)) [] htag ?_ ?_)
  · intro hne
    rw [if_neg hne]
    exact .pure rfl
  · intro he
    rw [if_pos he]
    exact .pure rfl

theorem mAdj_tag (a : Bytes) {tag : Bytes} (h : tag.length = 16) : mAdj ⟨a ++ tag⟩ (-16) = ⟨a⟩ := by
  have hlen : (a ++ tag).length - (- -16 : ℤ).toNat = a.length := by
    rw [List.length_append, h]
    rfl
  rw [mAdj, if_neg (by decide), hlen, List.take_left]

theorem chacha20poly1305Encrypt_eq (src : Bytes) (nonce : ℕ) (key : Bytes) :
    chacha20poly1305Encrypt src [] nonce key
      = ⟨aeadSeal key (nonce96 (le64enc nonce)) [] src, true⟩ :=
  (aeadEncrypt96_returns src [] (nonce96 (le64enc nonce)) key).eq

theorem chacha20poly1305Decrypt_eq (src : Bytes) (nonce : ℕ) (key : Bytes) :
    chacha20poly1305Decrypt src [] nonce key
      = ⟨aeadOpen key (nonce96 (le64enc nonce)) [] src, true⟩ :=
  (aeadDecrypt96_returns src [] (nonce96 (le64enc nonce)) key).eq

theorem encryptMbuf_eq (m : Mbuf) (nonce : ℕ) (key : Bytes) :
    chacha20poly1305EncryptMbuf true m nonce key
      = ⟨(none, ⟨aeadSeal key (nonce96 (le64enc nonce)) [] m.data⟩), true⟩ := by
  have hlen : (m.data ++ zeros 16).length - 16 = m.data.length := by
    rw [List.length_append, zeros, List.length_replicate, Nat.add_sub_cancel]
  rw [chacha20poly1305EncryptMbuf, mAppend, if_pos rfl]
  simp only [hlen]
  exact (cryptoDispatch_encrypt m.data key nonce).eq

/-- The tag is compared before anything is changed. -/
theorem decryptMbuf_eq (m : Mbuf) (nonce : ℕ) (key : Bytes) :
    chacha20poly1305DecryptMbuf m nonce key
      = ⟨match aeadOpen key (nonce96 (le64enc nonce)) [] m.data with
        | some p => (none, ⟨p⟩)
        | none => (some (if m.data.length < 16 then .EMSGSIZE else .EBADMSG), m), true⟩ := by
  rw [chacha20poly1305DecryptMbuf, aeadOpen]
  by_cases hshort : m.data.length < 16
  · simp only [if_pos hshort]
    rfl
  · simp only [if_neg hshort]
    have hct : (m.data.take (m.data.length - 16)).length = m.data.length - 16 := by
      rw [List.length_take]
      omega
    have htag : (m.data.drop (m.data.length - 16)).length = 16 := by
      rw [List.length_drop]
      omega
    have hdata : m = ⟨m.data.take (m.data.length - 16) ++ m.data.drop (m.data.length - 16)⟩ := by
      rw [List.take_append_drop]
    have hdispatch := (cryptoDispatch_decrypt (m.data.take (m.data.length - 16))
      (m.data.drop (m.data.length - 16)) key nonce htag).eq
    rw [hct, ← hdata] at hdispatch
    rw [hdispatch]
    by_cases he : aeadTag key (nonce96 (le64enc nonce)) [] (m.data.take (m.data.length - 16))
        = m.data.drop (m.data.length - 16)
    · simp only [if_pos he]
      have hadj := mAdj_tag (chachaEncrypt key (nonce96 (le64enc nonce)) 1
        (m.data.take (m.data.length - 16))) htag
      rw [← hadj]
      rfl
    · simp only [if_neg he]
      rfl

/-- A packet buffer holds what the flat buffer would without associated data, and is left alone
where that fails. -/
theorem mbuf_agrees (m : Mbuf) (nonce : ℕ) (key : Bytes) :
    (chacha20poly1305EncryptMbuf true m nonce key).val
        = (none, ⟨(chacha20poly1305Encrypt m.data [] nonce key).val⟩)
      ∧ (chacha20poly1305Encrypt m.data [] nonce key).val.length = m.data.length + 16
      ∧ (chacha20poly1305EncryptMbuf false m nonce key).val = (some .ENOMEM, m)
      ∧ (∀ p, (chacha20poly1305Decrypt m.data [] nonce key).val = some p →
        (chacha20poly1305DecryptMbuf m nonce key).val = (none, ⟨p⟩)
          ∧ p.length + 16 = m.data.length)
      ∧ ((chacha20poly1305Decrypt m.data [] nonce key).val = none →
        (chacha20poly1305DecryptMbuf m nonce key).val
          = (some (if m.data.length < 16 then .EMSGSIZE else .EBADMSG), m)) := by
  rw [encryptMbuf_eq, decryptMbuf_eq, chacha20poly1305Encrypt_eq, chacha20poly1305Decrypt_eq]
  refine ⟨rfl, length_aeadSeal _ _ _ _, rfl, fun p hp => ?_, fun hnone => ?_⟩
  · change aeadOpen key (nonce96 (le64enc nonce)) [] m.data = some p at hp
    exact ⟨by simp only [hp], by rw [aeadOpen_eq_some.mp hp, length_aeadSeal]⟩
  · change aeadOpen key (nonce96 (le64enc nonce)) [] m.data = none at hnone
    simp only [hnone]

/-! ## The primitives of a session -/

/-- The primitives with this construction in them. -/
def Prims.withAead (p : Prims) : Prims :=
  { p with
    chacha20poly1305Encrypt := fun key nonce ad src =>
      (PolarWG.chacha20poly1305Encrypt src ad nonce key).val
    chacha20poly1305Decrypt := fun key nonce ad src =>
      (PolarWG.chacha20poly1305Decrypt src ad nonce key).val
    xchacha20poly1305Decrypt := fun key nonce ad src =>
      (xchacha20Poly1305Decrypt src ad nonce key).val }

/-- What a session's run asks of sealing, this construction gives. -/
theorem Prims.Lawful.withAead {p : Prims} (h : p.Lawful) : p.withAead.Lawful where
  generate := h.generate
  lowOrder := h.lowOrder
  agree := h.agree
  proper := h.proper
  nonzero := h.nonzero
  lengthPublic := h.lengthPublic
  lengthHash := h.lengthHash
  lengthSealed key nonce ad src := by
    have hseal := (sealsExactly_96 ad (nonce96 (le64enc nonce)) key).seals src
    exact (congrArg (·.val.length) hseal).trans (length_aeadSeal _ _ _ _)
  opened key nonce ad src :=
    ((sealsExactly_96 ad (nonce96 (le64enc nonce)) key).opens _ src).mpr rfl

end PolarWG
