import PolarWG.Poly1305

/-!
# ChaCha20-Poly1305

The stream cipher, the tag over padded data and both lengths, and the two ways in: flat buffers, and
packet buffers that are changed in place.
-/

namespace PolarWG

/-! ## ChaCha20 -/

abbrev ChaChaState := Vector UInt32 16

def rotl32 (v n : UInt32) : UInt32 := v <<< n ||| v >>> (32 - n)

def quarterRound (x : ChaChaState) (a b c d : Fin 16) : ChaChaState :=
  let x := x.set a (x[a] + x[b])
  let x := x.set d (x[d] ^^^ x[a])
  let x := x.set d (rotl32 x[d] 16)
  let x := x.set c (x[c] + x[d])
  let x := x.set b (x[b] ^^^ x[c])
  let x := x.set b (rotl32 x[b] 12)
  let x := x.set a (x[a] + x[b])
  let x := x.set d (x[d] ^^^ x[a])
  let x := x.set d (rotl32 x[d] 8)
  let x := x.set c (x[c] + x[d])
  let x := x.set b (x[b] ^^^ x[c])
  x.set b (rotl32 x[b] 7)

def doubleRound (x : ChaChaState) : ChaChaState :=
  let x := quarterRound x 0 4 8 12
  let x := quarterRound x 1 5 9 13
  let x := quarterRound x 2 6 10 14
  let x := quarterRound x 3 7 11 15
  let x := quarterRound x 0 5 10 15
  let x := quarterRound x 1 6 11 12
  let x := quarterRound x 2 7 8 13
  quarterRound x 3 4 9 14

def chacha20Block (input : ChaChaState) : Bytes :=
  let x := doubleRound^[10] input
  (List.finRange 16).flatMap fun i =>
    let v : UInt32 := x[i] + input[i]
    [v.toUInt8, (v >>> 8).toUInt8, (v >>> 16).toUInt8, (v >>> 24).toUInt8]

/-- The state that is filled in from a key, a counter and a nonce of twelve bytes. -/
def chacha20State (key nonce12 : Bytes) (ctr0 : UInt32) : ChaChaState :=
  #v[0x61707865, 0x3320646e, 0x79622d32, 0x6b206574,
    le32dec (slice 0 4 key), le32dec (slice 4 4 key), le32dec (slice 8 4 key),
    le32dec (slice 12 4 key), le32dec (slice 16 4 key), le32dec (slice 20 4 key),
    le32dec (slice 24 4 key), le32dec (slice 28 4 key),
    ctr0, le32dec (slice 0 4 nonce12), le32dec (slice 4 4 nonce12), le32dec (slice 8 4 nonce12)]

/-- The loop over a buffer, a block of the stream at a time. -/
def chacha20Loop (state : ChaChaState) (buf : Bytes) : Bytes :=
  if 0 < buf.length then
    let block := chacha20Block state
    let n := if buf.length < 64 then buf.length else 64
    List.zipWith (· ^^^ ·) (buf.take n) block
      ++ chacha20Loop (state.set 12 (state[12] + 1)) (buf.drop n)
  else []
termination_by buf.length
decreasing_by
  simp only [List.length_drop]
  split <;> omega

def chacha20Xor (buf key nonce12 : Bytes) (ctr0 : UInt32) : Bytes :=
  chacha20Loop (chacha20State key nonce12 ctr0) buf

def poly1305KeyGen (key nonce12 : Bytes) : Bytes :=
  (chacha20Block (chacha20State key nonce12 0)).take 32

/-! ## The construction -/

/-- All bytes are looked at, whether or not they differ. -/
def ctMemcmp (a b : Bytes) (n : ℕ) : UInt8 :=
  (List.range n).foldl (fun diff i => diff ||| (a.getD i 0 ^^^ b.getD i 0)) 0

def poly1305Pad16 (ctx : Poly1305Ctx) (len : ℕ) : Traced Poly1305Ctx :=
  let rem := len &&& 15
  if rem ≠ 0 then poly1305Update ctx (zeros (16 - rem)) else pure ctx

def le64enc (n : ℕ) : Bytes := leEnc 8 n

def aeadEncrypt96 (src ad nonce12 key : Bytes) : Traced Bytes := do
  let mac := poly1305Init (poly1305KeyGen key nonce12)
  let dst := chacha20Xor src key nonce12 1
  let mac ← poly1305Update mac ad
  let mac ← poly1305Pad16 mac ad.length
  let mac ← poly1305Update mac dst
  let mac ← poly1305Pad16 mac src.length
  let mac ← poly1305Update mac (le64enc ad.length)
  let mac ← poly1305Update mac (le64enc src.length)
  let tag ← poly1305Finish mac
  pure (dst ++ tag)

def aeadDecrypt96 (src ad nonce12 key : Bytes) : Traced (Option Bytes) :=
  if src.length < 16 then pure none
  else do
    let ctLen := src.length - 16
    let tag := src.drop ctLen
    let mac := poly1305Init (poly1305KeyGen key nonce12)
    let mac ← poly1305Update mac ad
    let mac ← poly1305Pad16 mac ad.length
    let mac ← poly1305Update mac (src.take ctLen)
    let mac ← poly1305Pad16 mac ctLen
    let mac ← poly1305Update mac (le64enc ad.length)
    let mac ← poly1305Update mac (le64enc ctLen)
    let expectedTag ← poly1305Finish mac
    if ctMemcmp expectedTag tag 16 ≠ 0 then pure none
    else pure (some (chacha20Xor (src.take ctLen) key nonce12 1))

/-! ## Flat buffers -/

def nonce8To12 (nonce8 : Bytes) : Bytes := zeros 4 ++ slice 0 8 nonce8

/-- A nonce has twelve bytes, or eight that zeros are put before. -/
def nonce96 (nonce : Bytes) : Bytes := if nonce.length = 12 then nonce else nonce8To12 nonce

def chacha20Poly1305Encrypt (src ad nonce key : Bytes) : Traced Bytes :=
  aeadEncrypt96 src ad (nonce96 nonce) key

def chacha20Poly1305Decrypt (src ad nonce key : Bytes) : Traced (Option Bytes) :=
  aeadDecrypt96 src ad (nonce96 nonce) key

def hchacha20 (nonce16 key : Bytes) : Bytes :=
  let x : ChaChaState := #v[0x61707865, 0x3320646e, 0x79622d32, 0x6b206574,
    le32dec (slice 0 4 key), le32dec (slice 4 4 key), le32dec (slice 8 4 key),
    le32dec (slice 12 4 key), le32dec (slice 16 4 key), le32dec (slice 20 4 key),
    le32dec (slice 24 4 key), le32dec (slice 28 4 key),
    le32dec (slice 0 4 nonce16), le32dec (slice 4 4 nonce16), le32dec (slice 8 4 nonce16),
    le32dec (slice 12 4 nonce16)]
  let x := doubleRound^[10] x
  [x[0], x[1], x[2], x[3], x[12], x[13], x[14], x[15]].flatMap le32enc

def xchacha20Poly1305Encrypt (src ad nonce key : Bytes) : Traced Bytes :=
  aeadEncrypt96 src ad (zeros 4 ++ slice 16 8 nonce) (hchacha20 nonce key)

def xchacha20Poly1305Decrypt (src ad nonce key : Bytes) : Traced (Option Bytes) :=
  aeadDecrypt96 src ad (zeros 4 ++ slice 16 8 nonce) (hchacha20 nonce key)

/-- The wrappers that the Noise layer calls, for a counter. -/
def chacha20poly1305Encrypt (src ad : Bytes) (nonce : ℕ) (key : Bytes) : Traced Bytes :=
  chacha20Poly1305Encrypt src ad (le64enc nonce) key

def chacha20poly1305Decrypt (src ad : Bytes) (nonce : ℕ) (key : Bytes) : Traced (Option Bytes) :=
  chacha20Poly1305Decrypt src ad (le64enc nonce) key

/-! ## Packet buffers -/

/-- A buffer of one segment: the bytes from `m_data` on, as many as both lengths say. -/
structure Mbuf where
  data : Bytes
deriving DecidableEq

inductive CryptoError where
  | ENOMEM
  | EMSGSIZE
  | EBADMSG
deriving DecidableEq

/-- What the environment says is whether there is memory where the buffer is full. -/
def mAppend (memory : Bool) (m : Mbuf) (cp : Bytes) : Option Mbuf :=
  if memory then some ⟨m.data ++ cp⟩ else none

/-- Bytes are cut off the head, or the tail where `len` is negative. -/
def mAdj (m : Mbuf) (len : ℤ) : Mbuf :=
  if 0 ≤ len then ⟨m.data.drop len.toNat⟩
  else ⟨m.data.take (m.data.length - (-len).toNat)⟩

inductive CryptoOp where
  | encrypt
  | decrypt
deriving DecidableEq

structure Cryptop where
  op : CryptoOp
  payloadLength : ℕ
  digestStart : ℕ
  iv : Bytes
  cipherKey : Bytes

/-- The bytes from `off` on are written over. -/
def overwrite (bs : Bytes) (off : ℕ) (new : Bytes) : Bytes :=
  bs.take off ++ new ++ bs.drop (off + new.length)

/-- No associated data here, so the tag's text begins with the payload. -/
def cryptoDispatch (crp : Cryptop) (m : Mbuf) : Traced (Option CryptoError × Mbuf) :=
  let n12 := zeros 4 ++ slice 0 8 crp.iv
  let mac := poly1305Init (poly1305KeyGen crp.cipherKey n12)
  match crp.op with
  | .encrypt => do
    let plain := overwrite m.data 0
      (chacha20Xor (m.data.take crp.payloadLength) crp.cipherKey n12 1)
    let mac ← poly1305Update mac (plain.take crp.payloadLength)
    let mac ← poly1305Pad16 mac crp.payloadLength
    let mac ← poly1305Update mac (le64enc 0)
    let mac ← poly1305Update mac (le64enc crp.payloadLength)
    let tag ← poly1305Finish mac
    pure (none, ⟨overwrite plain crp.digestStart tag⟩)
  | .decrypt => do
    let mac ← poly1305Update mac (m.data.take crp.payloadLength)
    let mac ← poly1305Pad16 mac crp.payloadLength
    let mac ← poly1305Update mac (le64enc 0)
    let mac ← poly1305Update mac (le64enc crp.payloadLength)
    let expected ← poly1305Finish mac
    if ctMemcmp expected (m.data.drop crp.digestStart) 16 ≠ 0 then
      pure (some .EBADMSG, m)
    else pure (none, ⟨overwrite m.data 0
      (chacha20Xor (m.data.take crp.payloadLength) crp.cipherKey n12 1)⟩)

def chacha20poly1305EncryptMbuf (memory : Bool) (m : Mbuf) (nonce : ℕ) (key : Bytes) :
    Traced (Option CryptoError × Mbuf) :=
  match mAppend memory m (zeros 16) with
  | none => pure (some .ENOMEM, m)
  | some m => cryptoDispatch
      { op := .encrypt
        payloadLength := m.data.length - 16
        digestStart := m.data.length - 16
        iv := le64enc nonce
        cipherKey := key } m

def chacha20poly1305DecryptMbuf (m : Mbuf) (nonce : ℕ) (key : Bytes) :
    Traced (Option CryptoError × Mbuf) :=
  if m.data.length < 16 then pure (some .EMSGSIZE, m)
  else do
    let (ret, m) ← cryptoDispatch
      { op := .decrypt
        payloadLength := m.data.length - 16
        digestStart := m.data.length - 16
        iv := le64enc nonce
        cipherKey := key } m
    match ret with
    | some e => pure (some e, m)
    | none => pure (none, mAdj m (-16))

end PolarWG
