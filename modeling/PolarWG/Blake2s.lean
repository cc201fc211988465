import PolarWG.Noise

/-!
# BLAKE2s

The hash of `wg_crypto.c`, which takes its input in pieces, and what the Noise layer and the cookies
make with it.
-/

namespace PolarWG

def blake2sBlockSize : ℕ := 64
def blake2sHashSize : ℕ := 32

def ror32 (word shift : UInt32) : UInt32 := word >>> (shift &&& 31) ||| word <<< (-shift &&& 31)

def blake2sIv : List UInt32 :=
  [0x6A09E667, 0xBB67AE85, 0x3C6EF372, 0xA54FF53A, 0x510E527F, 0x9B05688C, 0x1F83D9AB, 0x5BE0CD19]

def blake2sSigma : List (List ℕ) :=
  [[0, 1, 2, 3, 4, 5, 6, 7, 8, 9, 10, 11, 12, 13, 14, 15],
    [14, 10, 4, 8, 9, 15, 13, 6, 1, 12, 0, 2, 11, 7, 5, 3],
    [11, 8, 12, 0, 5, 2, 15, 13, 10, 14, 3, 6, 7, 1, 9, 4],
    [7, 9, 3, 1, 13, 12, 11, 14, 2, 6, 5, 10, 4, 0, 15, 8],
    [9, 0, 5, 7, 2, 4, 10, 15, 14, 1, 11, 12, 6, 8, 3, 13],
    [2, 12, 6, 10, 0, 11, 8, 3, 4, 13, 7, 5, 15, 14, 1, 9],
    [12, 5, 1, 15, 14, 13, 4, 10, 0, 7, 6, 3, 9, 2, 8, 11],
    [13, 11, 7, 14, 12, 1, 3, 9, 5, 0, 15, 4, 8, 6, 2, 10],
    [6, 15, 14, 9, 11, 3, 0, 8, 12, 2, 13, 7, 1, 4, 10, 5],
    [10, 2, 8, 4, 7, 6, 1, 5, 15, 11, 9, 14, 3, 12, 13, 0]]

def word (v : List UInt32) (i : ℕ) : UInt32 := v.getD i 0

def sigma (r i : ℕ) : ℕ := (blake2sSigma.getD r []).getD i 0

/-- `buf` is as long as `buflen`. -/
structure Blake2sState where
  h : List UInt32
  t0 : UInt32
  t1 : UInt32
  f0 : UInt32
  f1 : UInt32
  buf : Bytes
  outlen : ℕ

def blake2sSetLastblock (state : Blake2sState) : Blake2sState := { state with f0 := -1 }

def blake2sIncrementCounter (state : Blake2sState) (inc : UInt32) : Blake2sState :=
  let t0 := state.t0 + inc
  { state with t0, t1 := state.t1 + if t0 < inc then 1 else 0 }

def blake2sInitParam (param : UInt32) : Blake2sState where
  h := blake2sIv.set 0 (word blake2sIv 0 ^^^ param)
  t0 := 0
  t1 := 0
  f0 := 0
  f1 := 0
  buf := []
  outlen := 0

/-! ## Compression -/

def blake2sG (m : List UInt32) (r i a b c d : ℕ) (v : List UInt32) : List UInt32 :=
  let v := v.set a (word v a + (word v b + word m (sigma r (2 * i))))
  let v := v.set d (ror32 (word v d ^^^ word v a) 16)
  let v := v.set c (word v c + word v d)
  let v := v.set b (ror32 (word v b ^^^ word v c) 12)
  let v := v.set a (word v a + (word v b + word m (sigma r (2 * i + 1))))
  let v := v.set d (ror32 (word v d ^^^ word v a) 8)
  let v := v.set c (word v c + word v d)
  v.set b (ror32 (word v b ^^^ word v c) 7)

def blake2sRound (m : List UInt32) (v : List UInt32) (r : ℕ) : List UInt32 :=
  let v := blake2sG m r 0 0 4 8 12 v
  let v := blake2sG m r 1 1 5 9 13 v
  let v := blake2sG m r 2 2 6 10 14 v
  let v := blake2sG m r 3 3 7 11 15 v
  let v := blake2sG m r 4 0 5 10 15 v
  let v := blake2sG m r 5 1 6 11 12 v
  let v := blake2sG m r 6 2 7 8 13 v
  blake2sG m r 7 3 4 9 14 v

/-- The words of a block. -/
def blockWords (block : Bytes) : List UInt32 :=
  (List.range 16).map fun i => le32dec (slice (4 * i) 4 block)

def blake2sCompressBlock (state : Blake2sState) (block : Bytes) (inc : UInt32) : Blake2sState :=
  let state := blake2sIncrementCounter state inc
  let m := blockWords block
  let v := state.h ++ [word blake2sIv 0, word blake2sIv 1, word blake2sIv 2, word blake2sIv 3,
    word blake2sIv 4 ^^^ state.t0, word blake2sIv 5 ^^^ state.t1, word blake2sIv 6 ^^^ state.f0,
    word blake2sIv 7 ^^^ state.f1]
  let v := [0, 1, 2, 3, 4, 5, 6, 7, 8, 9].foldl (blake2sRound m) v
  { state with h := (List.range 8).map fun i => word state.h i ^^^ (word v i ^^^ word v (i + 8)) }

/-- Of the blocks that `block` begins with. -/
def blake2sCompress (state : Blake2sState) (block : Bytes) : ℕ → UInt32 → Blake2sState
  | 0, _ => state
  | nblocks + 1, inc =>
    blake2sCompress (blake2sCompressBlock state (block.take blake2sBlockSize) inc)
      (block.drop blake2sBlockSize) nblocks inc

/-! ## Streams -/

def blake2sUpdate (state : Blake2sState) (input : Bytes) : Blake2sState :=
  let fill := blake2sBlockSize - state.buf.length
  if input.length = 0 then state
  else
    let (state, input) :=
      if fill < input.length then
        ({ blake2sCompress state (state.buf ++ input.take fill) 1 64 with buf := [] },
          input.drop fill)
      else (state, input)
    let (state, input) :=
      if blake2sBlockSize < input.length then
        let nblocks := (input.length + (blake2sBlockSize - 1)) / blake2sBlockSize
        (blake2sCompress state input (nblocks - 1) 64, input.drop (blake2sBlockSize * (nblocks - 1)))
      else (state, input)
    { state with buf := state.buf ++ input }

def blake2sInit (outlen : ℕ) : Blake2sState :=
  { blake2sInitParam (0x01010000 ||| UInt32.ofNat outlen) with outlen }

def blake2sInitKey (outlen : ℕ) (key : Bytes) : Blake2sState :=
  let param := (0x01010000 : UInt32) ||| UInt32.ofNat key.length <<< 8 ||| UInt32.ofNat outlen
  let state := blake2sInitParam param
  blake2sUpdate { state with outlen } (key ++ zeros (blake2sBlockSize - key.length))

def blake2sFinal (state : Blake2sState) : Bytes :=
  let state := blake2sSetLastblock state
  let state := blake2sCompress state
    (state.buf ++ zeros (blake2sBlockSize - state.buf.length)) 1 (UInt32.ofNat state.buf.length)
  (state.h.flatMap le32enc).take state.outlen

/-- Where the key is empty there is none. -/
def blake2sStart (outlen : ℕ) (key : Bytes) : Blake2sState :=
  if key.length ≠ 0 then blake2sInitKey outlen key else blake2sInit outlen

def blake2s (outlen : ℕ) (key input : Bytes) : Bytes :=
  blake2sFinal (blake2sUpdate (blake2sStart outlen key) input)

/-! ## What the Noise layer and the cookies make with it -/

namespace Streamed

/-- The hash of what comes in these pieces. -/
def blake2sOf (outlen : ℕ) (key : Bytes) (pieces : List Bytes) : Bytes :=
  blake2sFinal (pieces.foldl blake2sUpdate (blake2sStart outlen key))

/-- The second key is made from the first in place. -/
def hmac (outlen : ℕ) (input key : Bytes) : Bytes :=
  let xKey := if blake2sBlockSize < key.length then blake2sOf 32 [] [key] else key
  let xKey := xKey ++ zeros (blake2sBlockSize - xKey.length)
  let xKey := xKey.map (· ^^^ 0x36)
  let iHash := blake2sOf blake2sHashSize [] [xKey, input]
  let xKey := xKey.map (· ^^^ (0x5c ^^^ 0x36))
  let iHash := blake2sOf blake2sHashSize [] [xKey, iHash]
  iHash.take outlen

/-- Up to three keys; the first length that is zero ends it. -/
def noiseKdf (aLen bLen cLen : ℕ) (x ck : Bytes) : Bytes × Bytes × Bytes :=
  let sec := hmac blake2sHashSize x ck
  if aLen = 0 then ([], [], [])
  else
    let out := hmac blake2sHashSize [1] sec
    let a := out.take aLen
    if bLen = 0 then (a, [], [])
    else
      let out := hmac blake2sHashSize (out ++ [2]) sec
      let b := out.take bLen
      if cLen = 0 then (a, b, [])
      else
        let out := hmac blake2sHashSize (out ++ [3]) sec
        (a, b, out.take cLen)

def noiseMixHash (hash src : Bytes) : Bytes := blake2sOf 32 [] [hash, src]

/-- The chaining key and the hash. -/
def noiseParamInit (s : Bytes) : Bytes × Bytes :=
  let ck := blake2s 32 [] noiseHandshakeName
  (ck, noiseMixHash (blake2sOf 32 [] [ck, noiseIdentifierName]) s)

end Streamed

end PolarWG
