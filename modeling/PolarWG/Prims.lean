import PolarWG.AllowedIps

/-!
# What the session is linked against

The clocks, the wire's integers, C strings and the primitives the Noise layer calls. The
cryptography and `inet_pton` are parameters; `Prims.Lawful` is what two ends need of them.
-/

namespace PolarWG

/-- One instant, as the two clocks read it, in nanoseconds. -/
structure Moment where
  uptime : ℕ
  realtime : ℕ

def sbt1S : ℤ := 1000000000

def Moment.getsbinuptime (m : Moment) : ℤ := m.uptime

/-- `time(NULL)`. -/
def Moment.time (m : Moment) : ℤ := (m.realtime / 1000000000 : ℕ)


def afInet : ℕ := 2
def afInet6 : ℕ := 10

/-- An address is as long as its family's are. -/
structure Sockaddr where
  family : ℕ
  port : UInt16
  addr : Bytes
  scope : ℕ
  v4 : family = afInet → addr.length = 4
  v6 : family = afInet6 → addr.length = 16
deriving DecidableEq

def Sockaddr.unspec : Sockaddr := ⟨0, 0, [], 0, by decide, by decide⟩

/-! ## Bytes -/

def zeros (n : ℕ) : Bytes := List.replicate n 0

def ascii (s : String) : Bytes := s.toList.map fun c => UInt8.ofNat c.toNat

/-- The `k` low bytes of `n`, low byte first. -/
def leEnc : ℕ → ℕ → Bytes
  | 0, _ => []
  | k + 1, n => UInt8.ofNat n :: leEnc k (n / 256)

def leDec : Bytes → ℕ
  | [] => 0
  | b :: bs => b.toNat + 256 * leDec bs

def beEnc (k n : ℕ) : Bytes := (leEnc k n).reverse

def slice (off len : ℕ) (bs : Bytes) : Bytes := (bs.drop off).take len

def le32dec (bs : Bytes) : UInt32 := UInt32.ofNat (leDec bs)

def le32enc (x : UInt32) : Bytes := leEnc 4 x.toNat

@[simp] theorem length_leEnc : ∀ k n : ℕ, (leEnc k n).length = k
  | 0, _ => rfl
  | k + 1, n => by simp [leEnc, length_leEnc k]

theorem leDec_leEnc : ∀ k n : ℕ, leDec (leEnc k n) = n % 256 ^ k
  | 0, n => by simp [leEnc, leDec, Nat.mod_one]
  | k + 1, n => by
    rw [leEnc, leDec, leDec_leEnc k, pow_succ, Nat.mul_comm (256 ^ k), Nat.mod_mul]
    simp

@[simp] theorem length_le32enc (x : UInt32) : (le32enc x).length = 4 := length_leEnc 4 _

@[simp] theorem le32dec_le32enc (x : UInt32) : le32dec (le32enc x) = x := by
  rw [le32dec, le32enc, leDec_leEnc, Nat.mod_eq_of_lt (by simpa using x.toNat_lt)]
  simp

/-! ## C strings -/

/-- A C string's characters, or the text of a buffer. -/
abbrev Text := List Char

/-- The string a buffer holds: up to its first NUL. -/
def cstr (t : Text) : Text := t.takeWhile (· ≠ Char.ofNat 0)

/-- `strtok_r` run to the end: the nonempty pieces between delimiters. -/
def strtok (delim : Char) (s : Text) : List Text := (s.splitOn delim).filter (· ≠ [])

/-- The text before the first `c`, and after it. -/
def strchr (c : Char) (s : Text) : Option (Text × Text) :=
  if c ∈ s then some (s.takeWhile (· ≠ c), (s.dropWhile (· ≠ c)).drop 1) else none

/-- The text before the last `c`, and after it. -/
def strrchr (c : Char) (s : Text) : Option (Text × Text) :=
  (strchr c s.reverse).map fun (after, before) => (before.reverse, after.reverse)

def isSpace (c : Char) : Bool := c = ' ' ∨ (9 ≤ c.toNat ∧ c.toNat ≤ 13)

def digitsNat (s : Text) : ℕ :=
  (s.takeWhile Char.isDigit).foldl (fun a c => 10 * a + (c.toNat - 48)) 0

/-- `strtol` in base 10, its result clamped to a 64-bit `long`. -/
def strtol (s : Text) : ℤ :=
  match s.dropWhile isSpace with
  | '-' :: s => max (-2 ^ 63) (-(digitsNat s : ℤ))
  | '+' :: s => min (2 ^ 63 - 1) (digitsNat s)
  | s => min (2 ^ 63 - 1) (digitsNat s)

/-- `atoi`: `strtol` cut to an `int`. -/
def atoi (s : Text) : ℤ := Int.bmod (strtol s) (2 ^ 32)

/-! ## The primitives -/

structure Prims where
  blake2s : (outlen : ℕ) → (key input : Bytes) → Bytes
  chacha20poly1305Encrypt : (key : Bytes) → (nonce : ℕ) → (ad src : Bytes) → Bytes
  chacha20poly1305Decrypt : (key : Bytes) → (nonce : ℕ) → (ad src : Bytes) → Option Bytes
  xchacha20poly1305Decrypt : (key nonce ad src : Bytes) → Option Bytes
  /-- `none` where it returns 0: the shared secret is all zero. -/
  curve25519 : (secret pub : Bytes) → Option Bytes
  curve25519GeneratePublic : (secret : Bytes) → Option Bytes
  inetPton : (family : ℕ) → Text → Option Bytes

/-- Every secret has a public key, and whether a point is of low order does not depend on the
secret it is multiplied by. -/
structure Prims.Curve (p : Prims) : Prop where
  generate : ∀ secret, ∃ pub, p.curve25519GeneratePublic secret = some pub
  lowOrder : ∀ a b pub, p.curve25519 a pub = none → p.curve25519 b pub = none

/-- Two ends agree on a secret, and what is sealed can be opened. -/
structure Prims.Lawful (p : Prims) : Prop extends p.Curve where
  agree : ∀ a b pubA pubB, p.curve25519GeneratePublic a = some pubA →
    p.curve25519GeneratePublic b = some pubB → p.curve25519 a pubB = p.curve25519 b pubA
  proper : ∀ a b pub, p.curve25519GeneratePublic a = some pub → p.curve25519 b pub ≠ none
  nonzero : ∀ a pub ss, p.curve25519 a pub = some ss → ss ≠ zeros 32
  lengthPublic : ∀ a pub, p.curve25519GeneratePublic a = some pub → pub.length = 32
  lengthHash : ∀ n key input, (p.blake2s n key input).length = n
  lengthSealed : ∀ key nonce ad src,
    (p.chacha20poly1305Encrypt key nonce ad src).length = src.length + 16
  opened : ∀ key nonce ad src,
    p.chacha20poly1305Decrypt key nonce ad (p.chacha20poly1305Encrypt key nonce ad src) = some src

def curve25519ClampSecret (s : Bytes) : Bytes :=
  let s := s.set 0 (s.getD 0 0 &&& 248)
  s.set 31 (s.getD 31 0 &&& 127 ||| 64)

end PolarWG
