import PolarWG.Run

/-!
# Specimen primitives

The laws of the primitives can be met: adding up keys agrees on a secret, and appending a checksum
seals a text. Nothing is secret here, but sessions run on it as on the real ones, which is what
examples of runs are computed with.
-/

namespace PolarWG

namespace Specimen

def checksum (bs : Bytes) : ℕ :=
  bs.foldl (fun a b => (a * 257 + b.toNat + 1) % (2 ^ 61 - 1)) 7

def pad (bs : Bytes) : Bytes := (bs ++ zeros 32).take 32

def sealText (key : Bytes) (nonce : ℕ) (ad src : Bytes) : Bytes :=
  src ++ leEnc 16 (checksum (key ++ leEnc 8 nonce ++ ad ++ src))

def openText (key : Bytes) (nonce : ℕ) (ad src : Bytes) : Option Bytes :=
  let m := src.take (src.length - 16)
  if sealText key nonce ad m = src then some m else none

def pton (family : ℕ) (t : Text) : Option Bytes :=
  let parts := strtok '.' t
  if family = afInet ∧ parts.length = 4 then some (parts.map fun d => UInt8.ofNat (digitsNat d))
  else none

/-- The sum never is the zero secret. -/
def product (a b : Bytes) : Bytes := (List.zipWith (· + ·) (pad a) (pad b)).set 0 1

@[simp] theorem length_pad (bs : Bytes) : (pad bs).length = 32 := by
  simp [pad, zeros]

@[simp] theorem pad_pad (bs : Bytes) : pad (pad bs) = pad bs := by
  conv_lhs => rw [pad]
  exact List.take_left' (length_pad bs)

theorem product_comm (a b : Bytes) : product a (pad b) = product b (pad a) := by
  rw [product, product, pad_pad, pad_pad, List.zipWith_comm]
  simp only [add_comm]

theorem product_ne_zeros (a b : Bytes) : product a b ≠ zeros 32 := fun h => by
  have := congrArg (·[0]?) h
  simp [product, zeros] at this

theorem openText_sealText (key : Bytes) (nonce : ℕ) (ad src : Bytes) :
    openText key nonce ad (sealText key nonce ad src) = some src := by
  have : (sealText key nonce ad src).take ((sealText key nonce ad src).length - 16) = src :=
    List.take_left' (by simp [sealText])
  rw [openText, this]
  exact if_pos rfl

end Specimen

open Specimen

def specimen : Prims where
  blake2s := fun outlen key input => leEnc outlen (checksum (key ++ input))
  chacha20poly1305Encrypt := sealText
  chacha20poly1305Decrypt := openText
  xchacha20poly1305Decrypt := fun _ _ _ _ => none
  curve25519 := fun secret pub => some (product secret pub)
  curve25519GeneratePublic := fun secret => some (pad secret)
  inetPton := pton

theorem specimen_lawful : specimen.Lawful where
  generate := fun secret => ⟨_, rfl⟩
  lowOrder := fun _ _ _ h => by cases h
  agree := by
    rintro a b _ _ ⟨⟩ ⟨⟩
    exact congrArg some (product_comm a b)
  proper := fun _ _ _ _ h => by cases h
  nonzero := by
    rintro a pub _ ⟨⟩
    exact product_ne_zeros a pub
  lengthPublic := by
    rintro a _ ⟨⟩
    exact length_pad a
  lengthHash := fun n _ _ => length_leEnc n _
  lengthSealed := fun key nonce ad src => by
    show (sealText key nonce ad src).length = _
    simp [sealText]
  opened := openText_sealText

/-! ## Specimen sessions -/

namespace Specimen

/-- Three key pairs of the specimen curve; each key is its own public key. -/
def keyA : String := "EAAAAAAAAAAAAAAAAAAAAAAAAAAAAAAAAAAAAAAAAEA="
def keyB : String := "IAAAAAAAAAAAAAAAAAAAAAAAAAAAAAAAAAAAAAAAAEA="
def keyC : String := "MAAAAAAAAAAAAAAAAAAAAAAAAAAAAAAAAAAAAAAAAEA="

def hexA : String := "1000000000000000000000000000000000000000000000000000000000000040"
def hexB : String := "2000000000000000000000000000000000000000000000000000000000000040"
def hexC : String := "3000000000000000000000000000000000000000000000000000000000000040"

def conf (secret peer options : String) : Text :=
  ("[Interface]\nPrivateKey=" ++ secret ++ "\n[Peer]\nPublicKey=" ++ peer ++ "\n" ++ options).toList

def hostA : Sockaddr := ⟨afInet, 51820, [192, 0, 2, 1], 0, by decide, by decide⟩
def hostB : Sockaddr := ⟨afInet, 51820, [192, 0, 2, 2], 0, by decide, by decide⟩

theorem sockaddrInLen_pos : 0 < 16 := by decide
theorem sockaddrIn6Len_pos : 0 < 28 := by decide

/-- The lengths of the two kinds of address. -/
def sockaddrInLen : ℕ+ := ⟨16, sockaddrInLen_pos⟩
def sockaddrIn6Len : ℕ+ := ⟨28, sockaddrIn6Len_pos⟩

def names (addr : Sockaddr) : Resolver := fun _ _ => some (addr, sockaddrInLen)

/-- `t` seconds after both clocks were zero. -/
def instant (t : ℕ) : Moment := ⟨t * 1000000000, t * 1000000000⟩

/-- A secret of the specimen curve that clamping leaves as it is. -/
def secret : Bytes := zeros 31 ++ [64]

def dial (t : ℕ) (idx : UInt32) : InitiationEnv :=
  ⟨instant t, secret, instant t, [idx], instant t, instant t, instant t⟩

def intake (t : ℕ) (idx : UInt32) : UdpEnv where
  data := instant t
  initiation :=
    ⟨instant t, instant t, [idx], secret, instant t, instant t, instant t, instant t⟩
  response := ⟨instant t, instant t⟩
  cookie := instant t

/-- The datagram a call sends, if it sends one. -/
def sent : List Upcall → Bytes
  | .sendUdp bytes _ _ :: _ => bytes
  | _ => []

/-- An IPv4 packet from 10.0.0.1 to 10.0.0.2. -/
def packet : Bytes := [0x45, 0, 0, 20] ++ zeros 8 ++ [10, 0, 0, 1] ++ [10, 0, 0, 2]

def sessionA : Option WgSession :=
  wgSessionCreate specimen (names hostB)
    (conf keyA keyB "Endpoint=b:51820\nAllowedIPs=10.0.0.2/32\n")

def sessionB : Option WgSession :=
  wgSessionCreate specimen (names hostA) (conf keyB keyA "AllowedIPs=10.0.0.1/32\n")

/-- A dials B, has the answer and sends a packet: the initiation and the packet's datagram. -/
def sentToB : Option (Bytes × Bytes) := do
  let a ← sessionA
  let b ← sessionB
  let (a, ini) ← sessionStep specimen a (.kick (dial 100 7))
  let (_, rsp) ← sessionStep specimen b (.handleUdp (sent ini) hostA 16 (intake 100 8))
  let (a, _) ← sessionStep specimen a (.handleUdp (sent rsp) hostB 16 (intake 100 9))
  let (_, data) ← sessionStep specimen a (.handleTun packet ⟨instant 101, instant 101, true⟩)
  pure (sent ini, sent data)

/-- B over calls that may pass it the initiation and the data. -/
def runB (calls : Bytes → Bytes → List Call) : Option (WgSession × List (List Upcall)) := do
  let (ini, data) ← sentToB
  let b ← sessionB
  Run.exec (sessionStep specimen) b (calls ini data)

theorem reachable_of_runB {ok : WgSession → Call → Prop} {calls : Bytes → Bytes → List Call}
    {s : WgSession} {out : List (List Upcall)}
    (hok : ∀ ini data s, ∀ call ∈ calls ini data, ok s call) (h : runB calls = some (s, out)) :
    ReachableIf specimen ok s := by
  simp only [runB, Option.bind_eq_bind, Option.bind_eq_some_iff] at h
  obtain ⟨⟨ini, data⟩, -, b, hb, hrun⟩ := h
  exact ⟨b, calls ini data, ⟨_, _, hb⟩, Run.of_exec (hok ini data) hrun⟩

/-- The request that removes the peer with the key `pub`. -/
def removal (pub : String) : Text := ("public_key=" ++ pub ++ "\nremove=true\n").toList

/-- The request that replaces the peer A with C, which gets A's addresses. -/
def replacement : Text :=
  ("public_key=" ++ hexA ++ "\nremove=true\npublic_key=" ++ hexC
    ++ "\nallowed_ip=10.0.0.1/32\n").toList

end Specimen

end PolarWG
