import PolarWG.Aead

/-!
# The packet buffer stub

`struct mbuf` of the stub headers, the same on macOS and Windows: one allocation and a pointer into
it. A step that C leaves undefined has no result: an `int` that overflows, a copy that runs past
the allocation, and `realloc` of a pointer that `malloc` has not returned.
-/

namespace PolarWG

def intMax : ℤ := 2 ^ 31 - 1

def intMin : ℤ := -2 ^ 31

/-- As many bytes as an `int` can count. -/
abbrev Chunk := {bs : Bytes // (bs.length : ℤ) ≤ intMax}

/-- The allocation is as long as was asked for, and `off` is where `m_data` points in it. -/
structure MbufStub where
  alloc : Bytes
  off : ℕ
  mLen : ℤ
  pktLen : ℤ
  cap : ℕ
deriving DecidableEq

/-- What `malloc` finds in the memory that it gives. -/
def fresh (heap : ℕ → UInt8) (n : ℕ) : Bytes := (List.range n).map heap

def mDevget (heap : ℕ → UInt8) (data : Chunk) : MbufStub where
  alloc := overwrite (fresh heap (data.1.length + 64)) 0 data.1
  off := 0
  mLen := data.1.length
  pktLen := data.1.length
  cap := data.1.length + 64

namespace MbufStub

/-- The bytes from `m_data` on, `m_len` of them. -/
def visible (m : MbufStub) : Bytes := (m.alloc.drop m.off).take m.mLen.toNat

/-- The end of `m_append`, with the value returned. -/
def copied (m : MbufStub) (cp : Bytes) : Option (MbufStub × ℤ) :=
  let dst := m.off + m.mLen.toNat
  if m.alloc.length < dst + cp.length then none
  else some ({ m with
    alloc := overwrite m.alloc dst cp
    mLen := m.mLen + cp.length
    pktLen := m.pktLen + cp.length }, 1)

def mAppend (memory : Bool) (heap : ℕ → UInt8) (m : MbufStub) (cp : Chunk) :
    Option (MbufStub × ℤ) :=
  if intMax < m.mLen + cp.1.length then none
  else
    let need := (m.mLen + cp.1.length).toNat
    if need ≤ m.cap then m.copied cp.1
    else
      let newcap := need + 64
      if m.off ≠ 0 then none
      else if memory then
        copied { m with
          alloc := m.alloc ++ fresh heap (newcap - m.alloc.length)
          cap := newcap } cp.1
      else some (m, 0)

def mAdj (m : MbufStub) (len : Int32) : Option MbufStub :=
  let len := len.toInt
  if 0 ≤ len then
    let len := if len > m.mLen then m.mLen else len
    some { m with
      off := m.off + len.toNat
      mLen := m.mLen - len
      pktLen := m.pktLen - len }
  else if len = intMin then none
  else
    let trim := -len
    let trim := if trim > m.mLen then m.mLen else trim
    some { m with
      mLen := m.mLen - trim
      pktLen := m.pktLen - trim }

end MbufStub

/-! ## Runs -/

inductive MbufOp where
  /-- Another buffer, in the place of this one. -/
  | devget (heap : ℕ → UInt8) (data : Chunk)
  | append (memory : Bool) (heap : ℕ → UInt8) (cp : Chunk)
  | adj (len : Int32)

/-- What is done to the buffer, and what is returned: 1 where it is nothing. -/
def mbufStep (m : MbufStub) : MbufOp → Option (MbufStub × ℤ)
  | .devget heap data => some (mDevget heap data, 1)
  | .append memory heap cp => m.mAppend memory heap cp
  | .adj len => (m.mAdj len).map (·, 1)

/-- The same of a plain sequence of bytes, given what was returned. -/
def mbufSpec (rc : ℤ) (b : Mbuf) : MbufOp → Mbuf
  | .devget _ data => ⟨data.1⟩
  | .append _ _ cp => (mAppend (rc = 1) b cp.1).getD b
  | .adj len => mAdj b len.toInt

end PolarWG
