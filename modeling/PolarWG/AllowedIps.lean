import PolarWG.Lib.BitTrie

/-!
# The allowed-IPs trie

`allowedips.c`: a bit trie over network-order addresses. A node carries a peer when a CIDR ends
at it; the address bits below the prefix length are never read. Allocation succeeds.
-/

namespace PolarWG

/-- Network-order bytes, and every other byte string of the program. -/
abbrev Bytes := List UInt8

variable {P : Type*}

abbrev AipsNode (P : Type*) := BitTrie P

structure AipsTrie (P : Type*) where
  root : AipsNode P
  maxBits : ℕ
  entries : ℕ

/-- Bit `i` of an address, `0` the high bit of byte `0`. -/
def bitAt (addr : Bytes) (i : ℕ) : ℕ :=
  ((addr.getD (i >>> 3) 0).toNat >>> (7 - (i &&& 7))) &&& 1

def aipsInit (maxBits : ℕ) : AipsTrie P := { root := .nil, maxBits, entries := 0 }

/-- The loop of `aips_insert` from bit `i`, with `left` bits to go: the node that replaces `n`, and
whether the node it ends at had no peer. -/
def aipsInsertLoop (addr : Bytes) (peer : P) : ℕ → ℕ → AipsNode P → AipsNode P × Bool
  | 0, _, n => (.node (some peer) (n.child false) (n.child true), n.value.isNone)
  | left + 1, i, n =>
    let b := bitAt addr i == 1
    let (c, fresh) := aipsInsertLoop addr peer left (i + 1) (n.child b)
    (n.setChild b c, fresh)

def aipsInsert (t : AipsTrie P) (addr : Bytes) (prefixLen : ℕ) (peer : P) : Int × AipsTrie P :=
  if t.maxBits < prefixLen then (-1, t)
  else
    let (root, fresh) := aipsInsertLoop addr peer prefixLen 0 t.root
    (0, { t with root, entries := if fresh then t.entries + 1 else t.entries })

/-- The loop of `aips_lookup`: stops at a missing child. -/
def aipsLookupLoop (addr : Bytes) : ℕ → ℕ → AipsNode P → Option P → Option P
  | 0, _, _, best => best
  | left + 1, i, n, best =>
    match n.child (bitAt addr i == 1) with
    | .nil => best
    | .node v z o => aipsLookupLoop addr left (i + 1) (.node v z o) (v.or best)

def aipsLookup (t : AipsTrie P) (addr : Bytes) : Option P :=
  match t.root with
  | .nil => none
  | .node v z o => aipsLookupLoop addr t.maxBits 0 (.node v z o) v

/-- The loop of `aips_remove`: `none` where it returns `-1`. -/
def aipsRemoveLoop (addr : Bytes) : ℕ → ℕ → AipsNode P → Option (AipsNode P)
  | _, _, .nil => none
  | 0, _, .node none _ _ => none
  | 0, _, .node (some _) z o => some (.node none z o)
  | left + 1, i, .node v z o =>
    let b := bitAt addr i == 1
    (aipsRemoveLoop addr left (i + 1) ((BitTrie.node v z o).child b)).map
      (BitTrie.setChild (.node v z o) b)

def aipsRemove (t : AipsTrie P) (addr : Bytes) (prefixLen : ℕ) : Int × AipsTrie P :=
  if t.maxBits < prefixLen then (-1, t)
  else
    match aipsRemoveLoop addr prefixLen 0 t.root with
    | none => (-1, t)
    | some root => (0, { t with root, entries := t.entries - 1 })

end PolarWG
