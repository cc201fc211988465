import PolarWG.EndpointWatch
import PolarWG.Lib.Exact

/-!
# The public address

`PublicIPCache` decides when the address is asked for and what is kept of an answer, and
`PublicIPProbe` asks and keeps it in a file. A run is a sequence of its calls, each of which may be
made by another process.
-/

namespace PolarWG

/-- `Int` arithmetic traps where it overflows. -/
def checkedInt (n : ℤ) : Option ℤ := if -2 ^ 63 ≤ n ∧ n < 2 ^ 63 then some n else none

/-- `CharacterSet.whitespacesAndNewlines`. -/
def isWhitespaceOrNewline (c : Char) : Bool :=
  let n := c.toNat
  isWhitespaces c ∨ (0xA ≤ n ∧ n ≤ 0xD) ∨ n = 0x85 ∨ n = 0x2028 ∨ n = 0x2029

/-! ## The policy -/

structure PublicIPConfig where
  ttlSec : ℤ
  retrySec : ℤ

/-- The default arguments. -/
def PublicIPConfig.standard : PublicIPConfig := ⟨900, 120⟩

structure PublicIPEntry where
  stamp : ℤ
  ip : Text
deriving DecidableEq

/-- `Entry(serialized: String)`. -/
def PublicIPEntry.ofSerialized (serialized : Text) : Option PublicIPEntry :=
  match strtok ' ' serialized with
  | [] => none
  | first :: rest => (intOfText first).map fun stamp => ⟨stamp, rest.headD []⟩

def PublicIPEntry.serialized (e : PublicIPEntry) : Text := fmtSigned e.stamp ++ ' ' :: e.ip ++ ['\n']

inductive PublicIPDecision where
  | useCached (ip : Text)
  | probe (previous : Option Text)
deriving DecidableEq

/-- Numerals that are no ASCII digits are refused, as in `isOctet`. -/
def isIPv4 (s : Text) : Bool :=
  let parts := s.splitOn '.'
  parts.length = 4 ∧ parts.all fun p => p.length ≤ 3 ∧ isOctet p

namespace PublicIPCache

def decide (entry : Option PublicIPEntry) (now : ℤ) (config : PublicIPConfig) :
    Option PublicIPDecision :=
  match entry with
  | none => some (.probe none)
  | some entry =>
    if entry.ip = [] then some (.probe none)
    else do
      let age ← checkedInt (now - entry.stamp)
      if age < config.ttlSec then some (.useCached entry.ip)
      else some (.probe (some entry.ip))

/-- What to keep, what to report, and the address that it changed from. -/
def resolve (fetched previous : Option Text) (now : ℤ) (config : PublicIPConfig) :
    Option (PublicIPEntry × Option Text × Option Text) :=
  match fetched.filter isIPv4 with
  | some fetched =>
    let changed := if previous ≠ none ∧ previous ≠ some fetched then previous else none
    some (⟨now, fetched⟩, some fetched, changed)
  | none => do
    let expiring ← checkedInt (now - config.ttlSec)
    let backdated ← checkedInt (expiring + config.retrySec)
    some (⟨backdated, previous.getD []⟩, previous, none)

end PublicIPCache

/-! ## The probe -/

structure PublicIPProbe where
  urls : List Text
  config : PublicIPConfig

structure PublicIPResult where
  ip : Option Text
  changedFrom : Option Text
  fromCache : Bool
deriving DecidableEq

/-- What the file holds, if there is one. -/
def readEntry (cache : Option Text) : Option PublicIPEntry :=
  cache.bind fun text => PublicIPEntry.ofSerialized
    ((text.dropWhile isWhitespaceOrNewline).reverse.dropWhile isWhitespaceOrNewline).reverse

namespace PublicIPProbe

/-- A round asks the sources in turn, up to the first that answers an address. -/
def fetched (probe : PublicIPProbe) (fetch : ℕ → Text → Option Text) : Option Text :=
  probe.urls.zipIdx.findSome? fun (url, i) => (fetch i url).filter isIPv4

/-- The file after the call, and its result. The file can be written. -/
def currentIP (probe : PublicIPProbe) (cache : Option Text) (now : ℤ)
    (fetch : ℕ → Text → Option Text) : Option (Option Text × PublicIPResult) := do
  let nowSec ← checkedInt now
  match ← PublicIPCache.decide (readEntry cache) nowSec probe.config with
  | .useCached ip => some (cache, ⟨some ip, none, true⟩)
  | .probe previous =>
    let (entry, reported, changedFrom) ←
      PublicIPCache.resolve (probe.fetched fetch) previous nowSec probe.config
    some (some entry.serialized, ⟨reported, changedFrom, false⟩)

end PublicIPProbe

/-! ## Runs -/

/-- A call at a time; the source at each place answers something or fails. -/
structure ProbeCall where
  now : ℤ
  fetch : ℕ → Text → Option Text

structure ProbeRecord extends ProbeCall where
  result : PublicIPResult

/-- The file, and the calls so far, the last of them first. -/
structure Probing where
  cache : Option Text
  records : List ProbeRecord

def Probing.start : Probing := ⟨none, []⟩

/-- The clock does not run backwards. -/
def probeStep (probe : PublicIPProbe) (s : Probing) (c : ProbeCall) :
    Option (Probing × PublicIPResult) :=
  if s.records.head?.any (c.now < ·.now) then none
  else (probe.currentIP s.cache c.now c.fetch).map fun (cache, result) =>
    (⟨cache, ⟨c, result⟩ :: s.records⟩, result)

end PolarWG
