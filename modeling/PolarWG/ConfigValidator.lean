import PolarWG.Lines

/-!
# The validator of a configuration text

`WGConfigValidator`, which the Apple applications ask before they save a profile or connect. The
parser gets the text's UTF-8.
-/

namespace PolarWG

/-- What Swift's strings go by: the characters of a text, its canonical form, and which code points
are letters, marks or numbers. -/
structure Unicode where
  characters : Text → List Text
  canonical : Text → Text
  alphanumerics : Char → Bool

/-- The bytes of a text. -/
def utf8 (t : Text) : Text :=
  t.flatMap fun c => (String.utf8EncodeChar c).map fun b => Char.ofNat b.toNat

structure ValidationResult where
  isValid : Bool
  errors : List Text
deriving DecidableEq

variable (u : Unicode)

/-! ## Strings -/

/-- `==`. -/
def Unicode.same (t v : Text) : Bool := u.canonical t = u.canonical v

/-- `hasPrefix` of one character. -/
def Unicode.beginsWith (c : Char) (t : Text) : Bool := (u.characters t).head?.any (u.same · [c])

/-- `hasSuffix` of one character. -/
def Unicode.endsWith (c : Char) (t : Text) : Bool := (u.characters t).getLast?.any (u.same · [c])

def Unicode.contains (c : Char) (t : Text) : Bool := (u.characters t).any (u.same · [c])

/-- `replacingOccurrences` of one character by nothing. -/
def Unicode.removing (c : Char) (t : Text) : Text :=
  ((u.characters t).filter fun d => ¬ u.same d [c]).flatten

/-- `split(separator:, maxSplits: 1)`. -/
def Unicode.splitOnce (c : Char) (t : Text) : List Text :=
  let cs := (u.characters t).dropWhile (u.same · [c])
  let before := cs.takeWhile fun d => ¬ u.same d [c]
  let after := (cs.dropWhile fun d => ¬ u.same d [c]).drop 1
  ([before, after].filter (· ≠ [])).map List.flatten

/-! ## The validator -/

namespace WGConfigValidator

/-- 44 characters that may be base64, the last of them the padding. -/
def isValidBase64Key (s : Text) : Bool :=
  let trimmed := trimmed s
  (u.characters trimmed).length = 44 ∧ u.endsWith '=' trimmed
    ∧ trimmed.all fun c => u.alphanumerics c ∨ c ∈ ['+', '/', '=']

/-- The variables of the loop over the lines. -/
structure Validation where
  hasInterface : Bool
  hasPeer : Bool
  currentSection : Text
  hasPrivateKey : Bool
  hasAddress : Bool
  hasPublicKey : Bool
  hasEndpoint : Bool
  hasAllowedIPs : Bool
  errors : List Text

def Validation.initial : Validation := ⟨false, false, [], false, false, false, false, false, []⟩

def Validation.report (v : Validation) (errors : List String) : Validation :=
  { v with errors := v.errors ++ errors.map String.toList }

def sectionName (line : Text) : Text :=
  trimmed (u.removing ']' (u.removing '[' (lowercased line)))

def interfaceKey (v : Validation) (key value : Text) : Validation :=
  if u.same key "PrivateKey".toList then
    { v with hasPrivateKey := true }.report
      (if isValidBase64Key u value then [] else ["PrivateKey is not a valid 32-byte base64 key."])
  else if u.same key "Address".toList then
    { v with hasAddress := true }.report (if value = [] then ["Address is empty."] else [])
  else v

def peerKey (v : Validation) (key value : Text) : Validation :=
  if u.same key "PublicKey".toList then
    { v with hasPublicKey := true }.report
      (if isValidBase64Key u value then [] else ["PublicKey is not a valid 32-byte base64 key."])
  else if u.same key "Endpoint".toList then
    { v with hasEndpoint := true }.report
      (if value = [] then ["Endpoint is empty."]
      else if ¬ u.contains ':' value then ["Endpoint must be host:port format."]
      else [])
  else if u.same key "AllowedIPs".toList then { v with hasAllowedIPs := true }
  else v

/-- The body of the loop. -/
def validateLine (v : Validation) (line : Text) : Validation :=
  if line = [] ∨ u.beginsWith '#' line ∨ u.beginsWith ';' line then v
  else if u.beginsWith '[' line then
    let name := sectionName u line
    { v with
      currentSection := name
      hasInterface := v.hasInterface ∨ u.same name "interface".toList
      hasPeer := v.hasPeer ∨ u.same name "peer".toList }
  else match u.splitOnce '=' line with
    | [key, value] =>
      let key := trimmed key
      let value := trimmed value
      let v := if u.same v.currentSection "interface".toList then interfaceKey u v key value else v
      if u.same v.currentSection "peer".toList then peerKey u v key value else v
    | _ => v

/-- What has to be there. -/
def required (v : Validation) : Validation :=
  v.report ((if ¬ v.hasInterface then ["Missing [Interface] section."] else [])
    ++ (if ¬ v.hasPeer then ["Missing [Peer] section."] else [])
    ++ (if v.hasInterface ∧ ¬ v.hasPrivateKey then ["Missing PrivateKey in [Interface]."] else [])
    ++ (if v.hasInterface ∧ ¬ v.hasAddress then ["Missing Address in [Interface]."] else [])
    ++ (if v.hasPeer ∧ ¬ v.hasPublicKey then ["Missing PublicKey in [Peer]."] else [])
    ++ (if v.hasPeer ∧ ¬ v.hasAllowedIPs then ["Missing AllowedIPs in [Peer]."] else []))

def validate (config : Text) : ValidationResult :=
  let text := trimmingWhitespacesAndNewlines config
  if text = [] then ⟨false, ["Config is empty.".toList]⟩
  else
    let lines := (newlineComponents text).map trimmed
    let errors := (required (lines.foldl (validateLine u) .initial)).errors
    ⟨errors = [], errors⟩

end WGConfigValidator

end PolarWG
