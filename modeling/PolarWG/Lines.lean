import PolarWG.TunnelManager

/-!
# Lines and their parts

What the Apple applications' string functions make of a text. The pair CR LF is one `Character`, but
the pieces that are left without the empty ones are the same.
-/

namespace PolarWG

/-- `CharacterSet.newlines`, and `Character.isNewline`. -/
def isNewline (c : Char) : Bool :=
  let n := c.toNat
  (0xA ≤ n ∧ n ≤ 0xD) ∨ n = 0x85 ∨ n = 0x2028 ∨ n = 0x2029

/-- `components(separatedBy: .newlines)`. -/
def newlineComponents (t : Text) : List Text := t.splitOnP isNewline

/-- `split(whereSeparator: \.isNewline)`. -/
def newlineSplit (t : Text) : List Text := (newlineComponents t).filter (· ≠ [])

/-- `split(separator:)`. -/
def splitOmitting (c : Char) (t : Text) : List Text := (t.splitOn c).filter (· ≠ [])

/-- `split(separator:, maxSplits: 1)`: separators in front are empty pieces, which do not count. -/
def splitOnce (c : Char) (t : Text) : List Text :=
  let t := t.dropWhile (· = c)
  match strchr c t with
  | some (before, after) => [before, after].filter (· ≠ [])
  | none => [t].filter (· ≠ [])

end PolarWG
