import ScriptTree.Text.Hex

/-!
# String literals

A string literal stands between two delimiters. The delimiter itself, the backslash and the control
characters are written as escapes, so that a literal never holds a line break and ends at the first
delimiter without a backslash; the other quote character and everything else stand as they are.
-/
namespace ScriptTree.Print

/-- The control characters of category Cc. -/
def isControl (c : Char) : Bool := c.toNat < 32 || (127 ≤ c.toNat && c.toNat < 160)

/-- The text of a character inside a literal. -/
def escape (delimiter c : Char) : List Char :=
  if c = '\\' then ['\\', '\\']
  else if c = '\n' then ['\\', 'n']
  else if c = '\r' then ['\\', 'r']
  else if c = '\t' then ['\\', 't']
  else if c = delimiter then ['\\', delimiter]
  else if isControl c then '\\' :: 'x' :: Text.hexPair c.toNat
  else [c]

/-- The literal of a text. -/
def quoted (delimiter : Char) (text : List Char) : List Char :=
  delimiter :: (text.flatMap (escape delimiter) ++ [delimiter])

end ScriptTree.Print
