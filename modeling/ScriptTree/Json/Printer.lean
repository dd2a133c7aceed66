import ScriptTree.Json.Basic
import ScriptTree.Number.Shortest
import ScriptTree.Text.Hex
import ScriptTree.Text.Integer

/-!
# JSON text

Two layouts of one value: `compact` puts everything on one line without blanks, `pretty` puts each
item and member on a line of its own, two blanks deeper than what contains it, and leaves an empty
array or object closed. Strings are written with the short escapes where there is one, with `\u`
and four lower-case hexadecimal digits for the other characters below U+0020, and verbatim
otherwise.
-/
namespace ScriptTree

/-- An integer in decimal digits, a float as the shortest text that reads back. -/
def JsonNumber.text : JsonNumber → List Char
  | .integer n => Text.decimal n
  | .float x => x.text

namespace Json

/-- The text of a character inside a string. -/
def escape (c : Char) : List Char :=
  if c = '"' then ['\\', '"']
  else if c = '\\' then ['\\', '\\']
  else if c = '\x08' then ['\\', 'b']
  else if c = '\x0c' then ['\\', 'f']
  else if c = '\n' then ['\\', 'n']
  else if c = '\r' then ['\\', 'r']
  else if c = '\t' then ['\\', 't']
  else if c.toNat < 32 then '\\' :: 'u' :: '0' :: '0' :: Text.hexPair c.toNat
  else [c]

/-- The text of a string. -/
def quoted (s : String) : List Char := '"' :: (s.toList.flatMap escape ++ ['"'])

def nullText : List Char := ['n', 'u', 'l', 'l']

def boolText : Bool → List Char
  | true => ['t', 'r', 'u', 'e']
  | false => ['f', 'a', 'l', 's', 'e']

mutual

/-- The text on one line. -/
def compact : Json → List Char
  | .null => nullText
  | .bool b => boolText b
  | .number n => n.text
  | .string s => quoted s
  | .array items => '[' :: (List.intercalate [','] (compactItems items) ++ [']'])
  | .object members => '{' :: (List.intercalate [','] (compactMembers members) ++ ['}'])
termination_by structural j => j

def compactItems : List Json → List (List Char)
  | [] => []
  | j :: js => j.compact :: compactItems js
termination_by structural js => js

def compactMembers : List (String × Json) → List (List Char)
  | [] => []
  | (k, j) :: ms => (quoted k ++ ':' :: j.compact) :: compactMembers ms
termination_by structural ms => ms

end

/-- The start of a line at a nesting depth. -/
def lineStart (depth : Nat) : List Char := '\n' :: List.replicate (2 * depth) ' '

/-- Lines between brackets; nothing stands between them if there are none. -/
def block (opening closing : Char) (depth : Nat) : List (List Char) → List Char
  | [] => [opening, closing]
  | lines =>
    opening :: (List.intercalate [','] (lines.map (lineStart (depth + 1) ++ ·)) ++
      lineStart depth ++ [closing])

mutual

/-- The text laid out over lines, for a value that stands at a nesting depth. -/
def prettyAt (depth : Nat) : Json → List Char
  | .null => nullText
  | .bool b => boolText b
  | .number n => n.text
  | .string s => quoted s
  | .array items => block '[' ']' depth (prettyItems (depth + 1) items)
  | .object members => block '{' '}' depth (prettyMembers (depth + 1) members)
termination_by structural j => j

def prettyItems (depth : Nat) : List Json → List (List Char)
  | [] => []
  | j :: js => j.prettyAt depth :: prettyItems depth js
termination_by structural js => js

def prettyMembers (depth : Nat) : List (String × Json) → List (List Char)
  | [] => []
  | (k, j) :: ms => (quoted k ++ ':' :: ' ' :: j.prettyAt depth) :: prettyMembers depth ms
termination_by structural ms => ms

end

/-- The text laid out over lines. -/
def pretty (j : Json) : List Char := j.prettyAt 0

end Json

end ScriptTree
