import ScriptTree.Json.Basic
import ScriptTree.Text.Blank
import ScriptTree.Text.Integer

/-!
# Print options

How a tree is laid out: the blanks per level and the quote character of string literals. Options
come from a stored object, in which what is missing takes its default and what is present must be
right, or from two texts of the environment, of which a text that makes no sense is ignored.
-/
namespace ScriptTree

/-- The quote character of string literals. -/
inductive QuoteStyle where
  | double
  | single
deriving DecidableEq

namespace QuoteStyle

def delimiter : QuoteStyle → Char
  | double => '"'
  | single => '\''

def name : QuoteStyle → String
  | double => "double"
  | single => "single"

/-- The style of an exact name. -/
def ofName? (name : String) : Option QuoteStyle :=
  if name = "double" then some .double else if name = "single" then some .single else none

/-- The style that a setting names: blanks around the name and the case of ASCII letters do not
count. -/
def parse? (text : String) : Option QuoteStyle :=
  ofName? (String.ofList ((Text.trim text.toList).map Char.toLower))

/-- The style that stored data names, as a text or as the only member of an object. -/
def ofJson? : Json → Option QuoteStyle
  | .string name => ofName? name
  | .object [(name, .null)] => ofName? name
  | _ => none

end QuoteStyle

structure PrintOptions where
  indentSize : Nat := 4
  quote : QuoteStyle := .double
deriving DecidableEq

namespace PrintOptions

/-- A stored indent size. -/
def indentOfJson? : Json → Option Nat
  | .number (.integer n) => if 0 ≤ n ∧ n ≤ Text.maxCount then some n.toNat else none
  | _ => none

/-- A stored field if it is there, and a default if it is not. -/
def fieldOr {α : Type} (read : Json → Option α) (default : α) : Option Json → Option α
  | some j => read j
  | none => some default

/-- The options of stored data: an object by names, or an array of the fields in order from which
the last ones may be missing. -/
def ofJson? : Json → Option PrintOptions
  | .object members => do
    let indentSize ← fieldOr indentOfJson? 4 (members.lookup "indent_size")
    let quote ← fieldOr QuoteStyle.ofJson? .double (members.lookup "quote")
    return { indentSize, quote }
  | .array items => do
    guard (items.length ≤ 2)
    let indentSize ← fieldOr indentOfJson? 4 items[0]?
    let quote ← fieldOr QuoteStyle.ofJson? .double items[1]?
    return { indentSize, quote }
  | _ => none

/-- Replaces an indent size by that of a setting, if the setting is a count. -/
def overlayIndent (size : Nat) (setting : Option String) : Nat :=
  (setting.bind fun text => Text.readCount? (Text.trim text.toList)).getD size

/-- Replaces a style by that of a setting, if the setting names one. -/
def overlayQuote (style : QuoteStyle) (setting : Option String) : QuoteStyle :=
  (setting.bind QuoteStyle.parse?).getD style

/-- The options with the settings of the environment over them. Each setting replaces its own field
and leaves the other alone. -/
def overlay (o : PrintOptions) (indent quote : Option String) : PrintOptions where
  indentSize := overlayIndent o.indentSize indent
  quote := overlayQuote o.quote quote

end PrintOptions

end ScriptTree
