/-!
# Brackets and quotes in a path

Reading a path from left to right, a scanner knows how many brackets are open and whether it stands
inside a quoted stretch. A quote character opens such a stretch only inside brackets, and the same
character closes it; inside, brackets mean nothing. A closing bracket without an open one cannot be
read.
-/
namespace ScriptTree.Path

/-- The two characters that quote a stretch of a subscript. -/
def isQuote (c : Char) : Bool := c == '"' || c == '\''

/-- What a scanner knows between two characters. -/
structure Nesting where
  depth : Nat
  quote : Option Char
deriving DecidableEq

namespace Nesting

/-- Outside all brackets. -/
def top : Nesting := ⟨0, none⟩

/-- Whether a dot at this place separates two segments. -/
def isTop (n : Nesting) : Bool := n.quote.isNone && n.depth == 0

/-- The state after one more character. -/
def step (n : Nesting) (c : Char) : Option Nesting :=
  match n.quote with
  | some q => some (if c = q then { n with quote := none } else n)
  | none =>
    if isQuote c ∧ 0 < n.depth then some { n with quote := some c }
    else if c = '[' then some { n with depth := n.depth + 1 }
    else if c = ']' then if n.depth = 0 then none else some { n with depth := n.depth - 1 }
    else some n

end Nesting

end ScriptTree.Path
