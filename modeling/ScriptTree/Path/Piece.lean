import ScriptTree.Path.Fault
import ScriptTree.Path.Nesting
import ScriptTree.Text.Measure

/-!
# The pieces between the dots

The first reading of a path cuts it at the dots that stand outside all brackets. It sees every
closing bracket that has no opening one, and at the end a subscript or a quoted stretch that is
still open; what the pieces themselves look like is not its business.
-/
namespace ScriptTree.Path

open Text (byteLength)

/-- A stretch of a path between two dots and the byte at which it begins. -/
structure Piece where
  offset : Nat
  text : List Char
deriving DecidableEq

/-- Reads on from a place inside a piece that began at byte `start`: the rest of that piece and the
pieces after it. -/
def splitFrom (n : Nesting) (start position : Nat) :
    List Char → Except Fault (List Char × List Piece)
  | [] =>
    if n.isTop then .ok ([], [])
    else .error ⟨.unclosedSubscript, ⟨start, position - start⟩⟩
  | c :: cs =>
    if c = '.' ∧ n.isTop then do
      let (text, pieces) ← splitFrom n (position + 1) (position + 1) cs
      return ([], ⟨position + 1, text⟩ :: pieces)
    else
      match n.step c with
      | none => .error ⟨.unbalancedBracket, ⟨position, 1⟩⟩
      | some n => do
        let (text, pieces) ← splitFrom n start (position + c.utf8Size) cs
        return (c :: text, pieces)

/-- The pieces of a path. There is always at least one. -/
def split (path : List Char) : Except Fault (List Piece) := do
  let (text, pieces) ← splitFrom .top 0 0 path
  return ⟨0, text⟩ :: pieces

end ScriptTree.Path
