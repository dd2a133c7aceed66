import ScriptTree.Error
import ScriptTree.Text.Letter
import ScriptTree.Text.Numeral
import ScriptTree.Tree.Basic

/-!
# Identifiers

The names of classes, fields, variables and imported symbols start with a letter or an underscore
and go on with letters, numerals and underscores. Reserved words are not singled out.
-/
namespace ScriptTree

/-- A character that can begin an identifier. -/
def isIdentifierStart (c : Char) : Bool := c == '_' || Text.isLetter c

/-- A character that can stand in an identifier. -/
def isIdentifierPart (c : Char) : Bool := c == '_' || Text.isLetter c || Text.isNumeral c

def isIdentifier : List Char → Bool
  | [] => false
  | c :: cs => isIdentifierStart c && cs.all isIdentifierPart

/-- The name, if it is an identifier. -/
def Ident.check (name : String) : Except Error Ident :=
  if isIdentifier name.toList then .ok ⟨name⟩ else .error (.invalidIdentifier name)

theorem Ident.check_eq_ok_iff (name : String) (i : Ident) :
    Ident.check name = .ok i ↔ isIdentifier name.toList = true ∧ i = ⟨name⟩ := by
  unfold Ident.check
  split
  · next h =>
    constructor
    · intro e; cases e; exact ⟨h, rfl⟩
    · rintro ⟨_, rfl⟩; rfl
  · next h =>
    constructor
    · intro e; cases e
    · intro e; exact absurd e.1 h

end ScriptTree
