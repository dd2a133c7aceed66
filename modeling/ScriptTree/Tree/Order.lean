import ScriptTree.Tree.Basic

/-!
# Order of identifiers

Identifiers are ordered by their names, and names by code points.
-/
namespace ScriptTree.Ident

def le (a b : Ident) : Bool := decide (a.name ≤ b.name)

/-- Identifiers in ascending order. -/
def sort (is : List Ident) : List Ident := is.mergeSort le

end ScriptTree.Ident
