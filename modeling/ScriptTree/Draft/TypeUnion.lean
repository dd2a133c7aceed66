import ScriptTree.Tree.Equality

/-!
# Unions of types

The type of a field is a union of type tokens and never empty. A token is a type's name or a list, with
the type of its elements or without. The tree of a union nests to the right, which its text does
not show.
-/
namespace ScriptTree.Draft

/-- One member of a union of types. -/
inductive TypeToken where
  | name (text : String)
  | list (inner : Option String)
deriving DecidableEq

def TypeToken.toExpr : TypeToken → Expr
  | name text => .ofName text
  | list (some inner) => .subscript (.ofName "list") (.ofName inner)
  | list none => .ofName "list"

structure TypeUnion where
  first : TypeToken
  rest : List TypeToken
deriving DecidableEq

namespace TypeUnion

def ofToken (t : TypeToken) : TypeUnion := ⟨t, []⟩

/-- The union with one more type. -/
def or (u : TypeUnion) (t : TypeToken) : TypeUnion := { u with rest := u.rest ++ [t] }

def tokens (u : TypeUnion) : List TypeToken := u.first :: u.rest

/-- The right-nested union of a token and those that follow it. -/
def unionExpr (t : TypeToken) : List TypeToken → Expr
  | [] => t.toExpr
  | u :: us => .bitOr t.toExpr (unionExpr u us)

def toExpr (u : TypeUnion) : Expr := unionExpr u.first u.rest

end TypeUnion

end ScriptTree.Draft
