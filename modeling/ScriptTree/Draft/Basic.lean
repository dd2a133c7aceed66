import ScriptTree.Path.Expr
import ScriptTree.Tree.Equality

/-!
# Drafts of expressions

A draft is an expression under construction. Calls, sequences, mappings and attributes are drafts
that a value can hold; what was put into them is already a tree, so a draft never fails when it is
turned into one.
-/
namespace ScriptTree.Draft

/-- A call under construction: positional arguments in order and keyword arguments by name. -/
structure Call where
  func : Expr
  args : List Expr
  kwargs : List (String × Expr)
deriving DecidableEq

/-- A list display under construction. -/
structure Sequence where
  elements : List Expr
deriving DecidableEq

/-- A dictionary display under construction. A key that is given again stays a separate entry. -/
structure Mapping where
  entries : List (String × Expr)
deriving DecidableEq

/-- A dotted path, kept as it was written, and the expression built on it so far. -/
structure Attribute where
  path : String
  expr : Expr
deriving DecidableEq

/-- The tree of a call: the positional arguments come first. -/
def Call.toExpr (c : Call) : Expr :=
  .call c.func (c.args.map .positional ++ c.kwargs.map fun (name, value) => .named name value)

def Sequence.toExpr (s : Sequence) : Expr := .list s.elements

def Mapping.toExpr (m : Mapping) : Expr :=
  .dict (m.entries.map fun (key, value) => ⟨.string key, value⟩)

def Attribute.toExpr (a : Attribute) : Expr := a.expr

/-- Two calls agree if they differ in the order of their keyword arguments at most. -/
def Call.agrees (a b : Call) : Bool :=
  decide (a.func = b.func) && decide (a.args = b.args) &&
    (a.kwargs.length == b.kwargs.length &&
      a.kwargs.all fun (name, value) => b.kwargs.lookup name == some value)

end ScriptTree.Draft
