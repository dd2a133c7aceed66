import ScriptTree.Identifier
import ScriptTree.Value.Basic

/-!
# Assignments

A statement `target = value` whose target is an identifier.
-/
namespace ScriptTree.Draft

structure Assignment where
  target : Ident
  value : Expr
deriving DecidableEq

namespace Assignment

def ofValue (target : String) (value : Value) : Except Error Assignment := do
  return ⟨← Ident.check target, value.resolve⟩

def toStmt (a : Assignment) : Stmt := .assign a.target a.value

end Assignment

end ScriptTree.Draft
