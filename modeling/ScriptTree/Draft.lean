import ScriptTree.Draft.Assignment
import ScriptTree.Draft.Attribute
import ScriptTree.Draft.Call
import ScriptTree.Draft.Class
import ScriptTree.Draft.Module
import ScriptTree.Draft.TypeUnion
import ScriptTree.Print.Layout

/-!
# Drafts of every kind

Anything that can be turned into a tree and printed at any time, whatever state it is in. Printing
a draft leaves it as it is.
-/
namespace ScriptTree

/-- A draft of some kind; a literal, a bare name and a tree fragment are finished expressions. -/
inductive Draft where
  | expr (value : Expr)
  | attr (draft : Draft.Attribute)
  | sequence (draft : Draft.Sequence)
  | mapping (draft : Draft.Mapping)
  | call (draft : Draft.Call)
  | typeUnion (draft : Draft.TypeUnion)
  | importFrom (draft : Draft.Import)
  | assignment (draft : Draft.Assignment)
  | classDef (draft : Draft.Class)
  | module (draft : Draft.Module)

namespace Draft

def toNode : Draft → Node
  | expr e => .expr e
  | attr d => .expr d.toExpr
  | sequence d => .expr d.toExpr
  | mapping d => .expr d.toExpr
  | call d => .expr d.toExpr
  | typeUnion d => .expr d.toExpr
  | importFrom d => .stmt d.toStmt
  | assignment d => .stmt d.toStmt
  | classDef d => .stmt d.toStmt
  | module d => .module d.toModule

/-- The code of a draft under the default options. -/
def code (d : Draft) : Except Error String := d.toNode.render

def codeWith (o : PrintOptions) (d : Draft) : Except Error String := d.toNode.renderWith o

/-- Whether two drafts of one kind are the same: calls up to the order of their keyword arguments,
modules by their trees. -/
def agrees : Draft → Draft → Bool
  | expr a, expr b => decide (a = b)
  | attr a, attr b => decide (a = b)
  | sequence a, sequence b => decide (a = b)
  | mapping a, mapping b => decide (a = b)
  | call a, call b => a.agrees b
  | typeUnion a, typeUnion b => decide (a = b)
  | importFrom a, importFrom b => a.agrees b
  | assignment a, assignment b => decide (a = b)
  | classDef a, classDef b => decide (a = b)
  | module a, module b => decide (a.toModule = b.toModule)
  | _, _ => false

end Draft

end ScriptTree
