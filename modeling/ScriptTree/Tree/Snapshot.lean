import ScriptTree.Json.Basic
import ScriptTree.Tree.Basic

/-!
# Snapshots of trees

A snapshot is the JSON form of a tree. A choice between variants is an object with one member that
names the variant, except that the variant without content is its name alone; a record is an object
of its fields. The order of the fields is fixed.
-/
namespace ScriptTree

/-- A variant with its content. -/
def Json.tagged (tag : String) (content : Json) : Json := .object [(tag, content)]

def Ident.toJson (i : Ident) : Json := .object [("name", .string i.name)]

def Literal.toJson : Literal → Json
  | .string s => .tagged "String" (.string s)
  | .int n => .tagged "Int" (.integer n.toInt)
  | .bool b => .tagged "Bool" (.bool b)

/-- A keyword that is not there is null. -/
def Ident.optionToJson : Option Ident → Json
  | some i => i.toJson
  | none => .null

mutual

def Expr.toJson : Expr → Json
  | .literal l => .tagged "Literal" l.toJson
  | .name i => .tagged "Name" i.toJson
  | .attr v i => .tagged "Attribute" (.object [("value", v.toJson), ("attr", i.toJson)])
  | .subscript v i => .tagged "Subscript" (.object [("value", v.toJson), ("index", i.toJson)])
  | .bitOr l r => .tagged "BinOr" (.object [("lhs", l.toJson), ("rhs", r.toJson)])
  | .list es => .tagged "List" (.object [("elements", .array (Expr.toJsonAll es))])
  | .dict es => .tagged "Dict" (.object [("elements", .array (Expr.entriesToJson es))])
  | .call f xs =>
    .tagged "Call" (.object [("func", f.toJson), ("args", .array (Expr.argumentsToJson xs))])
termination_by structural e => e

def Expr.toJsonAll : List Expr → List Json
  | [] => []
  | e :: es => e.toJson :: Expr.toJsonAll es
termination_by structural es => es

def Expr.entriesToJson : List (Entry Expr) → List Json
  | [] => []
  | ⟨k, v⟩ :: es => .object [("key", k.toJson), ("value", v.toJson)] :: Expr.entriesToJson es
termination_by structural es => es

def Expr.argumentsToJson : List (Argument Expr) → List Json
  | [] => []
  | ⟨k, v⟩ :: xs =>
    .object [("keyword", Ident.optionToJson k), ("value", v.toJson)] :: Expr.argumentsToJson xs
termination_by structural xs => xs

end

mutual

def Stmt.toJson : Stmt → Json
  | .importFrom m names =>
    .tagged "ImportFrom" (.object [("module", m.toJson), ("names", .array (names.map Ident.toJson))])
  | .classDef name bases body =>
    .tagged "ClassDef" (.object [("name", name.toJson), ("bases", .array (Expr.toJsonAll bases)),
      ("body", .array (Stmt.toJsonAll body))])
  | .assign x v => .tagged "Assign" (.object [("target", x.toJson), ("value", v.toJson)])
  | .annAssign x t =>
    .tagged "AnnAssign" (.object [("target", x.toJson),
      ("annotation", .object [("value", t.toJson)])])
  | .expr v => .tagged "Expr" v.toJson
  | .pass => .string "Pass"
termination_by structural s => s

def Stmt.toJsonAll : List Stmt → List Json
  | [] => []
  | s :: ss => s.toJson :: Stmt.toJsonAll ss
termination_by structural ss => ss

end

def Module.toJson (m : Module) : Json := .object [("body", .array (Stmt.toJsonAll m.body))]

/-- The snapshot of a tree. -/
def Node.toJson : Node → Json
  | .module m => .tagged "Module" m.toJson
  | .stmt s => .tagged "Stmt" s.toJson
  | .expr e => .tagged "Expr" e.toJson

end ScriptTree
