import ScriptTree.Json.Basic
import ScriptTree.Text.Integer
import ScriptTree.Tree.Basic

/-!
# Trees from snapshots

Reading is laxer than writing in the form of records and in nothing else. A record may be an object
with its fields in any order and other members among them, or an array of exactly its fields in
order; the keyword of an argument may be null, and in an object it may be missing. A variant is an
object with exactly one member; the variant without content is its name, alone or with null. Texts,
numbers and truth values are never converted into each other.

Each expression lies strictly inside the value that holds it, so the depth of the value bounds the
recursion.
-/
namespace ScriptTree

/-- The variant that a value names, with its content. -/
def Json.variant? : Json → Option (String × Json)
  | .object [(tag, content)] => some (tag, content)
  | _ => none

/-- The fields of a record. Only in an object may one be missing. -/
def Json.fields? (names : List String) : Json → Option (List (Option Json))
  | .object members => some (names.map fun name => members.lookup name)
  | .array items => if items.length = names.length then some (items.map some) else none
  | _ => none

/-- The items of an array, each read in turn. -/
def Json.listOf? {α : Type} (read : Json → Option α) : Json → Option (List α)
  | .array items => items.mapM read
  | _ => none

def Json.string? : Json → Option String
  | .string s => some s
  | _ => none

def Json.int64? : Json → Option Int64
  | .number (.integer n) => Text.int64? n
  | _ => none

def Json.bool? : Json → Option Bool
  | .bool b => some b
  | _ => none

def Ident.ofJson? (j : Json) : Option Ident := do
  let [some name] ← j.fields? ["name"] | none
  return ⟨← name.string?⟩

def Ident.optionOfJson? : Option Json → Option (Option Ident)
  | none => some none
  | some .null => some none
  | some j => (Ident.ofJson? j).map some

def Literal.ofJson? (j : Json) : Option Literal := do
  match ← j.variant? with
  | ("String", content) => return .string (← content.string?)
  | ("Int", content) => return .int (← content.int64?)
  | ("Bool", content) => return .bool (← content.bool?)
  | _ => none

/-- An entry of a dictionary, given how its expressions are read. -/
def Entry.ofJson? {ε : Type} (read : Json → Option ε) (j : Json) : Option (Entry ε) := do
  let [some key, some value] ← j.fields? ["key", "value"] | none
  return ⟨← read key, ← read value⟩

/-- An argument of a call, given how its expression is read. -/
def Argument.ofJson? {ε : Type} (read : Json → Option ε) (j : Json) : Option (Argument ε) := do
  let [keyword, some value] ← j.fields? ["keyword", "value"] | none
  return ⟨← Ident.optionOfJson? keyword, ← read value⟩

/-- An expression of a variant, given how the expressions inside it are read. -/
def Expr.ofVariant? (read : Json → Option Expr) : String × Json → Option Expr
  | ("Literal", j) => (Literal.ofJson? j).map .literal
  | ("Name", j) => (Ident.ofJson? j).map .name
  | ("Attribute", j) => do
    let [some value, some ident] ← j.fields? ["value", "attr"] | none
    return .attr (← read value) (← Ident.ofJson? ident)
  | ("Subscript", j) => do
    let [some value, some index] ← j.fields? ["value", "index"] | none
    return .subscript (← read value) (← read index)
  | ("BinOr", j) => do
    let [some lhs, some rhs] ← j.fields? ["lhs", "rhs"] | none
    return .bitOr (← read lhs) (← read rhs)
  | ("List", j) => do
    let [some elements] ← j.fields? ["elements"] | none
    return .list (← elements.listOf? read)
  | ("Dict", j) => do
    let [some elements] ← j.fields? ["elements"] | none
    return .dict (← elements.listOf? (Entry.ofJson? read))
  | ("Call", j) => do
    let [some func, some args] ← j.fields? ["func", "args"] | none
    return .call (← read func) (← args.listOf? (Argument.ofJson? read))
  | _ => none

/-- Reads an expression with at most `fuel` expressions inside each other. -/
def Expr.ofJsonWithin? : Nat → Json → Option Expr
  | 0, _ => none
  | fuel + 1, j => j.variant?.bind (Expr.ofVariant? (Expr.ofJsonWithin? fuel))

def Expr.ofJson? (j : Json) : Option Expr := Expr.ofJsonWithin? (j.depth + 1) j

/-- A statement of a variant, given how the statements inside it are read. -/
def Stmt.ofVariant? (read : Json → Option Stmt) : String × Json → Option Stmt
  | ("ImportFrom", j) => do
    let [some source, some names] ← j.fields? ["module", "names"] | none
    return .importFrom (← Expr.ofJson? source) (← names.listOf? Ident.ofJson?)
  | ("ClassDef", j) => do
    let [some name, some bases, some body] ← j.fields? ["name", "bases", "body"] | none
    return .classDef (← Ident.ofJson? name) (← bases.listOf? Expr.ofJson?) (← body.listOf? read)
  | ("Assign", j) => do
    let [some target, some value] ← j.fields? ["target", "value"] | none
    return .assign (← Ident.ofJson? target) (← Expr.ofJson? value)
  | ("AnnAssign", j) => do
    let [some target, some type] ← j.fields? ["target", "annotation"] | none
    let [some value] ← type.fields? ["value"] | none
    return .annAssign (← Ident.ofJson? target) (← Expr.ofJson? value)
  | ("Expr", j) => (Expr.ofJson? j).map .expr
  | ("Pass", .null) => some .pass
  | _ => none

/-- Reads a statement with at most `fuel` statements inside each other. -/
def Stmt.ofJsonWithin? : Nat → Json → Option Stmt
  | 0, _ => none
  | _ + 1, .string s => if s = "Pass" then some .pass else none
  | fuel + 1, j => j.variant?.bind (Stmt.ofVariant? (Stmt.ofJsonWithin? fuel))

def Stmt.ofJson? (j : Json) : Option Stmt := Stmt.ofJsonWithin? (j.depth + 1) j

def Module.ofJson? (j : Json) : Option Module := do
  let [some body] ← j.fields? ["body"] | none
  return ⟨← body.listOf? Stmt.ofJson?⟩

/-- The tree that a snapshot spells. -/
def Node.ofJson? (j : Json) : Option Node := do
  match ← j.variant? with
  | ("Module", content) => return .module (← Module.ofJson? content)
  | ("Stmt", content) => return .stmt (← Stmt.ofJson? content)
  | ("Expr", content) => return .expr (← Expr.ofJson? content)
  | _ => none

end ScriptTree
