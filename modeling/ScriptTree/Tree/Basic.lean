/-!
# Script trees

The tree of a small script: a module of statements, statements over expressions, and expressions
over names and literals. A tree says what is written and not how: layout, quotes and separators
belong to the printer. Nothing here restricts the names in a tree; the drafts that build trees
check theirs, and the printer refuses an empty one.
-/
namespace ScriptTree

/-- A single name such as `foo` or `MyClass`. -/
structure Ident where
  name : String
deriving DecidableEq

/-- The literal values of a script. -/
inductive Literal where
  | string (value : String)
  | int (value : Int64)
  | bool (value : Bool)
deriving DecidableEq

/-- One `key: value` entry of a dictionary display. -/
structure Entry (ε : Type) where
  key : ε
  value : ε

/-- One argument of a call; a keyword argument carries its name. -/
structure Argument (ε : Type) where
  keyword : Option Ident
  value : ε

/-- An expression. Entries of a dictionary keep their order and are never merged by key. -/
inductive Expr where
  | literal (value : Literal)
  | name (ident : Ident)
  | attr (value : Expr) (name : Ident)
  | subscript (value index : Expr)
  | bitOr (lhs rhs : Expr)
  | list (elements : List Expr)
  | dict (elements : List (Entry Expr))
  | call (func : Expr) (args : List (Argument Expr))

/-- A statement. A target with a type declares it and assigns nothing. -/
inductive Stmt where
  | importFrom (source : Expr) (names : List Ident)
  | classDef (name : Ident) (bases : List Expr) (body : List Stmt)
  | assign (target : Ident) (value : Expr)
  | annAssign (target : Ident) (type : Expr)
  | expr (value : Expr)
  | pass

structure Module where
  body : List Stmt

/-- Anything that can be printed on its own. -/
inductive Node where
  | module (value : Module)
  | stmt (value : Stmt)
  | expr (value : Expr)

namespace Expr

def string (value : String) : Expr := .literal (.string value)

def int (value : Int64) : Expr := .literal (.int value)

def bool (value : Bool) : Expr := .literal (.bool value)

def ofName (name : String) : Expr := .name ⟨name⟩

end Expr

/-- An argument given by its place. -/
def Argument.positional {ε : Type} (value : ε) : Argument ε := ⟨none, value⟩

/-- An argument given by name. -/
def Argument.named {ε : Type} (name : String) (value : ε) : Argument ε := ⟨some ⟨name⟩, value⟩

/-- A bare list display becomes a statement; it is the only expression that stands on a line of
its own. -/
def Node.normalized : Node → Node
  | .expr (.list elements) => .stmt (.expr (.list elements))
  | node => node

end ScriptTree
