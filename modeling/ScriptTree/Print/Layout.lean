import ScriptTree.Print.Expr

/-!
# Lines and their layout

A statement is printed as lines, each with the depth at which it stands: a class contributes its
header and then its body one level deeper, every other statement one line. The lines do not depend
on the indent size, which enters only when they are laid out as text.
-/
namespace ScriptTree

open Print (Fault commaJoin)

/-- A line of text without its indent. -/
structure Line where
  depth : Nat
  text : List Char
deriving DecidableEq

def Line.layout (indentSize : Nat) (l : Line) : List Char :=
  List.replicate (l.depth * indentSize) ' ' ++ (l.text ++ ['\n'])

/-- The text of lines under each other. -/
def layout (indentSize : Nat) (lines : List Line) : List Char :=
  lines.flatMap (Line.layout indentSize)

def passLine : List Char := ['p', 'a', 's', 's']

def fromWord : List Char := ['f', 'r', 'o', 'm', ' ']

def importWord : List Char := [' ', 'i', 'm', 'p', 'o', 'r', 't', ' ']

def classWord : List Char := ['c', 'l', 'a', 's', 's', ' ']

/-- The text `from m import a, b`. There must be a name; this is looked at first. -/
def importText (q : QuoteStyle) (source : Expr) (names : List Ident) :
    Except Fault (List Char) :=
  if names = [] then .error .importWithoutNames
  else do
    let source ← source.text q
    let names ← names.mapM Ident.text
    return fromWord ++ (source ++ (importWord ++ commaJoin names))

/-- The text `class C(a, b):`, without parentheses if there are no bases. -/
def headerText (q : QuoteStyle) (name : Ident) (bases : List Expr) :
    Except Fault (List Char) := do
  let name ← name.text
  let bases ← Expr.textAll q bases
  let parenthesised := if bases = [] then [] else '(' :: (commaJoin bases ++ [')'])
  return classWord ++ (name ++ (parenthesised ++ [':']))

/-- The text `x = v`. -/
def assignText (q : QuoteStyle) (target : Ident) (value : Expr) : Except Fault (List Char) := do
  let target ← target.text
  let value ← value.text q
  return target ++ ' ' :: '=' :: ' ' :: value

/-- The text `x: t`. -/
def annAssignText (q : QuoteStyle) (target : Ident) (type : Expr) :
    Except Fault (List Char) := do
  let target ← target.text
  let type ← type.text q
  return target ++ ':' :: ' ' :: type

mutual

/-- The lines of a statement that stands at a depth. -/
def Stmt.lines (q : QuoteStyle) (depth : Nat) : Stmt → Except Fault (List Line)
  | .importFrom source names => return [⟨depth, ← importText q source names⟩]
  | .classDef name bases body => do
    let header ← headerText q name bases
    let inner ← Stmt.linesAll q (depth + 1) body
    return ⟨depth, header⟩ :: (if body.isEmpty then [⟨depth + 1, passLine⟩] else inner)
  | .assign target value => return [⟨depth, ← assignText q target value⟩]
  | .annAssign target type => return [⟨depth, ← annAssignText q target type⟩]
  | .expr value => return [⟨depth, ← value.text q⟩]
  | .pass => return [⟨depth, passLine⟩]
termination_by structural s => s

def Stmt.linesAll (q : QuoteStyle) (depth : Nat) : List Stmt → Except Fault (List Line)
  | [] => .ok []
  | s :: ss => do
    let lines ← s.lines q depth
    let rest ← Stmt.linesAll q depth ss
    return lines ++ rest
termination_by structural ss => ss

end

/-- The text of statements under each other. -/
def Stmt.textAll (o : PrintOptions) (ss : List Stmt) : Except Fault (List Char) := do
  return layout o.indentSize (← Stmt.linesAll o.quote 0 ss)

def Stmt.text (o : PrintOptions) (s : Stmt) : Except Fault (List Char) := do
  return layout o.indentSize (← s.lines o.quote 0)

def Module.text (o : PrintOptions) (m : Module) : Except Fault (List Char) := Stmt.textAll o m.body

/-- The text of a tree as it stands; an expression has no line break at its end. -/
def Node.text (o : PrintOptions) : Node → Except Fault (List Char)
  | .module m => m.text o
  | .stmt s => s.text o
  | .expr e => e.text o.quote

/-- Prints a tree as it stands. -/
def Node.print (o : PrintOptions) (n : Node) : Except Error String :=
  match n.text o with
  | .ok text => .ok (String.ofList text)
  | .error f => .error f.toError

/-- Prints a tree, a bare list display as a statement. -/
def Node.renderWith (o : PrintOptions) (n : Node) : Except Error String := n.normalized.print o

/-- Prints a tree with the default options, a bare list display as a statement. -/
def Node.render (n : Node) : Except Error String := n.renderWith {}

end ScriptTree
