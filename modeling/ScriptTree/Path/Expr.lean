import ScriptTree.Path.Segment
import ScriptTree.Tree.Basic

/-!
# The tree of a path

The first segment of a path is a name, each later one an attribute of what stands before it, and
the subscripts of a segment apply to all that stands before them. A subscript that reads as an
integer becomes an integer; if it is one quoted string it loses its quotes; every other text stands
for itself.
-/
namespace ScriptTree.Path

/-- The text without its first and last character, if these are the same quote character. -/
def unquote : List Char → List Char
  | q :: rest => if isQuote q ∧ rest.getLast? = some q then rest.dropLast else q :: rest
  | [] => []

/-- The literal that the text of a subscript stands for. -/
def indexLiteral (index : String) : Expr :=
  match (Text.readInteger? index.toList).bind Text.int64? with
  | some i => .int i
  | none => .string (String.ofList (unquote index.toList))

/-- Applies the subscripts of a segment. -/
def Segment.subscript (s : Segment) (e : Expr) : Expr :=
  s.indices.foldl (fun e index => .subscript e (indexLiteral index)) e

/-- Wraps what stands before a segment into it. -/
def Segment.attach (e : Expr) (s : Segment) : Expr := s.subscript (.attr e ⟨s.name⟩)

/-- The tree of the segments, unless there are none. -/
def toExpr? : List Segment → Option Expr
  | [] => none
  | s :: rest => some (rest.foldl Segment.attach (s.subscript (.ofName s.name)))

/-- The tree of segments that were read from a path. -/
def treeOf (path : String) (segments : List Segment) : Except Error Expr :=
  match toExpr? segments with
  | some e => .ok e
  | none => .error (Fault.toError path ⟨.emptyPath, ⟨0, 0⟩⟩)

/-- The tree of a path: a bare name stays a name. -/
def expr (path : String) : Except Error Expr := do
  treeOf path (← read path)

/-- The tree of the dotted name of a module, in which no segment has a subscript. -/
def moduleExpr (path : String) : Except Error Expr := do
  let segments ← read path
  if segments.any (fun s => !s.indices.isEmpty) then
    .error (Fault.toError path ⟨.subscriptedModule, ⟨0, path.utf8ByteSize⟩⟩)
  else treeOf path segments

/-- The tree of a path with at least two segments. -/
def attributeExpr (path : String) : Except Error Expr := do
  let segments ← read path
  if segments.length < 2 then .error (Fault.toError path ⟨.missingDot, ⟨0, path.utf8ByteSize⟩⟩)
  else treeOf path segments

end ScriptTree.Path
