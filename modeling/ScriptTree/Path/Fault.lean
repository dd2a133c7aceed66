import ScriptTree.Error

/-!
# What is wrong with a path

A fault names the defect and the stretch of the path that shows it.
-/
namespace ScriptTree.Path

inductive Defect where
  | unbalancedBracket
  | unclosedSubscript
  | emptySegment
  | textAfterSubscript
  | emptySubscript
  | integerOutOfRange
  | subscriptedModule
  | missingDot
  | emptyPath
deriving DecidableEq

def Defect.reason : Defect → String
  | unbalancedBracket => "unbalanced `]`"
  | unclosedSubscript => "unclosed subscript"
  | emptySegment => "empty segment"
  | textAfterSubscript => "unexpected text after subscript"
  | emptySubscript => "empty subscript"
  | integerOutOfRange => "integer subscript out of range"
  | subscriptedModule => "module paths cannot be subscripted"
  | missingDot => "attribute path must contain at least one dot"
  | emptyPath => "empty path"

structure Fault where
  defect : Defect
  span : Span
deriving DecidableEq

/-- The error that reports a fault of a path. -/
def Fault.toError (path : String) (f : Fault) : Error :=
  .invalidPath path f.defect.reason f.span

end ScriptTree.Path
