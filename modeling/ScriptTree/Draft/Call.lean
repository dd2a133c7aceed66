import ScriptTree.Value.Basic

/-!
# Calls

The callee of a call may be dotted. Positional arguments are appended; a keyword that is given
again keeps its first place and takes the last value. No step of a call fails.
-/
namespace ScriptTree.Draft.Call

/-- A call without arguments. -/
def ofCallee (callee : String) : Except Error Call := do
  return ⟨← Path.expr callee, [], []⟩

def addArg (c : Call) (value : Value) : Call := { c with args := c.args ++ [value.resolve] }

def addArgs (c : Call) (values : List Value) : Call := values.foldl addArg c

def setKwarg (c : Call) (name : String) (value : Value) : Call :=
  { c with kwargs := Keyed.put name value.resolve c.kwargs }

def setKwargs (c : Call) (values : List (String × Value)) : Call :=
  values.foldl (fun c (name, value) => c.setKwarg name value) c

inductive Step where
  | arg (value : Value)
  | args (values : List Value)
  | kwarg (name : String) (value : Value)
  | kwargs (values : List (String × Value))

def step (c : Call) : Step → Call
  | .arg value => c.addArg value
  | .args values => c.addArgs values
  | .kwarg name value => c.setKwarg name value
  | .kwargs values => c.setKwargs values

end ScriptTree.Draft.Call
