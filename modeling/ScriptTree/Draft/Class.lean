import ScriptTree.Draft.TypeUnion
import ScriptTree.Identifier
import ScriptTree.Value.Basic

/-!
# Class definitions

A class has a name, bases given as paths, and fields. A field has a value or a type and not both;
`declare` takes either as an option and refuses the two other cases whatever the name. Class and
field names must be identifiers. A class without fields has the body `pass`.
-/
namespace ScriptTree.Draft

inductive Field where
  | assigned (target : Ident) (value : Expr)
  | typed (target : Ident) (type : Expr)
deriving DecidableEq

def Field.toStmt : Field → Stmt
  | assigned target value => .assign target value
  | typed target type => .annAssign target type

structure Class where
  name : Ident
  bases : List Expr
  fields : List Field
deriving DecidableEq

namespace Class

/-- A class without bases and fields. -/
def ofName (name : String) : Except Error Class := do
  return ⟨← Ident.check name, [], []⟩

def addBase (c : Class) (path : String) : Except Error Class := do
  return { c with bases := c.bases ++ [← Path.expr path] }

/-- Adds `name = value`. -/
def addField (c : Class) (name : String) (value : Value) : Except Error Class := do
  return { c with fields := c.fields ++ [.assigned (← Ident.check name) value.resolve] }

/-- Adds `name: type`. -/
def addTypedField (c : Class) (name : String) (type : TypeUnion) : Except Error Class := do
  return { c with fields := c.fields ++ [.typed (← Ident.check name) type.toExpr] }

/-- Adds a field in the form that the options select. -/
def declare (c : Class) (name : String) : Option Value → Option TypeUnion → Except Error Class
  | some value, none => c.addField name value
  | none, some type => c.addTypedField name type
  | none, none => .error (.unimplementedFeature s!"field `{name}` without a value or a type")
  | some _, some _ => .error (.unimplementedFeature s!"field `{name}` with both a value and a type")

inductive Step where
  | base (path : String)
  | field (name : String) (value : Value)
  | typedField (name : String) (type : TypeUnion)
  | declare (name : String) (value : Option Value) (type : Option TypeUnion)

def step (c : Class) : Step → Except Error Class
  | .base path => c.addBase path
  | .field name value => c.addField name value
  | .typedField name type => c.addTypedField name type
  | .declare name value type => c.declare name value type

def toStmt (c : Class) : Stmt :=
  .classDef c.name c.bases (if c.fields.isEmpty then [.pass] else c.fields.map Field.toStmt)

end Class

end ScriptTree.Draft
