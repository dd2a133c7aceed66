import ScriptTree.Draft.Collection

/-!
# Attributes

An attribute is a dotted path with at least one dot. Defaults are merged into it from the right,
as in `settings.values | {"a": 1}`, any number of times.
-/
namespace ScriptTree.Draft.Attribute

def ofPath (path : String) : Except Error Attribute := do
  return ⟨path, ← Path.attributeExpr path⟩

/-- Merges a mapping of defaults into what was built so far. -/
def merge (a : Attribute) (defaults : List (String × Value)) : Attribute :=
  { a with expr := .bitOr a.expr (Mapping.ofEntries defaults).toExpr }

end ScriptTree.Draft.Attribute
