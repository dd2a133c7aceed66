import ScriptTree.Value.Basic

/-!
# Sequences and mappings

Both are filled from the front to the back, at once or entry by entry, and resolve each value as it
is put in. The keys of a mapping are written as string literals.
-/
namespace ScriptTree.Draft

namespace Sequence

def empty : Sequence := ⟨[]⟩

def add (s : Sequence) (value : Value) : Sequence := ⟨s.elements ++ [value.resolve]⟩

def ofValues (values : List Value) : Sequence := values.foldl add empty

end Sequence

namespace Mapping

def empty : Mapping := ⟨[]⟩

def add (m : Mapping) (key : String) (value : Value) : Mapping :=
  ⟨m.entries ++ [(key, value.resolve)]⟩

def ofEntries (entries : List (String × Value)) : Mapping :=
  entries.foldl (fun m (key, value) => m.add key value) empty

/-- The number of entries, repeated keys included. -/
def size (m : Mapping) : Nat := m.entries.length

def isEmpty (m : Mapping) : Bool := m.entries.isEmpty

end Mapping

end ScriptTree.Draft
