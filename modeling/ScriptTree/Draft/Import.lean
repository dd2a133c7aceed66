import ScriptTree.Identifier
import ScriptTree.Path.Expr

/-!
# Imports

A request to import one symbol from a module. The tree of the module is kept beside the path that it
was read from, so two requests with the same path and symbol are the same request. The path is
looked at before the symbol.
-/
namespace ScriptTree.Draft

structure Import where
  path : String
  symbol : Ident
  source : Expr
  source_eq : Path.moduleExpr path = .ok source

namespace Import

def ofPath (path symbol : String) : Except Error Import :=
  match h : Path.moduleExpr path with
  | .error e => .error e
  | .ok source => do
    return ⟨path, ← Ident.check symbol, source, h⟩

def toStmt (i : Import) : Stmt := .importFrom i.source [i.symbol]

/-- Whether two requests are for the same symbol of the same path. -/
def agrees (i j : Import) : Bool := decide (i.path = j.path) && decide (i.symbol = j.symbol)

theorem agrees_iff (i j : Import) : i.agrees j = true ↔ i = j := by
  constructor
  · intro h
    obtain ⟨p, s, e, he⟩ := i
    obtain ⟨q, t, f, hf⟩ := j
    simp only [agrees, Bool.and_eq_true, decide_eq_true_eq] at h
    obtain ⟨rfl, rfl⟩ := h
    obtain rfl : e = f := Except.ok.inj (he.symm.trans hf)
    rfl
  · rintro rfl
    simp [agrees]

instance : DecidableEq Import := fun i j => decidable_of_iff _ (agrees_iff i j)

/-- Adds a request at the end, unless it was made before. -/
def insert (i : Import) (is : List Import) : List Import :=
  if is.any i.agrees then is else is ++ [i]

/-- The different requests in the order in which they were first made. -/
def distinct (is : List Import) : List Import := is.foldl (fun acc i => i.insert acc) []

/-- The place of the first request that is the same as a given one. -/
def firstAgreeing (i : Import) (is : List Import) : Nat := is.findIdx i.agrees

end Import

end ScriptTree.Draft
