import ScriptTree.Draft.Basic
import ScriptTree.Keyed

/-!
# Values

A value is what the drafts take wherever a literal or a composite is wanted. Mappings and sequences
keep their order and nest to any depth; a value may also hold a draft that is already begun, a bare
name, or a tree. `Value.resolve` is the only way from a value to a tree, and it has no errors.
-/
namespace ScriptTree

inductive Value where
  | string (value : String)
  | int (value : Int64)
  | bool (value : Bool)
  | map (entries : List (String × Value))
  | seq (items : List Value)
  | call (draft : Draft.Call)
  | dict (draft : Draft.Mapping)
  | attr (draft : Draft.Attribute)
  | name (ident : Ident)
  | raw (expr : Expr)

namespace Value

/-- The word for a value's kind. -/
def kind : Value → String
  | string _ => "string"
  | int _ => "integer"
  | bool _ => "boolean"
  | map _ => "mapping"
  | seq _ => "sequence"
  | call _ => "call"
  | dict _ => "dict"
  | attr _ => "attribute"
  | name _ => "name"
  | raw _ => "raw"

mutual

/-- The tree of a value. -/
def resolve : Value → Expr
  | string s => .string s
  | int n => .int n
  | bool b => .bool b
  | map entries => .dict (resolveEntries entries)
  | seq items => .list (resolveAll items)
  | call draft => draft.toExpr
  | dict draft => draft.toExpr
  | attr draft => draft.toExpr
  | name ident => .name ident
  | raw expr => expr
termination_by structural v => v

def resolveAll : List Value → List Expr
  | [] => []
  | v :: vs => v.resolve :: resolveAll vs
termination_by structural vs => vs

def resolveEntries : List (String × Value) → List (Entry Expr)
  | [] => []
  | (key, v) :: es => ⟨.string key, v.resolve⟩ :: resolveEntries es
termination_by structural es => es

end

theorem resolveAll_eq_map (vs : List Value) : resolveAll vs = vs.map resolve := by
  induction vs with
  | nil => rfl
  | cons v vs ih => rw [resolveAll, ih, List.map_cons]

theorem resolveEntries_eq_map (es : List (String × Value)) :
    resolveEntries es = es.map fun (key, v) => ⟨.string key, v.resolve⟩ := by
  induction es with
  | nil => rfl
  | cons e es ih => obtain ⟨key, v⟩ := e; rw [resolveEntries, ih, List.map_cons]

/-- A mapping from entries in which a repeated key keeps its first place and takes the last
value. -/
def ofIndexed (entries : List (String × Value)) : Value := .map (Keyed.ofList entries)

/-- A mapping in ascending order of the keys, compared by code points; of a repeated key the last
value counts. -/
def ofSorted (entries : List (String × Value)) : Value := .map (Keyed.sortedOfList entries)

mutual

/-- Whether two values are the same: of one kind and equal in what they hold, calls up to the order
of their keyword arguments. -/
def agrees : Value → Value → Bool
  | string a, string b => decide (a = b)
  | int a, int b => decide (a = b)
  | bool a, bool b => decide (a = b)
  | map as, map bs => agreesEntries as bs
  | seq as, seq bs => agreesAll as bs
  | call a, call b => a.agrees b
  | dict a, dict b => decide (a = b)
  | attr a, attr b => decide (a = b)
  | name a, name b => decide (a = b)
  | raw a, raw b => decide (a = b)
  | _, _ => false
termination_by structural v => v

def agreesAll : List Value → List Value → Bool
  | [], [] => true
  | a :: as, b :: bs => a.agrees b && agreesAll as bs
  | _, _ => false
termination_by structural vs => vs

def agreesEntries : List (String × Value) → List (String × Value) → Bool
  | [], [] => true
  | (k, a) :: as, (l, b) :: bs => decide (k = l) && a.agrees b && agreesEntries as bs
  | _, _ => false
termination_by structural es => es

end

end Value

end ScriptTree
