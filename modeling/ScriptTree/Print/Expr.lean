import ScriptTree.Error
import ScriptTree.Print.Options
import ScriptTree.Print.Quoted
import ScriptTree.Tree.Basic

/-!
# The text of expressions

An expression is printed on one line and without parentheses. Only an empty identifier stops the
printer; which of several it meets first makes no difference to the fault.
-/
namespace ScriptTree

namespace Print

/-- Why a tree has no text. -/
inductive Fault where
  | emptyIdentifier
  | importWithoutNames
deriving DecidableEq

def Fault.reason : Fault → String
  | emptyIdentifier => "empty identifier"
  | importWithoutNames => "import statement without imported names"

def Fault.toError (f : Fault) : Error := .serialize f.reason

/-- Texts with a comma and a blank between them. -/
def commaJoin (texts : List (List Char)) : List Char := List.intercalate [',', ' '] texts

end Print

open Print (Fault commaJoin)

def Ident.text (i : Ident) : Except Fault (List Char) :=
  if i.name = "" then .error .emptyIdentifier else .ok i.name.toList

def Literal.text (q : QuoteStyle) : Literal → List Char
  | .string s => Print.quoted q.delimiter s.toList
  | .int n => Text.decimal n.toInt
  | .bool true => ['T', 'r', 'u', 'e']
  | .bool false => ['F', 'a', 'l', 's', 'e']

mutual

/-- The text of an expression. -/
def Expr.text (q : QuoteStyle) : Expr → Except Fault (List Char)
  | .literal l => .ok (l.text q)
  | .name i => i.text
  | .attr v a => do
    let value ← v.text q
    let attr ← a.text
    return value ++ '.' :: attr
  | .subscript v i => do
    let value ← v.text q
    let index ← i.text q
    return value ++ '[' :: (index ++ [']'])
  | .bitOr l r => do
    let lhs ← l.text q
    let rhs ← r.text q
    return lhs ++ ' ' :: '|' :: ' ' :: rhs
  | .list es => do
    let elements ← Expr.textAll q es
    return '[' :: (commaJoin elements ++ [']'])
  | .dict es => do
    let entries ← Expr.entryTexts q es
    return '{' :: (commaJoin entries ++ ['}'])
  | .call f xs => do
    let func ← f.text q
    let args ← Expr.argumentTexts q xs
    return func ++ '(' :: (commaJoin args ++ [')'])
termination_by structural e => e

def Expr.textAll (q : QuoteStyle) : List Expr → Except Fault (List (List Char))
  | [] => .ok []
  | e :: es => do
    let text ← e.text q
    let texts ← Expr.textAll q es
    return text :: texts
termination_by structural es => es

def Expr.entryTexts (q : QuoteStyle) : List (Entry Expr) → Except Fault (List (List Char))
  | [] => .ok []
  | ⟨k, v⟩ :: es => do
    let key ← k.text q
    let value ← v.text q
    let texts ← Expr.entryTexts q es
    return (key ++ ':' :: ' ' :: value) :: texts
termination_by structural es => es

def Expr.argumentTexts (q : QuoteStyle) : List (Argument Expr) → Except Fault (List (List Char))
  | [] => .ok []
  | ⟨none, v⟩ :: xs => do
    let value ← v.text q
    let texts ← Expr.argumentTexts q xs
    return value :: texts
  | ⟨some k, v⟩ :: xs => do
    let keyword ← k.text
    let value ← v.text q
    let texts ← Expr.argumentTexts q xs
    return (keyword ++ ' ' :: '=' :: ' ' :: value) :: texts
termination_by structural xs => xs

end

end ScriptTree
