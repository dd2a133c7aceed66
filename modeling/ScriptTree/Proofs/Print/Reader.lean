import ScriptTree.Proofs.Print.Literal
import ScriptTree.Proofs.Tree.Subexpression
import ScriptTree.Proofs.Word
import ScriptTree.Text.Integer

/-!
# Reading expressions back

A reader for the text of expressions, written from the form of the text: postfix forms bind to what
stands before them, a row of operands between bars associates to the right, and every list is read
up to its closing bracket. The number bounds how deep and how long the reader goes; the length of
the text is always enough.
-/
namespace ScriptTree.Print

open Text (after?)

/-- What a reader takes from the front of a text, and the rest. -/
abbrev Reading (α : Type) := List Char → Option (α × List Char)

/-! ## Lists up to a closing bracket -/

/-- One or more items with a comma and a blank between them. -/
def items {α : Type} (item : Reading α) (closing : Char) : Nat → Reading (List α)
  | 0, _ => none
  | k + 1, cs => do
    let (x, cs) ← item cs
    match after? [closing] cs with
    | some cs => some ([x], cs)
    | none => do
      let cs ← after? [',', ' '] cs
      let (xs, cs) ← items item closing k cs
      some (x :: xs, cs)

/-- Any number of items. -/
def listOf {α : Type} (item : Reading α) (closing : Char) (k : Nat) : Reading (List α) := fun cs =>
  match after? [closing] cs with
  | some cs => some ([], cs)
  | none => items item closing k cs

section Parts

variable (read : Reading Expr)

def entry : Reading (Entry Expr) := fun cs => do
  let (key, cs) ← read cs
  let cs ← after? [':', ' '] cs
  let (value, cs) ← read cs
  some (⟨key, value⟩, cs)

/-- The expression that a word stands for. -/
def ofWord (word : List Char) : Expr :=
  if word = ['T', 'r', 'u', 'e'] then .bool true
  else if word = ['F', 'a', 'l', 's', 'e'] then .bool false
  else .name ⟨String.ofList word⟩

/-- The word that stands for an expression. -/
def word? : Expr → Option Ident
  | .name i => some i
  | .literal (.bool true) => some ⟨"True"⟩
  | .literal (.bool false) => some ⟨"False"⟩
  | _ => none

/-- An argument. What stands before an equals sign is a keyword, whatever word it is. -/
def argument : Reading (Argument Expr) := fun cs => do
  let (e, cs) ← read cs
  match after? [' ', '=', ' '] cs with
  | none => some (⟨none, e⟩, cs)
  | some cs => do
    let keyword ← word? e
    let (value, cs) ← read cs
    some (⟨some keyword, value⟩, cs)

/-- An expression that is not a postfix form. -/
def atom (q : QuoteStyle) (k : Nat) : Reading Expr
  | [] => none
  | c :: cs =>
    if c = q.delimiter then
      (literalBody q.delimiter cs).map fun (s, cs) => (.string (String.ofList s), cs)
    else if c = '[' then (listOf read ']' k cs).map fun (es, cs) => (.list es, cs)
    else if c = '{' then (listOf (entry read) '}' k cs).map fun (es, cs) => (.dict es, cs)
    else if c = '-' ∨ c.isDigit then
      ((Text.readInteger? (c :: cs.takeWhile Char.isDigit)).bind Text.int64?).map
        fun i => (.int i, cs.dropWhile Char.isDigit)
    else if isIdentifierStart c then
      some (ofWord (c :: cs.takeWhile isIdentifierPart), cs.dropWhile isIdentifierPart)
    else none

/-- The postfix forms that follow an expression. -/
def suffixes : Nat → Expr → Reading Expr
  | 0, _, _ => none
  | k + 1, e, cs =>
    match cs with
    | '.' :: cs =>
      suffixes k (.attr e ⟨String.ofList (cs.takeWhile isIdentifierPart)⟩)
        (cs.dropWhile isIdentifierPart)
    | '[' :: cs => do
      let (i, cs) ← read cs
      let cs ← after? [']'] cs
      suffixes k (.subscript e i) cs
    | '(' :: cs => do
      let (xs, cs) ← listOf (argument read) ')' k cs
      suffixes k (.call e xs) cs
    | cs => some (e, cs)

/-- An expression without a bar outside its brackets. -/
def operand (q : QuoteStyle) (k : Nat) : Reading Expr := fun cs => do
  let (e, cs) ← atom read q k cs
  suffixes read k e cs

end Parts

/-- An expression from the front of a text. -/
def expr (q : QuoteStyle) : Nat → Reading Expr
  | 0, _ => none
  | n + 1, cs => do
    let (e, cs) ← operand (expr q n) q (n + 1) cs
    match after? [' ', '|', ' '] cs with
    | none => some (e, cs)
    | some cs => do
      let (r, cs) ← expr q n cs
      some (.bitOr e r, cs)

/-- The expression that a whole text denotes. -/
def readExpr? (q : QuoteStyle) (text : List Char) : Option Expr :=
  match expr q (text.length + 1) text with
  | some (e, []) => some e
  | _ => none

/-! ## Steps of the reader -/

section Steps

variable {α : Type} {read : Reading Expr} {q : QuoteStyle}

theorem word?_ofWord (word : List Char) : word? (ofWord word) = some ⟨String.ofList word⟩ := by
  rw [ofWord]
  split
  · next h => rw [h]; rfl
  split
  · next h => rw [h]; rfl
  · rfl

theorem ofWord_of_ne {i : Ident} (ht : Expr.name i ≠ .ofName "True")
    (hf : Expr.name i ≠ .ofName "False") : ofWord i.name.toList = .name i := by
  have htrue : i.name.toList ≠ ['T', 'r', 'u', 'e'] := by
    intro heq
    exact ht (congrArg (fun s => Expr.name ⟨s⟩) (String.toList_inj.mp heq))
  have hfalse : i.name.toList ≠ ['F', 'a', 'l', 's', 'e'] := by
    intro heq
    exact hf (congrArg (fun s => Expr.name ⟨s⟩) (String.toList_inj.mp heq))
  rw [ofWord, if_neg htrue, if_neg hfalse, String.ofList_toList]

/-- Items that are each read from the front of their texts are read from the joined text. -/
theorem items_commaJoin {item : Reading α} {closing : Char} {xs : List α} {ts : List (List Char)}
    (h : List.Forall₂ (fun x t => ∀ c rest, c = ',' ∨ c = closing →
      item (t ++ c :: rest) = some (x, c :: rest)) xs ts)
    (hne : ts ≠ []) (hclosing : closing ≠ ',') {k : Nat} (hk : ts.length ≤ k) (rest : List Char) :
    items item closing k (commaJoin ts ++ closing :: rest) = some (xs, rest) := by
  induction h generalizing k with
  | nil => exact absurd rfl hne
  | @cons x t xs ts hx hxs ih =>
    cases k with
    | zero => simp at hk
    | succ k =>
      cases ts with
      | nil =>
        cases hxs
        rw [commaJoin, List.intercalate_singleton, items, hx closing rest (.inr rfl)]
        simp [Text.after?]
      | cons u ts =>
        have hrest := ih (List.cons_ne_nil _ _) (k := k) (by simpa using hk)
        have hsplit : commaJoin (t :: u :: ts) ++ closing :: rest =
            t ++ ',' :: ' ' :: (commaJoin (u :: ts) ++ closing :: rest) := by
          rw [commaJoin, List.intercalate_cons_cons]
          simp [commaJoin]
        rw [hsplit, items, hx ',' _ (.inl rfl)]
        simp [Text.after?, hclosing, hrest]

theorem listOf_commaJoin {item : Reading α} {closing : Char} {xs : List α}
    {ts : List (List Char)}
    (h : List.Forall₂ (fun x t => ∀ c rest, c = ',' ∨ c = closing →
      item (t ++ c :: rest) = some (x, c :: rest)) xs ts)
    (hnone : ∀ cs, item (closing :: cs) = none) (hclosing : closing ≠ ',') {k : Nat}
    (hk : ts.length ≤ k) (rest : List Char) :
    listOf item closing k (commaJoin ts ++ closing :: rest) = some (xs, rest) := by
  cases ts with
  | nil =>
    cases h
    rw [listOf, commaJoin, List.intercalate_nil, List.nil_append]
    simp [Text.after?]
  | cons t ts =>
    have hitems := items_commaJoin h (List.cons_ne_nil _ _) hclosing hk rest
    -- If the text began with the closing bracket, its first item could not have been read.
    have hafter : after? [closing] (commaJoin (t :: ts) ++ closing :: rest) = none := by
      cases hc : after? [closing] (commaJoin (t :: ts) ++ closing :: rest) with
      | none => rfl
      | some cs =>
        rw [Text.after?_eq_some hc] at hitems
        cases k with
        | zero => simp at hk
        | succ k => simp [items, hnone] at hitems
    rw [listOf, hafter]
    exact hitems

end Steps

end ScriptTree.Print
