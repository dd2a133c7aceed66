import ScriptTree.Proofs.Print.Reader
import ScriptTree.Proofs.Text.Digits
import ScriptTree.Proofs.Text.Join
import ScriptTree.Proofs.Tree.Union

/-!
# The text determines the tree

The reader gives back what was printed, up to the bracketing of chains. Each form of the text has
a lemma of its own: what the reader does with it depends on the parts it is made of and on nothing
that follows, as long as the text that follows does not go on with the same expression.
-/
namespace ScriptTree.Print

open Text (after?)
open Outcome (forall₂_imp_of_mem)

variable {q : QuoteStyle}

/-- With any bound above this one the reader takes an expression and leaves a rest. -/
def ReadsAs (q : QuoteStyle) (bound : Nat) (cs : List Char) (e : Expr) (rest : List Char) : Prop :=
  ∀ n, bound < n → expr q n cs = some (e, rest)

/-- No expression goes on into this text. -/
structure Stops (rest : List Char) : Prop where
  wordEnds : WordEnds rest
  noSuffix : ∀ c ∈ rest.head?, c ≠ '.' ∧ c ≠ '[' ∧ c ≠ '('
  noBar : after? [' ', '|', ' '] rest = none

theorem stops_nil : Stops [] := ⟨Text.endsRow_nil _, by simp, rfl⟩

theorem stops_cons {c : Char} (hc : c ∈ [',', ':', ']', '}', ')']) (cs : List Char) :
    Stops (c :: cs) := by
  obtain ⟨hpart, hsuffix, hblank⟩ : isIdentifierPart c = false ∧
      (c ≠ '.' ∧ c ≠ '[' ∧ c ≠ '(') ∧ ' ' ≠ c := by
    simp only [List.mem_cons, List.not_mem_nil, or_false] at hc
    rcases hc with rfl | rfl | rfl | rfl | rfl <;> decide
  refine ⟨Text.endsRow_cons hpart cs, ?_, Text.after?_of_ne hblank _ _⟩
  intro d hd
  cases hd
  exact hsuffix

theorem stops_equals (cs : List Char) : Stops (' ' :: '=' :: ' ' :: cs) := by
  refine ⟨Text.endsRow_cons (by decide) _, ?_, rfl⟩
  intro c hc
  cases hc
  decide

/-! ## Postfix forms -/

section Suffixes

variable {read : Reading Expr} {k : Nat} {e : Expr} {rest : List Char}

theorem suffixes_stop (hrest : ∀ c ∈ rest.head?, c ≠ '.' ∧ c ≠ '[' ∧ c ≠ '(') :
    suffixes read (k + 1) e rest = some (e, rest) := by
  rw [suffixes.eq_def]
  split
  · next h => cases h
  · next h =>
    cases h
    split
    · exact absurd rfl (hrest _ rfl).1
    · exact absurd rfl (hrest _ rfl).2.1
    · exact absurd rfl (hrest _ rfl).2.2
    · rfl

theorem suffixes_attr {name : List Char} (hname : isIdentifier name = true)
    (hrest : WordEnds rest) :
    suffixes read (k + 1) e ('.' :: (name ++ rest)) =
      suffixes read k (.attr e ⟨String.ofList name⟩) rest := by
  have hparts := all_part_of_isIdentifier hname
  rw [suffixes, Text.takeWhile_row hparts hrest, Text.dropWhile_row hparts hrest]

theorem suffixes_subscript {ti : List Char} {i : Expr}
    (hi : read (ti ++ ']' :: rest) = some (i, ']' :: rest)) :
    suffixes read (k + 1) e ('[' :: (ti ++ ']' :: rest)) =
      suffixes read k (.subscript e i) rest := by
  rw [suffixes, hi]
  simp [Text.after?]

theorem suffixes_call {ta : List Char} {xs : List (Argument Expr)}
    (hxs : listOf (argument read) ')' k (ta ++ ')' :: rest) = some (xs, rest)) :
    suffixes read (k + 1) e ('(' :: (ta ++ ')' :: rest)) = suffixes read k (.call e xs) rest := by
  rw [suffixes, hxs]
  rfl

end Suffixes

/-! ## Reading a text with anything after it -/

/-- Reading an operand arrives at the place behind its text, where further postfix forms may
follow. -/
def OperandReads (q : QuoteStyle) (e : Expr) (t : List Char) : Prop :=
  ∀ n k rest, t.length ≤ n → t.length < k → WordEnds rest →
    ∃ k', k ≤ k' + t.length ∧
      operand (expr q n) q k (t ++ rest) = suffixes (expr q n) k' e rest

/-- An expression is read where its text ends, and as the first part of a chain. -/
structure ExprReads (q : QuoteStyle) (e : Expr) (t : List Char) : Prop where
  stops : ∀ rest, Stops rest → ReadsAs q t.length (t ++ rest) e rest
  bar : ∀ bound cs r rest, ReadsAs q bound cs r rest →
    ReadsAs q (bound + t.length + 1) (t ++ ' ' :: '|' :: ' ' :: cs) (e.union r) rest

def EntryReads (q : QuoteStyle) (x : Entry Expr) (t : List Char) : Prop :=
  ∀ n c rest, t.length < n → c = ',' ∨ c = '}' →
    entry (expr q n) (t ++ c :: rest) = some (x, c :: rest)

def ArgumentReads (q : QuoteStyle) (x : Argument Expr) (t : List Char) : Prop :=
  ∀ n c rest, t.length < n → c = ',' ∨ c = ')' →
    argument (expr q n) (t ++ c :: rest) = some (x, c :: rest)

theorem OperandReads.exprReads {e : Expr} {t : List Char} (h : OperandReads q e t)
    (hu : e.isUnion = false) : ExprReads q e t := by
  constructor
  · intro rest hrest n hn
    obtain ⟨n, rfl⟩ := Nat.exists_eq_add_one_of_ne_zero (Nat.ne_zero_of_lt hn)
    obtain ⟨k', hk', hread⟩ := h n (n + 1) rest (by omega) hn hrest.wordEnds
    obtain ⟨k', rfl⟩ := Nat.exists_eq_add_one_of_ne_zero (n := k') (by omega)
    rw [suffixes_stop hrest.noSuffix] at hread
    rw [expr, hread]
    simp [hrest.noBar]
  · intro bound cs r rest hcs n hn
    obtain ⟨n, rfl⟩ := Nat.exists_eq_add_one_of_ne_zero (Nat.ne_zero_of_lt hn)
    obtain ⟨k', hk', hread⟩ := h n (n + 1) (' ' :: '|' :: ' ' :: cs) (by omega) (by omega)
      (Text.endsRow_cons (by decide) _)
    obtain ⟨k', rfl⟩ := Nat.exists_eq_add_one_of_ne_zero (n := k') (by omega)
    have hsuffix : ∀ c ∈ (' ' :: '|' :: ' ' :: cs).head?, c ≠ '.' ∧ c ≠ '[' ∧ c ≠ '(' := by
      intro c hc
      cases hc
      decide
    rw [suffixes_stop hsuffix] at hread
    rw [expr, hread, Expr.union_of_not_isUnion hu]
    simp [Text.after?, hcs n (by omega)]

/-- Two chains with a bar between them are read as one chain. -/
theorem ExprReads.union {l r : Expr} {tl tr : List Char} (hl : ExprReads q l tl)
    (hr : ExprReads q r tr) : ExprReads q (l.union r) (tl ++ ' ' :: '|' :: ' ' :: tr) := by
  constructor
  · intro rest hrest n hn
    have h := hl.bar _ _ _ _ (hr.stops rest hrest)
    simp only [List.length_append, List.length_cons] at hn
    rw [List.append_assoc]
    exact h n (by omega)
  · intro bound cs r' rest hcs n hn
    have h := hl.bar _ _ _ _ (hr.bar _ _ _ _ hcs)
    simp only [List.length_append, List.length_cons] at hn
    rw [List.append_assoc, Expr.union_assoc]
    exact h n (by omega)

/-! ## Words and literals -/

theorem atom_word {word rest : List Char} (hw : isIdentifier word = true) (hrest : WordEnds rest)
    (read : Reading Expr) (k : Nat) :
    atom read q k (word ++ rest) = some (ofWord word, rest) := by
  obtain ⟨c, cs, rfl, hstart, hcs⟩ := isIdentifier_iff.mp hw
  have hne {d : Char} (hd : isIdentifierStart d = false) : c ≠ d := by
    rintro rfl
    rw [hstart] at hd
    cases hd
  have hdelimiter : c ≠ q.delimiter := hne (by cases q <;> decide)
  have hdigit : ¬ (c = '-' ∨ c.isDigit = true) := by
    rintro (h | h)
    · exact hne (by decide) h
    · rw [isIdentifierStart_of_isDigit h] at hstart
      cases hstart
  rw [List.cons_append, atom, if_neg hdelimiter, if_neg (hne (by decide)), if_neg (hne (by decide)),
    if_neg hdigit, if_pos hstart, Text.takeWhile_row hcs hrest, Text.dropWhile_row hcs hrest]

theorem operandReads_of_atom {e : Expr} {t : List Char}
    (h : ∀ n k rest, t.length ≤ n → t.length < k → WordEnds rest →
      atom (expr q n) q k (t ++ rest) = some (e, rest)) : OperandReads q e t := by
  intro n k rest hn hk hrest
  refine ⟨k, Nat.le_add_right _ _, ?_⟩
  rw [operand, h n k rest hn hk hrest]
  rfl

theorem operandReads_word {word : List Char} (hw : isIdentifier word = true) :
    OperandReads q (ofWord word) word :=
  operandReads_of_atom fun _ _ _ _ _ hrest => atom_word hw hrest _ _

theorem operandReads_string (s : String) :
    OperandReads q (.string s) (quoted q.delimiter s.toList) := by
  apply operandReads_of_atom
  intro n k rest _ _ _
  have hbody := literalBody_flatMap q s.toList rest
  rw [quoted, List.cons_append, atom, if_pos rfl, List.append_assoc, List.singleton_append, hbody]
  simp

theorem operandReads_int (i : Int64) : OperandReads q (.int i) (Text.decimal i.toInt) := by
  apply operandReads_of_atom
  intro n k rest _ _ hrest
  obtain ⟨c, ds, hdecimal, hc, hds⟩ := Text.exists_decimal i.toInt
  have hends : Text.EndsRow Char.isDigit rest := by
    intro d hd
    cases hdigit : d.isDigit with
    | false => rfl
    | true =>
      have hpart := hrest d hd
      rw [isIdentifierPart_of_isDigit hdigit] at hpart
      cases hpart
  have hne {d : Char} (h : ¬ (d = '-' ∨ d.isDigit = true)) : c ≠ d := by
    rintro rfl
    exact h hc
  have hdelimiter : c ≠ q.delimiter := hne (by cases q <;> decide)
  rw [hdecimal, List.cons_append, atom, if_neg hdelimiter, if_neg (hne (by decide)),
    if_neg (hne (by decide)), if_pos hc, Text.takeWhile_row hds hends, Text.dropWhile_row hds hends,
    ← hdecimal, Text.readInteger?_decimal, Option.bind_some, Text.int64?_toInt, Option.map_some]

/-! ## Displays, attributes, subscripts and calls -/

/-- A closing bracket does not begin an expression. -/
theorem expr_closing {c : Char} (hc : c ∈ [']', '}', ')']) (n : Nat) (cs : List Char) :
    expr q n (c :: cs) = none := by
  cases n with
  | zero => rfl
  | succ n =>
    have hnone : atom (expr q n) q (n + 1) (c :: cs) = none := by
      simp only [List.mem_cons, List.not_mem_nil, or_false] at hc
      rcases hc with rfl | rfl | rfl <;> cases q <;> rfl
    rw [expr, operand, hnone]
    rfl

theorem length_le_commaJoin {ts : List (List Char)} {t : List Char} (ht : t ∈ ts) :
    t.length ≤ (commaJoin ts).length := Text.length_le_intercalate _ ht

theorem length_commaJoin (ts : List (List Char)) : ts.length ≤ (commaJoin ts).length + 1 :=
  Text.count_le_intercalate (List.cons_ne_nil ',' [' ']) ts

theorem operandReads_list {es : List Expr} {ts : List (List Char)}
    (h : List.Forall₂ (ExprReads q) es ts) :
    OperandReads q (.list es) ('[' :: (commaJoin ts ++ [']'])) := by
  apply operandReads_of_atom
  intro n k rest hn hk _
  have hcount := length_commaJoin ts
  simp only [List.length_cons, List.length_append, List.length_nil] at hn hk
  have hitems : List.Forall₂ (fun e t => ∀ c rest, c = ',' ∨ c = ']' →
      expr q n (t ++ c :: rest) = some (e, c :: rest)) es ts := by
    apply forall₂_imp_of_mem h
    intro e _ t ht hread c rest hc
    have hlength := length_le_commaJoin ht
    refine hread.stops (c :: rest) (stops_cons ?_ rest) n (by omega)
    rcases hc with rfl | rfl <;> decide
  have hlist := listOf_commaJoin hitems (expr_closing (by decide) n) (by decide) (k := k)
    (by omega) rest
  have hdelimiter : '[' ≠ q.delimiter := by cases q <;> decide
  rw [List.cons_append, atom, if_neg hdelimiter, if_pos rfl, List.append_assoc,
    List.singleton_append, hlist]
  rfl

theorem operandReads_dict {es : List (Entry Expr)} {ts : List (List Char)}
    (h : List.Forall₂ (EntryReads q) es ts) :
    OperandReads q (.dict es) ('{' :: (commaJoin ts ++ ['}'])) := by
  apply operandReads_of_atom
  intro n k rest hn hk _
  have hcount := length_commaJoin ts
  simp only [List.length_cons, List.length_append, List.length_nil] at hn hk
  have hitems : List.Forall₂ (fun x t => ∀ c rest, c = ',' ∨ c = '}' →
      entry (expr q n) (t ++ c :: rest) = some (x, c :: rest)) es ts := by
    apply forall₂_imp_of_mem h
    intro x _ t ht hread c rest hc
    have hlength := length_le_commaJoin ht
    exact hread n c rest (by omega) hc
  have hnone : ∀ cs, entry (expr q n) ('}' :: cs) = none := by
    intro cs
    rw [entry, expr_closing (by decide)]
    rfl
  have hlist := listOf_commaJoin hitems hnone (by decide) (k := k) (by omega) rest
  have hdelimiter : '{' ≠ q.delimiter := by cases q <;> decide
  rw [List.cons_append, atom, if_neg hdelimiter, if_neg (by decide), if_pos rfl, List.append_assoc,
    List.singleton_append, hlist]
  rfl

theorem ExprReads.entry {key value : Expr} {tk tv : List Char} (hk : ExprReads q key tk)
    (hv : ExprReads q value tv) : EntryReads q ⟨key, value⟩ (tk ++ ':' :: ' ' :: tv) := by
  intro n c rest hn hc
  simp only [List.length_append, List.length_cons] at hn
  have hkey := hk.stops (':' :: ' ' :: (tv ++ c :: rest)) (stops_cons (by decide) _) n (by omega)
  have hvalue := hv.stops (c :: rest) (stops_cons (by rcases hc with rfl | rfl <;> decide) _) n
    (by omega)
  rw [List.append_assoc, List.cons_append, List.cons_append, Print.entry, hkey]
  simp [Text.after?, hvalue]

theorem ExprReads.positional {value : Expr} {t : List Char} (h : ExprReads q value t) :
    ArgumentReads q ⟨none, value⟩ t := by
  intro n c rest hn hc
  have hvalue := h.stops (c :: rest) (stops_cons (by rcases hc with rfl | rfl <;> decide) _) n hn
  have hafter : after? [' ', '=', ' '] (c :: rest) = none := by
    rcases hc with rfl | rfl <;> rfl
  rw [argument, hvalue]
  simp [hafter]

theorem ExprReads.named {value : Expr} {word t : List Char} (hw : isIdentifier word = true)
    (h : ExprReads q value t) :
    ArgumentReads q ⟨some ⟨String.ofList word⟩, value⟩ (word ++ ' ' :: '=' :: ' ' :: t) := by
  intro n c rest hn hc
  simp only [List.length_append, List.length_cons] at hn
  have hu : (ofWord word).isUnion = false := by
    unfold ofWord
    split
    · rfl
    split <;> rfl
  have hword := ((operandReads_word (q := q) hw).exprReads hu).stops
    (' ' :: '=' :: ' ' :: (t ++ c :: rest)) (stops_equals _) n (by omega)
  have hvalue := h.stops (c :: rest) (stops_cons (by rcases hc with rfl | rfl <;> decide) _) n
    (by omega)
  rw [List.append_assoc, List.cons_append, List.cons_append, List.cons_append, argument, hword]
  simp [Text.after?, word?_ofWord, hvalue]

theorem OperandReads.attr {v : Expr} {tv name : List Char} (h : OperandReads q v tv)
    (hname : isIdentifier name = true) :
    OperandReads q (.attr v ⟨String.ofList name⟩) (tv ++ '.' :: name) := by
  intro n k rest hn hk hrest
  simp only [List.length_append, List.length_cons] at hn hk ⊢
  obtain ⟨k', hk', hread⟩ := h n k ('.' :: (name ++ rest)) (by omega) (by omega)
    (Text.endsRow_cons (by decide) _)
  obtain ⟨k', rfl⟩ := Nat.exists_eq_add_one_of_ne_zero (n := k') (by omega)
  refine ⟨k', by omega, ?_⟩
  rw [List.append_assoc, List.cons_append, hread, suffixes_attr hname hrest]

theorem OperandReads.subscript {v i : Expr} {tv ti : List Char} (h : OperandReads q v tv)
    (hi : ExprReads q i ti) :
    OperandReads q (.subscript v i) (tv ++ '[' :: (ti ++ [']'])) := by
  intro n k rest hn hk hrest
  simp only [List.length_append, List.length_cons, List.length_nil] at hn hk ⊢
  obtain ⟨k', hk', hread⟩ := h n k ('[' :: (ti ++ ']' :: rest)) (by omega) (by omega)
    (Text.endsRow_cons (by decide) _)
  obtain ⟨k', rfl⟩ := Nat.exists_eq_add_one_of_ne_zero (n := k') (by omega)
  refine ⟨k', by omega, ?_⟩
  have hindex := hi.stops (']' :: rest) (stops_cons (by decide) _) n (by omega)
  rw [List.append_assoc, List.cons_append, List.append_assoc, List.singleton_append, hread,
    suffixes_subscript hindex]

theorem OperandReads.call {f : Expr} {xs : List (Argument Expr)} {tf : List Char}
    {ts : List (List Char)} (h : OperandReads q f tf)
    (hxs : List.Forall₂ (ArgumentReads q) xs ts) :
    OperandReads q (.call f xs) (tf ++ '(' :: (commaJoin ts ++ [')'])) := by
  intro n k rest hn hk hrest
  simp only [List.length_append, List.length_cons, List.length_nil] at hn hk ⊢
  obtain ⟨k', hk', hread⟩ := h n k ('(' :: (commaJoin ts ++ ')' :: rest)) (by omega) (by omega)
    (Text.endsRow_cons (by decide) _)
  obtain ⟨k', rfl⟩ := Nat.exists_eq_add_one_of_ne_zero (n := k') (by omega)
  refine ⟨k', by omega, ?_⟩
  have hcount := length_commaJoin ts
  have hitems : List.Forall₂ (fun x t => ∀ c rest, c = ',' ∨ c = ')' →
      argument (expr q n) (t ++ c :: rest) = some (x, c :: rest)) xs ts := by
    apply forall₂_imp_of_mem hxs
    intro x _ t ht hread c rest hc
    have hlength := length_le_commaJoin ht
    exact hread n c rest (by omega) hc
  have hnone : ∀ cs, argument (expr q n) (')' :: cs) = none := by
    intro cs
    rw [argument, expr_closing (by decide)]
    rfl
  have hlist := listOf_commaJoin hitems hnone (by decide) (k := k') (by omega) rest
  rw [List.append_assoc, List.cons_append, List.append_assoc, List.singleton_append, hread,
    suffixes_call hlist]

end ScriptTree.Print
