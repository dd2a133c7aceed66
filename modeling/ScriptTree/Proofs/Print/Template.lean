import ScriptTree.Proofs.Print.Refusal

/-!
# What the quote style changes

The quote style reaches the text of a tree in its string literals only. What is printed is a template
with places for the literals of the tree, in the order in which they are printed, and the quote style
settles what stands in these places and nothing else. Each step of the printer puts its text together
from constant characters and from the texts of parts, so the template of a tree is put together from
those of its parts. A tree that is not printed fails in the same way under every quote style.
-/
namespace ScriptTree

open Print (Fault commaJoin quoted)

/-! ## Templates -/

namespace Print

/-- A part of a text: characters that stand there under every quote style, or a string literal. -/
inductive Piece where
  | plain (text : List Char)
  | literal (value : String)

namespace Piece

def text (q : QuoteStyle) : Piece → List Char
  | plain text => text
  | literal value => quoted q.delimiter value.toList

def literal? : Piece → Option String
  | plain _ => none
  | literal value => some value

end Piece

/-- A text with places for string literals. -/
structure Template where
  pieces : List Piece

namespace Template

/-- The text under a quote style. -/
def fill (q : QuoteStyle) (t : Template) : List Char := t.pieces.flatMap (Piece.text q)

def literals (t : Template) : List String := t.pieces.filterMap Piece.literal?

def plain (text : List Char) : Template := ⟨[.plain text]⟩

def literal (value : String) : Template := ⟨[.literal value]⟩

def append (t u : Template) : Template := ⟨t.pieces ++ u.pieces⟩

instance : Append Template := ⟨append⟩

variable (q : QuoteStyle) (t u : Template)

@[simp] theorem fill_plain (text : List Char) : (plain text).fill q = text := List.append_nil text

@[simp] theorem literals_plain (text : List Char) : (plain text).literals = [] := rfl

@[simp] theorem fill_literal (value : String) :
    (literal value).fill q = quoted q.delimiter value.toList :=
  List.append_nil _

@[simp] theorem literals_literal (value : String) : (literal value).literals = [value] := rfl

@[simp] theorem fill_append : (t ++ u).fill q = t.fill q ++ u.fill q := List.flatMap_append

@[simp] theorem literals_append : (t ++ u).literals = t.literals ++ u.literals :=
  List.filterMap_append

end Template

/-- A text in which string literals alternate with other texts. -/
def woven (q : QuoteStyle) (first : String) (values texts : List String) : String :=
  first ++ String.join
    (List.zipWith (fun s t => String.ofList (quoted q.delimiter s.toList) ++ t) values texts)

@[simp] theorem woven_nil (q : QuoteStyle) (first : String) (texts : List String) :
    woven q first [] texts = first := by
  rw [woven, List.zipWith_nil_left, String.join_nil, String.append_empty]

/-- A template is some texts, the same under every quote style, with the literals between them. -/
theorem Template.exists_woven (t : Template) :
    ∃ first texts, texts.length = t.literals.length ∧
      ∀ q, String.ofList (t.fill q) = woven q first t.literals texts := by
  obtain ⟨ps⟩ := t
  induction ps with
  | nil => exact ⟨"", [], rfl, fun q => rfl⟩
  | cons p ps ih =>
    obtain ⟨first, texts, hlength, htext⟩ := ih
    have hcons (q : QuoteStyle) : String.ofList (fill q ⟨p :: ps⟩) =
        String.ofList (p.text q) ++ woven q first (literals ⟨ps⟩) texts := by
      rw [← htext, ← String.ofList_append]
      rfl
    cases p with
    | plain text =>
      refine ⟨String.ofList text ++ first, texts, hlength, fun q => (hcons q).trans ?_⟩
      rw [woven, woven, String.append_assoc]
      rfl
    | literal value =>
      refine ⟨"", first :: texts, congrArg (· + 1) hlength, fun q => (hcons q).trans ?_⟩
      have hvalues : literals ⟨.literal value :: ps⟩ = value :: literals ⟨ps⟩ := rfl
      rw [woven, woven, hvalues, List.zipWith_cons_cons, String.join_cons, String.empty_append,
        String.append_assoc]
      rfl

/-! ## Printers -/

/-- A printer fails in the same way under every quote style, or prints one template with these
literals. -/
def Uniform (values : List String) (x : QuoteStyle → Except Fault (List Char)) : Prop :=
  (∃ f, ∀ q, x q = .error f) ∨ ∃ t : Template, t.literals = values ∧ ∀ q, x q = .ok (t.fill q)

section Uniform

variable {values values' : List String} {x y : QuoteStyle → Except Fault (List Char)}

theorem uniform_const (x : Except Fault (List Char)) : Uniform [] fun _ => x := by
  cases x with
  | error f => exact .inl ⟨f, fun _ => rfl⟩
  | ok t => exact .inr ⟨.plain t, rfl, fun q => congrArg Except.ok (Template.fill_plain q t).symm⟩

theorem uniform_quoted (value : String) :
    Uniform [value] fun q => .ok (quoted q.delimiter value.toList) :=
  .inr ⟨.literal value, rfl, fun q => congrArg Except.ok (Template.fill_literal q value).symm⟩

theorem Uniform.congr (hx : Uniform values x) (h : ∀ q, y q = x q) : Uniform values y := by
  rwa [funext h]

/-- Characters around a text. -/
theorem Uniform.enclose (hx : Uniform values x) (before after : List Char) :
    Uniform values fun q => do
      let a ← x q
      return before ++ (a ++ after) := by
  rcases hx with ⟨f, hx⟩ | ⟨t, rfl, hx⟩
  · refine .inl ⟨f, fun q => ?_⟩
    simp only [hx]
    rfl
  · refine .inr ⟨.plain before ++ (t ++ .plain after), by simp, fun q => ?_⟩
    simp only [hx, Template.fill_append, Template.fill_plain]
    rfl

/-- Two texts with characters between them. -/
theorem Uniform.join (hx : Uniform values x) (hy : Uniform values' y) (between : List Char) :
    Uniform (values ++ values') fun q => do
      let a ← x q
      let b ← y q
      return a ++ (between ++ b) := by
  rcases hx with ⟨f, hx⟩ | ⟨t, rfl, hx⟩
  · refine .inl ⟨f, fun q => ?_⟩
    simp only [hx]
    rfl
  · rcases hy with ⟨f, hy⟩ | ⟨u, rfl, hy⟩
    · refine .inl ⟨f, fun q => ?_⟩
      simp only [hx, hy]
      rfl
    · refine .inr ⟨t ++ (.plain between ++ u), by simp, fun q => ?_⟩
      simp only [hx, hy, Template.fill_append, Template.fill_plain]
      rfl

theorem commaJoin_cons_cons (t u : List Char) (ts : List (List Char)) :
    commaJoin (t :: u :: ts) = t ++ ([',', ' '] ++ commaJoin (u :: ts)) := by
  rw [commaJoin, commaJoin, List.intercalate_cons_cons, List.append_assoc]

/-- Texts of a list with commas between them. -/
theorem uniform_commaJoin {α : Type} {values : α → List String}
    {print : QuoteStyle → α → Except Fault (List Char)} {xs : List α}
    (h : ∀ x ∈ xs, Uniform (values x) fun q => print q x) :
    Uniform (xs.flatMap values) fun q => do
      let ts ← xs.mapM (print q)
      return commaJoin ts := by
  induction xs with
  | nil => exact uniform_const _
  | cons x xs ih =>
    obtain ⟨hx, hxs⟩ := List.forall_mem_cons.mp h
    cases xs with
    | nil =>
      have hsingle (t : List Char) : commaJoin [t] = t := List.intercalate_singleton
      rw [List.flatMap_singleton]
      refine hx.congr fun q => ?_
      simp only [List.mapM_cons, List.mapM_nil, bind_assoc, pure_bind, hsingle, bind_pure]
    | cons y ys =>
      rw [List.flatMap_cons]
      refine (hx.join (ih hxs) [',', ' ']).congr fun q => ?_
      simp only [List.mapM_cons, bind_assoc, pure_bind, commaJoin_cons_cons]

end Uniform

end Print

open Print (Uniform uniform_const uniform_quoted uniform_commaJoin woven)

/-! ## The strings of a tree -/

mutual

/-- The string literals in an expression, in the order in which they are printed. -/
def Expr.strings : Expr → List String
  | .literal (.string s) => [s]
  | .literal (.int _) => []
  | .literal (.bool _) => []
  | .name _ => []
  | .attr v _ => v.strings
  | .subscript v i => v.strings ++ i.strings
  | .bitOr l r => l.strings ++ r.strings
  | .list es => Expr.stringsAll es
  | .dict es => Expr.entryStrings es
  | .call f xs => f.strings ++ Expr.argumentStrings xs
termination_by structural e => e

def Expr.stringsAll : List Expr → List String
  | [] => []
  | e :: es => e.strings ++ Expr.stringsAll es
termination_by structural es => es

def Expr.entryStrings : List (Entry Expr) → List String
  | [] => []
  | ⟨k, v⟩ :: es => k.strings ++ v.strings ++ Expr.entryStrings es
termination_by structural es => es

def Expr.argumentStrings : List (Argument Expr) → List String
  | [] => []
  | ⟨_, v⟩ :: xs => v.strings ++ Expr.argumentStrings xs
termination_by structural xs => xs

end

namespace Expr

theorem stringsAll_eq_flatMap (es : List Expr) : stringsAll es = es.flatMap strings := by
  induction es with
  | nil => rfl
  | cons e es ih => rw [stringsAll, ih, List.flatMap_cons]

theorem entryStrings_eq_flatMap (es : List (Entry Expr)) :
    entryStrings es = es.flatMap fun x => x.key.strings ++ x.value.strings := by
  induction es with
  | nil => rfl
  | cons x es ih => rw [entryStrings, ih, List.flatMap_cons]

theorem argumentStrings_eq_flatMap (xs : List (Argument Expr)) :
    argumentStrings xs = xs.flatMap fun x => x.value.strings := by
  induction xs with
  | nil => rfl
  | cons x xs ih => rw [argumentStrings, ih, List.flatMap_cons]

/-- An expression has no strings exactly if no string literal stands anywhere in it. -/
theorem strings_eq_nil_iff {e : Expr} : e.strings = [] ↔ e.Everywhere fun x => ∀ s, x ≠ .string s := by
  induction e with
  | literal l => cases l <;> simp [strings, Expr.string]
  | name i => simp [strings, Expr.string]
  | attr v i hv =>
    rw [strings, everywhere_attr, hv]
    simp [Expr.string]
  | subscript v i hv hi =>
    rw [strings, everywhere_subscript, List.append_eq_nil_iff, hv, hi]
    simp [Expr.string]
  | bitOr l r hl hr =>
    rw [strings, everywhere_bitOr, List.append_eq_nil_iff, hl, hr]
    simp [Expr.string]
  | list es hes =>
    rw [strings, everywhere_list, stringsAll_eq_flatMap, List.flatMap_eq_nil_iff, forall₂_congr hes]
    simp [Expr.string]
  | dict es hes =>
    have hentries : ∀ x ∈ es, x.key.strings ++ x.value.strings = [] ↔
        x.key.Everywhere (fun x => ∀ s, x ≠ .string s) ∧
          x.value.Everywhere fun x => ∀ s, x ≠ .string s := by
      intro x hx
      rw [List.append_eq_nil_iff, (hes x hx).1, (hes x hx).2]
    rw [strings, everywhere_dict, entryStrings_eq_flatMap, List.flatMap_eq_nil_iff,
      forall₂_congr hentries]
    simp [Expr.string]
  | call f xs hf hxs =>
    rw [strings, everywhere_call, List.append_eq_nil_iff, hf, argumentStrings_eq_flatMap,
      List.flatMap_eq_nil_iff, forall₂_congr hxs]
    simp [Expr.string]

end Expr

/-- The string literals in a tree, in the order in which they are printed. -/
def Stmt.strings (s : Stmt) : List String := s.exprs.flatMap Expr.strings

def Node.strings (n : Node) : List String := n.statements.flatMap Stmt.strings

/-! ## Printed trees -/

theorem Literal.uniform_text (l : Literal) : Uniform (Expr.literal l).strings fun q => .ok (l.text q) := by
  cases l with
  | string s => exact uniform_quoted s
  | int n => exact uniform_const (.ok ((Literal.int n).text .double))
  | bool b =>
    cases b with
    | false => exact uniform_const (.ok ((Literal.bool false).text .double))
    | true => exact uniform_const (.ok ((Literal.bool true).text .double))

theorem Entry.uniform_text {x : Entry Expr} (hkey : Uniform x.key.strings fun q => x.key.text q)
    (hvalue : Uniform x.value.strings fun q => x.value.text q) :
    Uniform (x.key.strings ++ x.value.strings) fun q => x.text q :=
  hkey.join hvalue [':', ' ']

theorem Argument.uniform_text {x : Argument Expr}
    (hvalue : Uniform x.value.strings fun q => x.value.text q) :
    Uniform x.value.strings fun q => x.text q := by
  obtain ⟨keyword, v⟩ := x
  cases keyword with
  | none => exact hvalue
  | some k => exact (uniform_const k.text).join hvalue [' ', '=', ' ']

theorem Expr.uniform_text (e : Expr) : Uniform e.strings fun q => e.text q := by
  induction e with
  | literal l => exact l.uniform_text
  | name i => exact uniform_const i.text
  | attr v i hv =>
    have h := hv.join (uniform_const i.text) ['.']
    rwa [List.append_nil] at h
  | subscript v i hv hi =>
    refine (hv.join (hi.enclose [] [']']) ['[']).congr fun q => ?_
    simp only [Expr.text, bind_assoc, pure_bind]
    rfl
  | bitOr l r hl hr => exact hl.join hr [' ', '|', ' ']
  | list es hes =>
    rw [strings, stringsAll_eq_flatMap]
    refine ((uniform_commaJoin hes).enclose ['['] [']']).congr fun q => ?_
    rw [Expr.text, textAll_eq_mapM]
    simp only [bind_assoc, pure_bind]
    rfl
  | dict es hes =>
    have hentries := uniform_commaJoin fun x hx => Entry.uniform_text (hes x hx).1 (hes x hx).2
    rw [strings, entryStrings_eq_flatMap]
    refine (hentries.enclose ['{'] ['}']).congr fun q => ?_
    rw [Expr.text, entryTexts_eq_mapM]
    simp only [bind_assoc, pure_bind]
    rfl
  | call f xs hf hxs =>
    have harguments := uniform_commaJoin fun x hx => Argument.uniform_text (hxs x hx)
    rw [strings, argumentStrings_eq_flatMap]
    refine (hf.join (harguments.enclose ['('] [')']) []).congr fun q => ?_
    rw [Expr.text, argumentTexts_eq_mapM]
    simp only [bind_assoc, pure_bind]
    rfl

/-! ## Statements -/

theorem layout_append (n : Nat) (ls ms : List Line) :
    layout n (ls ++ ms) = layout n ls ++ layout n ms := List.flatMap_append

namespace Stmt

/-- The line that a statement prints itself. -/
theorem uniform_label (s : Stmt) : Uniform s.strings fun q => s.label q := by
  cases s with
  | importFrom source names =>
    by_cases hnames : names = []
    · exact .inl ⟨.importWithoutNames, fun q => if_pos hnames⟩
    · have hjoined := uniform_const (names.mapM Ident.text >>= fun ns => pure (commaJoin ns))
      have hline := (source.uniform_text.join hjoined importWord).enclose fromWord []
      rw [strings, exprs, List.flatMap_singleton, ← List.append_nil source.strings]
      refine hline.congr fun q => ?_
      rw [label, importText, if_neg hnames]
      simp only [bind_assoc, pure_bind, List.append_nil]
  | classDef name bases body =>
    cases bases with
    | nil => exact uniform_const (headerText .double name [])
    | cons b bs =>
      have hjoined := uniform_commaJoin fun e (_ : e ∈ b :: bs) => e.uniform_text
      have hline := ((uniform_const name.text).join (hjoined.enclose ['('] [')', ':']) []).enclose
        classWord []
      refine hline.congr fun q => ?_
      rw [label, headerText, Expr.textAll_eq_mapM]
      simp only [List.mapM_cons, bind_assoc, pure_bind, List.cons_ne_nil, if_false,
        List.append_nil, List.nil_append, List.append_assoc, List.cons_append]
  | assign target value =>
    rw [strings, exprs, List.flatMap_singleton]
    exact (uniform_const target.text).join value.uniform_text [' ', '=', ' ']
  | annAssign target type =>
    rw [strings, exprs, List.flatMap_singleton]
    exact (uniform_const target.text).join type.uniform_text [':', ' ']
  | expr value =>
    rw [strings, exprs, List.flatMap_singleton]
    exact value.uniform_text
  | pass => exact uniform_const (.ok passLine)

/-- The text of the lines of a statement. -/
def laidOut (n depth : Nat) (s : Stmt) (q : QuoteStyle) : Except Fault (List Char) := do
  let lines ← s.lines q depth
  return layout n lines

theorem uniform_linesAll {n depth : Nat} {ss : List Stmt}
    (h : ∀ s ∈ ss, Uniform (s.preorder.flatMap strings) (s.laidOut n depth)) :
    Uniform ((preorderAll ss).flatMap strings) fun q => do
      let lines ← Stmt.linesAll q depth ss
      return layout n lines := by
  induction ss with
  | nil => exact uniform_const (.ok [])
  | cons s ss ih =>
    obtain ⟨hs, hss⟩ := List.forall_mem_cons.mp h
    rw [preorderAll, List.flatMap_append]
    refine (hs.join (ih hss) []).congr fun q => ?_
    rw [linesAll, laidOut]
    simp only [bind_assoc, pure_bind, layout_append, List.nil_append]

theorem uniform_lines (s : Stmt) (n depth : Nat) :
    Uniform (s.preorder.flatMap strings) (s.laidOut n depth) := by
  induction s using Stmt.induct_class generalizing depth with
  | line s hs =>
    rw [preorder_of_not_isClass hs, List.flatMap_singleton]
    refine (s.uniform_label.enclose (List.replicate (depth * n) ' ') ['\n']).congr fun q => ?_
    rw [laidOut, lines_eq_label hs]
    simp only [bind_assoc, pure_bind, layout, List.flatMap_singleton, Line.layout]
  | classDef name bases body ih =>
    have hheader : Uniform (classDef name bases body).strings fun q => headerText q name bases :=
      uniform_label (.classDef name bases body)
    have hbody := uniform_linesAll fun s hs => ih s hs (depth + 1)
    have hblanks := hheader.enclose (List.replicate (depth * n) ' ')
    rw [preorder, List.flatMap_cons]
    cases body with
    | nil =>
      rw [preorderAll, List.flatMap_nil, List.append_nil]
      refine (hblanks ('\n' :: layout n [⟨depth + 1, passLine⟩])).congr fun q => ?_
      rw [laidOut, lines, linesAll]
      cases headerText q name bases with
      | error f => rfl
      | ok header =>
        refine congrArg Except.ok ?_
        simp only [List.isEmpty_nil, if_true, layout, List.flatMap_cons, Line.layout,
          List.append_assoc, List.cons_append, List.nil_append]
    | cons s ss =>
      refine ((hblanks ['\n']).join hbody []).congr fun q => ?_
      rw [laidOut, lines]
      simp only [bind_assoc, pure_bind, List.isEmpty_cons, Bool.false_eq_true, if_false, layout,
        List.flatMap_cons, Line.layout, List.nil_append]

end Stmt

/-! ## Trees -/

namespace Node

theorem uniform_text (n : Node) (indentSize : Nat) :
    Uniform n.strings fun q => n.text ⟨indentSize, q⟩ := by
  cases n with
  | module m => exact Stmt.uniform_linesAll fun s _ => s.uniform_lines indentSize 0
  | stmt s => exact s.uniform_lines indentSize 0
  | expr e =>
    have hstrings : (Node.expr e).strings = e.strings := by
      rw [Node.strings, statements, List.flatMap_singleton, Stmt.strings, Stmt.exprs,
        List.flatMap_singleton]
    rw [hstrings]
    exact e.uniform_text

/-- A tree has no strings exactly if no string literal stands in an expression of one of its
statements. -/
theorem strings_eq_nil_iff {n : Node} : n.strings = [] ↔
    ∀ s ∈ n.statements, ∀ e ∈ s.exprs, e.Everywhere fun x => ∀ v, x ≠ .string v := by
  simp only [Node.strings, Stmt.strings, List.flatMap_eq_nil_iff, Expr.strings_eq_nil_iff]

/-- A tree that is printed is printed under every quote style as the same texts with its string
literals between them, in their order. A tree without string literals is printed alike under both
styles. -/
theorem print_templated (n : Node) (o : PrintOptions) (text : String) (h : n.print o = .ok text)
    (indentSize : Nat) :
    (∃ first texts, texts.length = n.strings.length ∧
      ∀ q, n.print ⟨indentSize, q⟩ = .ok (woven q first n.strings texts)) ∧
    ((∀ s ∈ n.statements, ∀ e ∈ s.exprs, e.Everywhere fun x => ∀ v, x ≠ .string v) →
      n.print ⟨indentSize, .double⟩ = n.print ⟨indentSize, .single⟩) := by
  have hwoven : ∃ first texts, texts.length = n.strings.length ∧
      ∀ q, n.print ⟨indentSize, q⟩ = .ok (woven q first n.strings texts) := by
    rcases n.uniform_text indentSize with ⟨f, hfault⟩ | ⟨t, ht, htext⟩
    · -- whether a tree is printed does not depend on the options
      obtain ⟨s, hs⟩ := (exists_print_iff (o := ⟨indentSize, .double⟩)).mpr
        (exists_print_iff.mp ⟨text, h⟩)
      have hfault : n.text ⟨indentSize, .double⟩ = .error f := hfault .double
      rw [print, hfault] at hs
      cases hs
    · obtain ⟨first, texts, hlength, hfill⟩ := t.exists_woven
      rw [ht] at hlength hfill
      refine ⟨first, texts, hlength, fun q => ?_⟩
      have htext : n.text ⟨indentSize, q⟩ = .ok (t.fill q) := htext q
      rw [print, htext, ← hfill]
  refine ⟨hwoven, fun hnone => ?_⟩
  obtain ⟨first, texts, -, hprint⟩ := hwoven
  simp only [strings_eq_nil_iff.mpr hnone, Print.woven_nil] at hprint
  rw [hprint, hprint]

/-- A class with a base that is called, a field and a statement without strings. -/
def quotingClass : Node :=
  .stmt (.classDef ⟨"Job"⟩
    [.call (.subscript (.ofName "base") (.string "it's")) [.named "tag" (.string "\"x\"")]]
    [.assign ⟨"path"⟩ (.dict [⟨.string "k", .list [.string "", .int 1]⟩]), .pass])

theorem print_templated_quotingClass :
    quotingClass.print {} = .ok ("class Job(base[\"it's\"](tag = \"\\\"x\\\"\")):\n" ++
      "    path = \x7b\"k\": [\"\", 1]\x7d\n    pass\n") ∧
    quotingClass.strings = ["it's", "\"x\"", "k", ""] ∧
    ∃ first texts, texts.length = 4 ∧ ∀ q, quotingClass.print ⟨2, q⟩ =
      .ok (woven q first ["it's", "\"x\"", "k", ""] texts) := by
  obtain ⟨⟨first, texts, hlength, hprint⟩, -⟩ := print_templated quotingClass {} _ rfl 2
  exact ⟨rfl, rfl, first, texts, hlength, hprint⟩

example : quotingClass.print ⟨2, .single⟩ =
    .ok ("class Job(base['it\\'s'](tag = '\"x\"')):\n" ++
      "  path = \x7b'k': ['', 1]\x7d\n  pass\n") := by
  cbv

end Node

end ScriptTree
