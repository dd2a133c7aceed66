import ScriptTree.Proofs.Print.Readback
import ScriptTree.Print.Layout
import ScriptTree.Tree.Equality

/-!
# What a printed expression determines

Expressions over identifiers, in which no name looks like a truth value and no postfix form applies
to a bare union, are determined by their text up to the bracketing of chains. The conditions are on
the tree alone and are needed: names and truth values print alike, and so do `(a | b).c` and
`a | (b.c)`, since the printer writes no parentheses.
-/
namespace ScriptTree

open Print (OperandReads ExprReads EntryReads ArgumentReads)
open Outcome (forall₂_imp_of_mem)

/-- The conditions on one expression, apart from its parts. -/
structure Expr.LegibleNode (s : Expr) : Prop where
  checked : ∀ i ∈ s.idents, isIdentifier i.name.toList = true
  notConstant : s ≠ .ofName "True" ∧ s ≠ .ofName "False"
  operand : ∀ o ∈ s.operand?, o.isUnion = false

instance (s : Expr) : Decidable s.LegibleNode :=
  decidable_of_iff ((∀ i ∈ s.idents, isIdentifier i.name.toList = true) ∧
      (s ≠ .ofName "True" ∧ s ≠ .ofName "False") ∧ ∀ o ∈ s.operand?, o.isUnion = false)
    ⟨fun h => ⟨h.1, h.2.1, h.2.2⟩, fun h => ⟨h.checked, h.notConstant, h.operand⟩⟩

/-- The conditions hold of an expression and of everything inside it. -/
def Expr.Legible (e : Expr) : Prop := e.Everywhere Expr.LegibleNode

instance (e : Expr) : Decidable e.Legible := inferInstanceAs (Decidable (e.Everywhere _))

variable {q : QuoteStyle}

theorem Expr.Legible.named {e : Expr} (h : e.Legible) : e.Named :=
  fun s hs i hi => ne_empty_of_isIdentifier ((h s hs).checked i hi)

theorem reads_of_operandReads {e : Expr} {t : List Char} (h : OperandReads q e.rightNested t)
    (hu : e.isUnion = false) :
    ExprReads q e.rightNested t ∧ (e.isUnion = false → OperandReads q e.rightNested t) :=
  ⟨h.exprReads ((Expr.isUnion_rightNested e).trans hu), fun _ => h⟩

theorem Literal.operandReads (l : Literal) : OperandReads q (.literal l) (l.text q) := by
  cases l with
  | string s => exact Print.operandReads_string s
  | int i => exact Print.operandReads_int i
  | bool b =>
    cases b with
    | true =>
      have hword : isIdentifier ['T', 'r', 'u', 'e'] = true := by decide
      exact Print.operandReads_word hword
    | false =>
      have hword : isIdentifier ['F', 'a', 'l', 's', 'e'] = true := by decide
      exact Print.operandReads_word hword

theorem Expr.operandReads_name {i : Ident} (h : (Expr.name i).LegibleNode) :
    OperandReads q (.name i) i.name.toList := by
  have hread := Print.operandReads_word (q := q) (h.checked i (.head _))
  rwa [Print.ofWord_of_ne h.notConstant.1 h.notConstant.2] at hread

/-- A printed expression is read as its right-nested form. An expression that is not a union is
also read in front of a postfix form. -/
theorem Expr.reads {e : Expr} (hl : e.Legible) {t : List Char} (ht : e.text q = .ok t) :
    ExprReads q e.rightNested t ∧ (e.isUnion = false → OperandReads q e.rightNested t) := by
  induction e generalizing t with
  | literal l =>
    cases ht
    exact reads_of_operandReads (Literal.operandReads l) rfl
  | name i =>
    obtain ⟨-, rfl⟩ := Ident.text_eq_ok_iff.mp ht
    exact reads_of_operandReads (Expr.operandReads_name hl.self) rfl
  | attr v i hv =>
    obtain ⟨hself, hlv⟩ := everywhere_attr.mp hl
    obtain ⟨tv, htv, -, rfl⟩ := text_attr_eq_ok_iff.mp ht
    have hread := ((hv hlv htv).2 (hself.operand v rfl)).attr (hself.checked i (.head _))
    rw [String.ofList_toList] at hread
    exact reads_of_operandReads hread rfl
  | subscript v i hv hi =>
    obtain ⟨hself, hlv, hli⟩ := everywhere_subscript.mp hl
    obtain ⟨tv, ti, htv, hti, rfl⟩ := text_subscript_eq_ok_iff.mp ht
    have hread := ((hv hlv htv).2 (hself.operand v rfl)).subscript (hi hli hti).1
    exact reads_of_operandReads hread rfl
  | bitOr l r hlhs hrhs =>
    obtain ⟨-, hll, hlr⟩ := everywhere_bitOr.mp hl
    obtain ⟨tl, tr, htl, htr, rfl⟩ := text_bitOr_eq_ok_iff.mp ht
    exact ⟨(hlhs hll htl).1.union (hrhs hlr htr).1, fun hu => nomatch hu⟩
  | list es hes =>
    obtain ⟨-, hles⟩ := everywhere_list.mp hl
    obtain ⟨ts, hts, rfl⟩ := text_list_eq_ok_iff.mp ht
    have hreads : List.Forall₂ (ExprReads q) (es.map rightNested) ts := by
      rw [List.forall₂_map_left_iff]
      exact forall₂_imp_of_mem hts fun e he t _ htext => (hes e he (hles e he) htext).1
    rw [← rightNestedAll_eq_map] at hreads
    exact reads_of_operandReads (Print.operandReads_list hreads) rfl
  | dict es hes =>
    obtain ⟨-, hles⟩ := everywhere_dict.mp hl
    obtain ⟨ts, hts, rfl⟩ := text_dict_eq_ok_iff.mp ht
    have hreads : List.Forall₂ (EntryReads q)
        (es.map fun x => ⟨x.key.rightNested, x.value.rightNested⟩) ts := by
      rw [List.forall₂_map_left_iff]
      apply forall₂_imp_of_mem hts
      intro x hx t _ htext
      obtain ⟨tk, tv, htk, htv, rfl⟩ := Entry.text_eq_ok_iff.mp htext
      exact ((hes x hx).1 (hles x hx).1 htk).1.entry ((hes x hx).2 (hles x hx).2 htv).1
    rw [← rightNestedEntries_eq_map] at hreads
    exact reads_of_operandReads (Print.operandReads_dict hreads) rfl
  | call f xs hf hxs =>
    obtain ⟨hself, hlf, hlxs⟩ := everywhere_call.mp hl
    obtain ⟨tf, ts, htf, hts, rfl⟩ := text_call_eq_ok_iff.mp ht
    have hreads : List.Forall₂ (ArgumentReads q)
        (xs.map fun x => ⟨x.keyword, x.value.rightNested⟩) ts := by
      rw [List.forall₂_map_left_iff]
      apply forall₂_imp_of_mem hts
      intro x hx t _ htext
      obtain ⟨keyword, value⟩ := x
      cases keyword with
      | none => exact (hxs _ hx (hlxs _ hx) htext).1.positional
      | some k =>
        have hk : isIdentifier k.name.toList = true :=
          hself.checked k (List.mem_filterMap.mpr ⟨_, hx, rfl⟩)
        obtain ⟨tv, -, htv, rfl⟩ := Argument.text_named_eq_ok_iff.mp htext
        have hnamed := (hxs _ hx (hlxs _ hx) htv).1.named hk
        rwa [String.ofList_toList] at hnamed
    rw [← rightNestedArguments_eq_map] at hreads
    exact reads_of_operandReads
      (((hf hlf htf).2 (hself.operand f rfl)).call hreads) rfl

/-- Reading the text of an expression gives its right-nested form. -/
theorem Expr.readExpr?_text {e : Expr} (hl : e.Legible) {t : List Char} (ht : e.text q = .ok t) :
    Print.readExpr? q t = some e.rightNested := by
  have hread := (Expr.reads hl ht).1.stops [] Print.stops_nil (t.length + 1) (Nat.lt_succ_self _)
  rw [List.append_nil] at hread
  rw [Print.readExpr?, hread]

theorem Node.print_expr_eq_ok_iff {o : PrintOptions} {e : Expr} {s : String} :
    (Node.expr e).print o = .ok s ↔ ∃ t, e.text o.quote = .ok t ∧ String.ofList t = s := by
  rw [Node.print, Node.text]
  cases e.text o.quote with
  | error f => simp
  | ok t => simp

theorem Node.print_expr_iff_text {o : PrintOptions} {e : Expr} {s : String} :
    (Node.expr e).print o = .ok s ↔ e.text o.quote = .ok s.toList := by
  rw [print_expr_eq_ok_iff]
  constructor
  · intro heq
    obtain ⟨t, ht, rfl⟩ := heq
    rwa [String.toList_ofList]
  · exact fun h => ⟨_, h, String.ofList_toList⟩

/-- Two legible expressions print alike exactly if they differ in the bracketing of chains only. -/
theorem Node.print_expr_eq_iff (o : PrintOptions) (e₁ e₂ : Expr) (h₁ : e₁.Legible)
    (h₂ : e₂.Legible) :
    ∃ s₁ s₂, (Node.expr e₁).print o = .ok s₁ ∧ (Node.expr e₂).print o = .ok s₂ ∧
      (s₁ = s₂ ↔ e₁.rightNested = e₂.rightNested) := by
  obtain ⟨t₁, ht₁⟩ := (Expr.exists_text_iff (q := o.quote)).mpr h₁.named
  obtain ⟨t₂, ht₂⟩ := (Expr.exists_text_iff (q := o.quote)).mpr h₂.named
  refine ⟨String.ofList t₁, String.ofList t₂, Node.print_expr_eq_ok_iff.mpr ⟨t₁, ht₁, rfl⟩,
    Node.print_expr_eq_ok_iff.mpr ⟨t₂, ht₂, rfl⟩, ?_⟩
  rw [String.ofList_inj]
  constructor
  · rintro rfl
    have hread := Expr.readExpr?_text h₁ ht₁
    rw [Expr.readExpr?_text h₂ ht₂] at hread
    exact (Option.some.inj hread).symm
  · intro heq
    have htext := Expr.text_rightNested o.quote e₁
    rw [heq, Expr.text_rightNested, ht₁, ht₂] at htext
    exact (Except.ok.inj htext).symm

/-- The chain `a | f(k = "x")[-1] | {0: [True]}`, bracketed to the left. -/
def leftChain : Expr :=
  .bitOr
    (.bitOr (.ofName "a")
      (.subscript (.call (.ofName "f") [.named "k" (.string "x")]) (.int (-1))))
    (.dict [⟨.int 0, .list [.bool true]⟩])

/-- The same chain, bracketed to the right. -/
def rightChain : Expr :=
  .bitOr (.ofName "a")
    (.bitOr (.subscript (.call (.ofName "f") [.named "k" (.string "x")]) (.int (-1)))
      (.dict [⟨.int 0, .list [.bool true]⟩]))

theorem print_chains_alike :
    leftChain.Legible ∧ rightChain.Legible ∧ leftChain ≠ rightChain ∧
      ∃ s₁ s₂, (Node.expr leftChain).print {} = .ok s₁ ∧
        (Node.expr rightChain).print {} = .ok s₂ ∧
        (s₁ = s₂ ↔ leftChain.rightNested = rightChain.rightNested) :=
  ⟨by decide, by decide, by decide,
    Node.print_expr_eq_iff {} leftChain rightChain (by decide) (by decide)⟩

end ScriptTree
