import ScriptTree.Proofs.Print.Outline

/-!
# Trees that are not printed

A tree is refused exactly if an identifier somewhere in it is empty or an import in it has no names.
Which of the two the error tells is settled by the first statement that has either fault, a class
coming before what stands in it: an import without names is told as that, whatever else is wrong in
it, and everything else as an empty identifier. Where in a statement an identifier is empty does not
matter, and neither do the options.
-/
namespace ScriptTree

open Print (Fault)
open Outcome (bind_eq_error_iff exists_of_mapM_eq_error fault?_bind fault?_bind_pure)

variable {q : QuoteStyle} {f : Fault}

/-! ## Expressions -/

theorem Ident.fault_of_text {i : Ident} (h : i.text = .error f) : f = .emptyIdentifier := by
  rw [Ident.text] at h
  split at h
  · cases h
    rfl
  · cases h

theorem fault_of_pure {α : Type} {a : α} (h : (pure a : Except Fault α) = .error f) :
    f = .emptyIdentifier := nomatch h

/-- A chain of two steps that can only fail for an empty identifier fails for no other reason. -/
theorem fault_of_bind {α β : Type} {x : Except Fault α} {g : α → Except Fault β}
    (h : (x >>= g) = .error f) (hx : x = .error f → f = .emptyIdentifier)
    (hg : ∀ a, g a = .error f → f = .emptyIdentifier) : f = .emptyIdentifier := by
  rcases bind_eq_error_iff.mp h with h | ⟨a, -, h⟩
  · exact hx h
  · exact hg a h

theorem Argument.fault_of_text {x : Argument Expr}
    (hvalue : x.value.text q = .error f → f = .emptyIdentifier) (h : x.text q = .error f) :
    f = .emptyIdentifier := by
  obtain ⟨keyword, v⟩ := x
  cases keyword with
  | none => exact hvalue h
  | some k =>
    exact fault_of_bind h Ident.fault_of_text fun _ h =>
      fault_of_bind h hvalue fun _ => fault_of_pure

/-- An expression without a text has an empty identifier in it. -/
theorem Expr.fault_of_text {e : Expr} (h : e.text q = .error f) : f = .emptyIdentifier := by
  induction e with
  | literal l => cases h
  | name i => exact Ident.fault_of_text h
  | attr v i hv =>
    exact fault_of_bind h hv fun _ h => fault_of_bind h Ident.fault_of_text fun _ => fault_of_pure
  | subscript v i hv hi =>
    exact fault_of_bind h hv fun _ h => fault_of_bind h hi fun _ => fault_of_pure
  | bitOr l r hl hr =>
    exact fault_of_bind h hl fun _ h => fault_of_bind h hr fun _ => fault_of_pure
  | list es hes =>
    refine fault_of_bind h (fun h => ?_) fun _ => fault_of_pure
    rw [textAll_eq_mapM] at h
    obtain ⟨e, he, h⟩ := exists_of_mapM_eq_error h
    exact hes e he h
  | dict es hes =>
    refine fault_of_bind h (fun h => ?_) fun _ => fault_of_pure
    rw [entryTexts_eq_mapM] at h
    obtain ⟨x, hx, h⟩ := exists_of_mapM_eq_error h
    exact fault_of_bind h (hes x hx).1 fun _ h => fault_of_bind h (hes x hx).2 fun _ => fault_of_pure
  | call f xs hf hxs =>
    refine fault_of_bind h hf fun _ h => fault_of_bind h (fun h => ?_) fun _ => fault_of_pure
    rw [argumentTexts_eq_mapM] at h
    obtain ⟨x, hx, h⟩ := exists_of_mapM_eq_error h
    exact Argument.fault_of_text (hxs x hx) h

/-! ## Statements -/

namespace Stmt

/-- What is told of a statement that is not printed: that it imports nothing, whatever else is wrong in
it, and otherwise that an identifier is empty. -/
def refusal (s : Stmt) : Fault := if s.importsNothing then .importWithoutNames else .emptyIdentifier

theorem toError_refusal (s : Stmt) :
    s.refusal.toError = .serialize (if s.importsNothing then "import statement without imported names"
      else "empty identifier") := by
  rw [refusal]
  cases s.importsNothing <;> rfl

/-- What is wrong with a statement itself, if anything is. -/
def fault? (s : Stmt) : Option Fault :=
  if s.WellNamed (·.name ≠ "") then none else some s.refusal

theorem fault?_eq_none_iff {s : Stmt} : s.fault? = none ↔ s.WellNamed (·.name ≠ "") := by
  rw [fault?]
  split
  · next h => simp [h]
  · next h => simp [h]

theorem fault?_eq_some_iff {s : Stmt} :
    s.fault? = some f ↔ ¬ s.WellNamed (·.name ≠ "") ∧ s.refusal = f := by
  rw [fault?]
  split
  · next h => simp [h]
  · next h => simp [h]

theorem refusal_of_label {s : Stmt} (h : s.label q = .error f) : s.refusal = f := by
  have hother (himports : s.importsNothing = false) (hf : f = .emptyIdentifier) : s.refusal = f := by
    rw [refusal, himports, hf]
    rfl
  cases s with
  | importFrom source names =>
    rw [label, importText] at h
    split at h
    · next hnames =>
      cases h
      rw [hnames]
      rfl
    · next hnames =>
      refine hother (List.isEmpty_eq_false_iff.mpr hnames) (fault_of_bind h Expr.fault_of_text ?_)
      refine fun _ h => fault_of_bind h (fun h => ?_) fun _ => fault_of_pure
      obtain ⟨i, -, h⟩ := exists_of_mapM_eq_error h
      exact Ident.fault_of_text h
  | classDef name bases body =>
    refine hother rfl (fault_of_bind h Ident.fault_of_text ?_)
    refine fun _ h => fault_of_bind h (fun h => ?_) fun _ => fault_of_pure
    rw [Expr.textAll_eq_mapM] at h
    obtain ⟨e, -, h⟩ := exists_of_mapM_eq_error h
    exact Expr.fault_of_text h
  | assign target value =>
    exact hother rfl (fault_of_bind h Ident.fault_of_text fun _ h =>
      fault_of_bind h Expr.fault_of_text fun _ => fault_of_pure)
  | annAssign target type =>
    exact hother rfl (fault_of_bind h Ident.fault_of_text fun _ h =>
      fault_of_bind h Expr.fault_of_text fun _ => fault_of_pure)
  | expr value => exact hother rfl (Expr.fault_of_text h)
  | pass => cases h

/-- The fault of a statement's own line is what is wrong with the statement itself. -/
theorem fault?_label (s : Stmt) : Outcome.fault? (s.label q) = s.fault? := by
  rw [fault?]
  split
  · next h =>
    obtain ⟨t, ht⟩ := exists_label_iff (q := q) |>.mpr h
    rw [ht]
    rfl
  · next h =>
    cases hlabel : s.label q with
    | ok t => exact absurd (exists_label_iff.mp ⟨t, hlabel⟩) h
    | error f =>
      rw [refusal_of_label hlabel]
      rfl

theorem fault?_linesAll {ss : List Stmt} {depth : Nat}
    (h : ∀ s ∈ ss, Outcome.fault? (s.lines q depth) = s.preorder.findSome? fault?) :
    Outcome.fault? (Stmt.linesAll q depth ss) = (preorderAll ss).findSome? fault? := by
  induction ss with
  | nil => rfl
  | cons s ss ih =>
    obtain ⟨hs, hss⟩ := List.forall_mem_cons.mp h
    have hrest (lines : List Line) :
        Outcome.fault? (Stmt.linesAll q depth ss >>= fun rest => pure (lines ++ rest)) =
          (preorderAll ss).findSome? fault? := by
      rw [fault?_bind_pure, ih hss]
    rw [linesAll, fault?_bind hrest, hs, preorderAll, List.findSome?_append]

/-- The lines of a statement fail as the first statement in it does. -/
theorem fault?_lines (s : Stmt) (depth : Nat) :
    Outcome.fault? (s.lines q depth) = s.preorder.findSome? fault? := by
  induction s using Stmt.induct_class generalizing depth with
  | line s hs =>
    rw [lines_eq_label hs, fault?_bind_pure, fault?_label, preorder_of_not_isClass hs]
    cases h : s.fault? <;> simp [h]
  | classDef name bases body ih =>
    have hheader : Outcome.fault? (headerText q name bases) = (classDef name bases body).fault? :=
      fault?_label (.classDef name bases body)
    have hbody := fault?_linesAll (q := q) fun s hs => ih s hs (depth + 1)
    rw [lines, fault?_bind fun _ => (fault?_bind_pure _ _).trans hbody, hheader, preorder,
      List.findSome?_cons]
    cases (classDef name bases body).fault? <;> rfl

end Stmt

/-! ## Trees -/

namespace Node

/-- The statements of a tree at every depth, in the order in which they are written. An expression on
its own counts as the statement that it can be. -/
def statements : Node → List Stmt
  | .module m => Stmt.preorderAll m.body
  | .stmt s => s.preorder
  | .expr e => [.expr e]

/-- An identifier stands somewhere in the tree. -/
def Mentions (n : Node) (i : Ident) : Prop :=
  ∃ s ∈ n.statements, i ∈ s.idents ∨ ∃ e ∈ s.exprs, ∃ x, Expr.Within x e ∧ i ∈ x.idents

theorem forall_wellNamed_iff {n : Node} {P : Ident → Prop} :
    (∀ s ∈ n.statements, s.WellNamed P) ↔
      (∀ i, n.Mentions i → P i) ∧ ∀ s ∈ n.statements, s.importsNothing = false := by
  constructor
  · intro h
    refine ⟨?_, fun s hs => (h s hs).imports⟩
    rintro i ⟨s, hs, hi | ⟨e, he, x, hx, hi⟩⟩
    · exact (h s hs).idents i hi
    · exact (h s hs).exprs e he x hx i hi
  · rintro ⟨hidents, himports⟩ s hs
    exact
      { idents := fun i hi => hidents i ⟨s, hs, .inl hi⟩
        exprs := fun e he x hx i hi => hidents i ⟨s, hs, .inr ⟨e, he, x, hx, hi⟩⟩
        imports := himports s hs }

/-- A tree fails as the first of its statements does, under all options. -/
theorem fault?_text (n : Node) (o : PrintOptions) :
    Outcome.fault? (n.text o) = n.statements.findSome? Stmt.fault? := by
  cases n with
  | module m =>
    rw [text, Module.text, Stmt.textAll, fault?_bind_pure]
    exact Stmt.fault?_linesAll fun s _ => s.fault?_lines 0
  | stmt s =>
    rw [text, Stmt.text, fault?_bind_pure]
    exact s.fault?_lines 0
  | expr e =>
    rw [statements, List.findSome?_singleton]
    exact Stmt.fault?_label (.expr e)

theorem print_eq_error_iff {n : Node} {o : PrintOptions} {e : Error} :
    n.print o = .error e ↔ ∃ f, n.statements.findSome? Stmt.fault? = some f ∧ f.toError = e := by
  rw [← fault?_text n o, print]
  cases n.text o with
  | ok t => simp [Outcome.fault?]
  | error f => simp [Outcome.fault?]

theorem exists_print_iff {n : Node} {o : PrintOptions} :
    (∃ s, n.print o = .ok s) ↔ ∀ s ∈ n.statements, s.WellNamed (·.name ≠ "") := by
  have hnone : (∃ s, n.print o = .ok s) ↔ n.statements.findSome? Stmt.fault? = none := by
    rw [← fault?_text n o, print]
    cases n.text o with
    | ok t => simp [Outcome.fault?]
    | error f => simp [Outcome.fault?]
  rw [hnone, List.findSome?_eq_none_iff]
  simp only [Stmt.fault?_eq_none_iff]

/-- A tree is printed exactly if no identifier in it is empty and no import in it is without names.
Otherwise the error tells what is wrong with the first statement in which anything is, and all this
is the same under all options. -/
theorem print_refuses (n : Node) (o : PrintOptions) :
    ((∃ s, n.print o = .ok s) ↔
      (∀ i, n.Mentions i → i.name ≠ "") ∧ ∀ s ∈ n.statements, s.importsNothing = false) ∧
    (∀ e, n.print o = .error e ↔
      ∃ before s after, n.statements = before ++ s :: after ∧
        (∀ t ∈ before, t.WellNamed (·.name ≠ "")) ∧ ¬ s.WellNamed (·.name ≠ "") ∧
        e = .serialize (if s.importsNothing then "import statement without imported names"
          else "empty identifier")) ∧
    ∀ o', ((∃ s, n.print o' = .ok s) ↔ ∃ s, n.print o = .ok s) ∧
      ∀ e, n.print o' = .error e ↔ n.print o = .error e := by
  refine ⟨exists_print_iff.trans forall_wellNamed_iff, ?_, fun o' => ⟨?_, fun e => ?_⟩⟩
  · intro e
    simp only [print_eq_error_iff, List.findSome?_eq_some_iff, Stmt.fault?_eq_some_iff,
      Stmt.fault?_eq_none_iff]
    constructor
    · intro heq
      obtain ⟨f, ⟨before, s, after, hsplit, ⟨hs, rfl⟩, hbefore⟩, rfl⟩ := heq
      exact ⟨before, s, after, hsplit, hbefore, hs, s.toError_refusal⟩
    · intro heq
      obtain ⟨before, s, after, hsplit, hbefore, hs, rfl⟩ := heq
      exact ⟨s.refusal, ⟨before, s, after, hsplit, ⟨hs, rfl⟩, hbefore⟩, s.toError_refusal⟩
  · rw [exists_print_iff, exists_print_iff]
  · rw [print_eq_error_iff, print_eq_error_iff]

/-- An import without names is told as that also where its module has no name either. -/
example : (Node.stmt (.importFrom (.ofName "") [])).print {} =
    .error (.serialize "import statement without imported names") := by
  rfl

end Node

end ScriptTree
