import ScriptTree.Print.Layout
import ScriptTree.Proofs.Print.Success
import ScriptTree.Proofs.Tree.Statement

/-!
# Outlines

The outline of a module keeps what its statements print and how they stand in each other, and
forgets everything else: a class is a block under its header, every other statement is one line, and
a class without a body holds the line `pass`. The printed lines of a module are the rows of its
outline. An outline, and with it the text, exists as soon as no identifier is empty and no import is
without names.
-/
namespace ScriptTree

open Print (Fault commaJoin)
open Outcome (bind_eq_ok_iff bind₂_eq_ok_iff pure_eq_ok_iff mapM_eq_ok_iff exists_mapM_eq_ok_iff
  forall₂_imp_of_mem)

/-! ## The line of a statement -/

/-- The line that a statement prints itself, for a class its header. -/
def Stmt.label (q : QuoteStyle) : Stmt → Except Fault (List Char)
  | .importFrom source names => importText q source names
  | .classDef name bases _ => headerText q name bases
  | .assign target value => assignText q target value
  | .annAssign target type => annAssignText q target type
  | .expr value => value.text q
  | .pass => .ok passLine

section Label

variable {q : QuoteStyle} {t : List Char}

theorem mapM_identText_eq_ok_iff {names : List Ident} {ts : List (List Char)} :
    names.mapM Ident.text = .ok ts ↔
      (∀ i ∈ names, i.name ≠ "") ∧ names.map (·.name.toList) = ts := by
  induction names generalizing ts with
  | nil => simp [pure_eq_ok_iff]
  | cons i names ih =>
    simp only [List.mapM_cons, bind₂_eq_ok_iff, pure_eq_ok_iff, Ident.text_eq_ok_iff, ih,
      List.forall_mem_cons, List.map_cons]
    constructor
    · intro h
      obtain ⟨_, _, ⟨hi, rfl⟩, ⟨hnames, rfl⟩, rfl⟩ := h
      exact ⟨⟨hi, hnames⟩, rfl⟩
    · intro h
      obtain ⟨⟨hi, hnames⟩, rfl⟩ := h
      exact ⟨_, _, ⟨hi, rfl⟩, ⟨hnames, rfl⟩, rfl⟩

theorem importText_eq_ok_iff {source : Expr} {names : List Ident} :
    importText q source names = .ok t ↔
      names ≠ [] ∧ (∀ i ∈ names, i.name ≠ "") ∧ ∃ ts, source.text q = .ok ts ∧
        fromWord ++ (ts ++ (importWord ++ commaJoin (names.map (·.name.toList)))) = t := by
  rw [importText]
  split
  · next h => simp [h]
  · next h =>
    simp only [bind₂_eq_ok_iff, pure_eq_ok_iff, mapM_identText_eq_ok_iff]
    constructor
    · intro heq
      obtain ⟨ts, _, hs, ⟨hnames, rfl⟩, rfl⟩ := heq
      exact ⟨h, hnames, ts, hs, rfl⟩
    · intro heq
      obtain ⟨-, hnames, ts, hs, rfl⟩ := heq
      exact ⟨ts, _, hs, ⟨hnames, rfl⟩, rfl⟩

/-- The bases of a class in parentheses, if there are any. -/
def basesText (ts : List (List Char)) : List Char :=
  if ts = [] then [] else '(' :: (commaJoin ts ++ [')'])

theorem headerText_eq_ok_iff {name : Ident} {bases : List Expr} :
    headerText q name bases = .ok t ↔
      name.name ≠ "" ∧ ∃ ts, List.Forall₂ (fun e t => e.text q = .ok t) bases ts ∧
        classWord ++ (name.name.toList ++ (basesText ts ++ [':'])) = t := by
  simp only [headerText, bind₂_eq_ok_iff, pure_eq_ok_iff, Ident.text_eq_ok_iff,
    Expr.textAll_eq_mapM, mapM_eq_ok_iff]
  constructor
  · intro h
    obtain ⟨_, ts, ⟨hname, rfl⟩, hbases, rfl⟩ := h
    exact ⟨hname, ts, hbases, rfl⟩
  · intro h
    obtain ⟨hname, ts, hbases, rfl⟩ := h
    exact ⟨_, ts, ⟨hname, rfl⟩, hbases, rfl⟩

theorem assignText_eq_ok_iff {target : Ident} {value : Expr} :
    assignText q target value = .ok t ↔
      target.name ≠ "" ∧ ∃ tv, value.text q = .ok tv ∧
        target.name.toList ++ ' ' :: '=' :: ' ' :: tv = t := by
  simp only [assignText, bind₂_eq_ok_iff, pure_eq_ok_iff, Ident.text_eq_ok_iff]
  constructor
  · intro h
    obtain ⟨_, tv, ⟨htarget, rfl⟩, hv, ht⟩ := h
    exact ⟨htarget, tv, hv, ht⟩
  · intro h
    obtain ⟨htarget, tv, hv, ht⟩ := h
    exact ⟨_, tv, ⟨htarget, rfl⟩, hv, ht⟩

theorem annAssignText_eq_ok_iff {target : Ident} {type : Expr} :
    annAssignText q target type = .ok t ↔
      target.name ≠ "" ∧ ∃ tt, type.text q = .ok tt ∧
        target.name.toList ++ ':' :: ' ' :: tt = t := by
  simp only [annAssignText, bind₂_eq_ok_iff, pure_eq_ok_iff, Ident.text_eq_ok_iff]
  constructor
  · intro h
    obtain ⟨_, tt, ⟨htarget, rfl⟩, hv, ht⟩ := h
    exact ⟨htarget, tt, hv, ht⟩
  · intro h
    obtain ⟨htarget, tt, hv, ht⟩ := h
    exact ⟨_, tt, ⟨htarget, rfl⟩, hv, ht⟩

/-- A statement has a line of its own exactly if it is well named. -/
theorem Stmt.exists_label_iff {s : Stmt} :
    (∃ t, s.label q = .ok t) ↔ s.WellNamed (·.name ≠ "") := by
  have hwell : s.WellNamed (·.name ≠ "") ↔ (∀ i ∈ s.idents, i.name ≠ "") ∧
      (∀ e ∈ s.exprs, ∃ t, e.text q = .ok t) ∧ s.importsNothing = false := by
    simp only [Expr.exists_text_iff]
    exact ⟨fun h => ⟨h.idents, h.exprs, h.imports⟩, fun h => ⟨h.1, h.2.1, h.2.2⟩⟩
  rw [hwell]
  cases s with
  | importFrom source names =>
    simp [label, importText_eq_ok_iff, idents, exprs, importsNothing, and_comm,
      and_assoc]
  | classDef name bases body =>
    have hbases : (∀ e ∈ bases, ∃ t, e.text q = .ok t) ↔
        ∃ ts, List.Forall₂ (fun e t => e.text q = .ok t) bases ts := by
      simp only [← mapM_eq_ok_iff, exists_mapM_eq_ok_iff]
    simp [label, headerText_eq_ok_iff, idents, exprs, importsNothing, hbases]
  | assign target value => simp [label, assignText_eq_ok_iff, idents, exprs, importsNothing]
  | annAssign target type => simp [label, annAssignText_eq_ok_iff, idents, exprs, importsNothing]
  | expr value => simp [label, idents, exprs, importsNothing]
  | pass => simp [label, idents, exprs, importsNothing]

end Label

/-! ## Blocks and rows -/

/-- Lines with their nesting. -/
inductive Outline where
  | leaf (line : List Char)
  | block (header : List Char) (body : List Outline)

/-- A printed line, and whether it is the header of a block. -/
structure Row extends Line where
  header : Bool

namespace Outline

@[elab_as_elim, induction_eliminator]
theorem induct {motive : Outline → Prop}
    (leaf : ∀ line, motive (.leaf line))
    (block : ∀ header body, (∀ x ∈ body, motive x) → motive (.block header body))
    (x : Outline) : motive x :=
  @Outline.rec motive (fun xs => ∀ x ∈ xs, motive x) leaf block
    (fun _ h => nomatch h) (fun _ _ hx hxs => List.forall_mem_cons.mpr ⟨hx, hxs⟩) x

mutual

/-- The rows of an outline that stands at a depth: a header comes before its block, which is one
level deeper. -/
def rows (depth : Nat) : Outline → List Row
  | .leaf line => [⟨⟨depth, line⟩, false⟩]
  | .block header body => ⟨⟨depth, header⟩, true⟩ :: rowsAll (depth + 1) body
termination_by structural x => x

def rowsAll (depth : Nat) : List Outline → List Row
  | [] => []
  | x :: xs => x.rows depth ++ rowsAll depth xs
termination_by structural xs => xs

end

theorem rowsAll_eq_flatMap (depth : Nat) (xs : List Outline) :
    rowsAll depth xs = xs.flatMap (rows depth) := by
  induction xs with
  | nil => rfl
  | cons x xs ih => rw [rowsAll, List.flatMap_cons, ih]

end Outline

/-! ## The outline of a module -/

mutual

/-- The outline of a statement. -/
def Stmt.outline (q : QuoteStyle) : Stmt → Except Fault Outline
  | .classDef name bases body => do
    let header ← headerText q name bases
    let inner ← Stmt.outlineAll q body
    return .block header (if body.isEmpty then [.leaf passLine] else inner)
  | s => return .leaf (← s.label q)
termination_by structural s => s

def Stmt.outlineAll (q : QuoteStyle) : List Stmt → Except Fault (List Outline)
  | [] => .ok []
  | s :: ss => do
    let x ← s.outline q
    let xs ← Stmt.outlineAll q ss
    return x :: xs
termination_by structural ss => ss

end

def Module.outline (q : QuoteStyle) (m : Module) : Except Fault (List Outline) :=
  Stmt.outlineAll q m.body

section Outlines

variable {q : QuoteStyle}

theorem Stmt.outlineAll_eq_mapM (ss : List Stmt) :
    Stmt.outlineAll q ss = ss.mapM (Stmt.outline q) := by
  induction ss with
  | nil => rfl
  | cons s ss ih => rw [Stmt.outlineAll, List.mapM_cons, ih]

theorem Stmt.outlineAll_eq_ok_iff {ss : List Stmt} {xs : List Outline} :
    Stmt.outlineAll q ss = .ok xs ↔ List.Forall₂ (fun s x => s.outline q = .ok x) ss xs := by
  rw [outlineAll_eq_mapM, mapM_eq_ok_iff]

/-- What stands in a class whose statements have these outlines. -/
def Outline.bodyOf (xs : List Outline) : List Outline :=
  if xs.isEmpty then [.leaf passLine] else xs

theorem Stmt.outline_classDef_eq_ok_iff {name : Ident} {bases : List Expr} {body : List Stmt}
    {x : Outline} :
    (Stmt.classDef name bases body).outline q = .ok x ↔
      ∃ header xs, headerText q name bases = .ok header ∧
        List.Forall₂ (fun s x => s.outline q = .ok x) body xs ∧
        .block header (Outline.bodyOf xs) = x := by
  simp only [outline, bind₂_eq_ok_iff, pure_eq_ok_iff, outlineAll_eq_ok_iff]
  refine exists₂_congr fun header xs => and_congr_right fun _ => and_congr_right fun hbody => ?_
  cases hbody with
  | nil => rfl
  | cons _ _ => rfl

/-- A statement that is not a class is one line. -/
theorem Stmt.outline_eq_ok_iff {s : Stmt} (h : s.isClass = false) {x : Outline} :
    s.outline q = .ok x ↔ ∃ t, s.label q = .ok t ∧ .leaf t = x := by
  have hleaf : s.outline q = (s.label q >>= fun t => pure (.leaf t)) := by
    cases s with
    | classDef name bases body => cases h
    | _ => rfl
  rw [hleaf, bind_eq_ok_iff]
  simp only [pure_eq_ok_iff]

/-- A statement has an outline if it and all that stands in it are well named. -/
theorem Stmt.exists_outline {s : Stmt} (h : ∀ t ∈ s.preorder, t.WellNamed (·.name ≠ "")) :
    ∃ x, s.outline q = .ok x := by
  induction s using Stmt.induct_class with
  | line s hs =>
    obtain ⟨t, ht⟩ := exists_label_iff.mpr ((forall_preorder_of_not_isClass hs).mp h)
    exact ⟨.leaf t, (outline_eq_ok_iff hs).mpr ⟨t, ht, rfl⟩⟩
  | classDef name bases body ih =>
    obtain ⟨hself, hbody⟩ := forall_preorder_classDef.mp h
    obtain ⟨header, hheader⟩ := exists_label_iff.mpr hself
    obtain ⟨xs, hxs⟩ := exists_mapM_eq_ok_iff.mpr fun s hs => ih s hs (allNamed_iff.mp hbody s hs)
    exact ⟨_, outline_classDef_eq_ok_iff.mpr ⟨header, xs, hheader, mapM_eq_ok_iff.mp hxs, rfl⟩⟩

theorem Stmt.exists_outlineAll {ss : List Stmt} (h : Stmt.AllNamed (·.name ≠ "") ss) :
    ∃ xs, Stmt.outlineAll q ss = .ok xs := by
  rw [outlineAll_eq_mapM, exists_mapM_eq_ok_iff]
  exact fun s hs => exists_outline (allNamed_iff.mp h s hs)

theorem Stmt.linesAll_eq_of_forall₂ {ss : List Stmt} {xs : List Outline} {depth : Nat}
    (h : List.Forall₂ (fun s x => s.lines q depth = .ok ((x.rows depth).map Row.toLine)) ss xs) :
    Stmt.linesAll q depth ss = .ok ((Outline.rowsAll depth xs).map Row.toLine) := by
  induction h with
  | nil => rfl
  | cons hs _ ih =>
    rw [linesAll, hs, ih, Outline.rowsAll, List.map_append]
    rfl

theorem Stmt.lines_eq_label {s : Stmt} (h : s.isClass = false) (depth : Nat) :
    s.lines q depth = (s.label q >>= fun t => pure [⟨depth, t⟩]) := by
  cases s with
  | classDef name bases body => cases h
  | _ => rfl

/-- A statement prints the rows of its outline. -/
theorem Stmt.lines_of_outline {s : Stmt} {x : Outline} (h : s.outline q = .ok x) (depth : Nat) :
    s.lines q depth = .ok ((x.rows depth).map Row.toLine) := by
  induction s using Stmt.induct_class generalizing x depth with
  | line s hs =>
    obtain ⟨t, ht, rfl⟩ := (outline_eq_ok_iff hs).mp h
    rw [lines_eq_label hs, ht]
    rfl
  | classDef name bases body ih =>
    obtain ⟨header, xs, hheader, hbody, rfl⟩ := outline_classDef_eq_ok_iff.mp h
    have hinner := linesAll_eq_of_forall₂
      (forall₂_imp_of_mem hbody fun s hs x _ hx => ih s hs hx (depth + 1))
    rw [lines, hheader, hinner]
    cases hbody with
    | nil => rfl
    | cons _ _ => rfl

theorem Stmt.linesAll_of_outlineAll {ss : List Stmt} {xs : List Outline}
    (h : Stmt.outlineAll q ss = .ok xs) (depth : Nat) :
    Stmt.linesAll q depth ss = .ok ((Outline.rowsAll depth xs).map Row.toLine) :=
  linesAll_eq_of_forall₂
    (forall₂_imp_of_mem (outlineAll_eq_ok_iff.mp h) fun _ _ _ _ hx => lines_of_outline hx depth)

/-- A module that has an outline is printed as its rows. -/
theorem Module.print_of_outline {o : PrintOptions} {m : Module} {xs : List Outline}
    (h : m.outline o.quote = .ok xs) :
    (Node.module m).print o =
      .ok (String.ofList (layout o.indentSize ((Outline.rowsAll 0 xs).map Row.toLine))) := by
  rw [Node.print, Node.text, Module.text, Stmt.textAll, Stmt.linesAll_of_outlineAll h]
  rfl

end Outlines

/-! ## Trees that have a text -/

/-- No identifier in the tree is empty, and no import in it is without names. -/
def Node.Named : Node → Prop
  | .module m => Stmt.AllNamed (·.name ≠ "") m.body
  | .stmt s => ∀ t ∈ s.preorder, t.WellNamed (·.name ≠ "")
  | .expr e => e.Named

theorem Node.Named.normalized {n : Node} (h : n.Named) : n.normalized.Named := by
  cases n with
  | module m => exact h
  | stmt s => exact h
  | expr e =>
    cases e with
    | list es =>
      have hline : (Stmt.expr (.list es)).WellNamed (·.name ≠ "") :=
        ⟨List.forall_mem_nil _, List.forall_mem_singleton.mpr h, rfl⟩
      exact (Stmt.forall_preorder_of_not_isClass rfl).mpr hline
    | _ => exact h

theorem Node.exists_text {n : Node} (h : n.Named) (o : PrintOptions) : ∃ t, n.text o = .ok t := by
  cases n with
  | module m =>
    obtain ⟨xs, hxs⟩ := Stmt.exists_outlineAll (q := o.quote) h
    rw [Node.text, Module.text, Stmt.textAll, Stmt.linesAll_of_outlineAll hxs]
    exact ⟨_, rfl⟩
  | stmt s =>
    obtain ⟨x, hx⟩ := Stmt.exists_outline (q := o.quote) h
    rw [Node.text, Stmt.text, Stmt.lines_of_outline hx]
    exact ⟨_, rfl⟩
  | expr e => exact Expr.exists_text_iff.mpr h

theorem Node.exists_renderWith {n : Node} (h : n.Named) (o : PrintOptions) :
    ∃ s, n.renderWith o = .ok s := by
  obtain ⟨t, ht⟩ := exists_text h.normalized o
  rw [renderWith, print, ht]
  exact ⟨_, rfl⟩

end ScriptTree
