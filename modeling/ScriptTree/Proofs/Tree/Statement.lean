import ScriptTree.Proofs.Tree.Subexpression

/-!
# Statements at every depth

The statements of a tree in the order in which they are written, a class before what stands in it,
and what each of them carries itself: its identifiers, its expressions and, if it is an import, the
names that it imports.
-/
namespace ScriptTree

/-- A property of every identifier in an expression. -/
def Expr.AllIdents (P : Ident → Prop) (e : Expr) : Prop :=
  e.Everywhere fun s => ∀ i ∈ s.idents, P i

instance {P : Ident → Prop} [DecidablePred P] (e : Expr) : Decidable (e.AllIdents P) :=
  inferInstanceAs (Decidable (e.Everywhere _))

theorem Expr.AllIdents.imp {P Q : Ident → Prop} (h : ∀ i, P i → Q i) {e : Expr}
    (he : e.AllIdents P) : e.AllIdents Q :=
  fun s hs i hi => h i (he s hs i hi)

namespace Stmt

def isClass : Stmt → Bool
  | .classDef _ _ _ => true
  | _ => false

/-- Induction in which the statements that hold no other ones are one case. -/
@[elab_as_elim]
theorem induct_class {motive : Stmt → Prop}
    (line : ∀ s, s.isClass = false → motive s)
    (classDef : ∀ name bases body, (∀ s ∈ body, motive s) → motive (.classDef name bases body))
    (s : Stmt) : motive s := by
  induction s with
  | classDef name bases body hbody => exact classDef name bases body hbody
  | _ => exact line _ rfl

mutual

/-- A statement and, if it is a class, the statements in it at every depth. -/
def preorder : Stmt → List Stmt
  | .classDef name bases body => .classDef name bases body :: preorderAll body
  | s => [s]
termination_by structural s => s

def preorderAll : List Stmt → List Stmt
  | [] => []
  | s :: ss => s.preorder ++ preorderAll ss
termination_by structural ss => ss

end

theorem preorder_of_not_isClass {s : Stmt} (h : s.isClass = false) : s.preorder = [s] := by
  cases s with
  | classDef name bases body => cases h
  | _ => rfl

/-- The identifiers that a statement carries itself, without those of its expressions. -/
def idents : Stmt → List Ident
  | .importFrom _ names => names
  | .classDef name _ _ => [name]
  | .assign target _ => [target]
  | .annAssign target _ => [target]
  | .expr _ => []
  | .pass => []

/-- The expressions that a statement carries itself. -/
def exprs : Stmt → List Expr
  | .importFrom source _ => [source]
  | .classDef _ bases _ => bases
  | .assign _ value => [value]
  | .annAssign _ type => [type]
  | .expr value => [value]
  | .pass => []

/-- An import of nothing. -/
def importsNothing : Stmt → Bool
  | .importFrom _ names => names.isEmpty
  | _ => false

/-- The identifiers of a statement itself have a property, and an import names something. What
stands in a class is not looked at. -/
structure WellNamed (P : Ident → Prop) (s : Stmt) : Prop where
  idents : ∀ i ∈ s.idents, P i
  exprs : ∀ e ∈ s.exprs, e.AllIdents P
  imports : s.importsNothing = false

section WellNamed

variable {P Q : Ident → Prop}

instance [DecidablePred P] (s : Stmt) : Decidable (s.WellNamed P) :=
  decidable_of_iff ((∀ i ∈ s.idents, P i) ∧ (∀ e ∈ s.exprs, e.AllIdents P) ∧
      s.importsNothing = false)
    ⟨fun h => ⟨h.1, h.2.1, h.2.2⟩, fun h => ⟨h.idents, h.exprs, h.imports⟩⟩

theorem WellNamed.imp (h : ∀ i, P i → Q i) {s : Stmt} (hs : s.WellNamed P) : s.WellNamed Q where
  idents := fun i hi => h i (hs.idents i hi)
  exprs := fun e he => (hs.exprs e he).imp h
  imports := hs.imports

/-- All statements of a list, at every depth, are well named. -/
def AllNamed (P : Ident → Prop) (ss : List Stmt) : Prop := ∀ s ∈ preorderAll ss, s.WellNamed P

instance [DecidablePred P] (ss : List Stmt) : Decidable (AllNamed P ss) :=
  inferInstanceAs (Decidable (∀ s ∈ preorderAll ss, s.WellNamed P))

theorem preorderAll_eq_flatMap (ss : List Stmt) : preorderAll ss = ss.flatMap preorder := by
  induction ss with
  | nil => rfl
  | cons s ss ih => rw [preorderAll, List.flatMap_cons, ih]

theorem allNamed_iff {ss : List Stmt} :
    AllNamed P ss ↔ ∀ s ∈ ss, ∀ t ∈ s.preorder, t.WellNamed P := by
  rw [AllNamed, preorderAll_eq_flatMap, List.forall_mem_flatMap]

theorem AllNamed.imp (h : ∀ i, P i → Q i) {ss : List Stmt} (hs : AllNamed P ss) : AllNamed Q ss :=
  fun s hmem => (hs s hmem).imp h

theorem forall_preorder_classDef {name : Ident} {bases : List Expr} {body : List Stmt} :
    (∀ t ∈ (Stmt.classDef name bases body).preorder, t.WellNamed P) ↔
      (Stmt.classDef name bases body).WellNamed P ∧ AllNamed P body :=
  List.forall_mem_cons

theorem forall_preorder_of_not_isClass {s : Stmt} (h : s.isClass = false) :
    (∀ t ∈ s.preorder, t.WellNamed P) ↔ s.WellNamed P := by
  rw [preorder_of_not_isClass h, List.forall_mem_singleton]

end WellNamed

end Stmt

end ScriptTree
