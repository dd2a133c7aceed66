import Mathlib.Data.List.Basic
import ScriptTree.Tree.Basic

/-!
# Sub-expressions and inner statements

Induction over expressions and over statements, where the children that stand in lists are reached
by membership, and properties that hold of every expression inside an expression.
-/
namespace ScriptTree.Expr

@[elab_as_elim, induction_eliminator]
theorem induct {motive : Expr → Prop}
    (literal : ∀ l, motive (.literal l))
    (name : ∀ i, motive (.name i))
    (attr : ∀ v i, motive v → motive (.attr v i))
    (subscript : ∀ v i, motive v → motive i → motive (.subscript v i))
    (bitOr : ∀ l r, motive l → motive r → motive (.bitOr l r))
    (list : ∀ es, (∀ e ∈ es, motive e) → motive (.list es))
    (dict : ∀ es, (∀ x ∈ es, motive x.key ∧ motive x.value) → motive (.dict es))
    (call : ∀ f xs, motive f → (∀ x ∈ xs, motive x.value) → motive (.call f xs))
    (e : Expr) : motive e :=
  @Expr.rec motive (fun es => ∀ e ∈ es, motive e)
    (fun es => ∀ x ∈ es, motive x.key ∧ motive x.value) (fun xs => ∀ x ∈ xs, motive x.value)
    (fun x => motive x.key ∧ motive x.value) (fun x => motive x.value)
    literal name attr subscript bitOr list dict call
    (fun _ h => nomatch h) (fun _ _ hx hxs => List.forall_mem_cons.mpr ⟨hx, hxs⟩)
    (fun _ h => nomatch h) (fun _ _ hx hxs => List.forall_mem_cons.mpr ⟨hx, hxs⟩)
    (fun _ h => nomatch h) (fun _ _ hx hxs => List.forall_mem_cons.mpr ⟨hx, hxs⟩)
    (fun _ _ hk hv => ⟨hk, hv⟩) (fun _ _ hv => hv) e

/-- The expressions directly inside an expression. -/
def children : Expr → List Expr
  | .literal _ => []
  | .name _ => []
  | .attr v _ => [v]
  | .subscript v i => [v, i]
  | .bitOr l r => [l, r]
  | .list es => es
  | .dict es => es.flatMap fun x => [x.key, x.value]
  | .call f xs => f :: xs.map (·.value)

/-- An expression stands inside another one or is that one. -/
inductive Within : Expr → Expr → Prop
  | refl (e : Expr) : Within e e
  | child {s c e : Expr} (hc : c ∈ e.children) (h : Within s c) : Within s e

/-- A property of every expression inside an expression, that expression included. -/
def Everywhere (P : Expr → Prop) (e : Expr) : Prop := ∀ s, Within s e → P s

section Everywhere

variable {P : Expr → Prop}

theorem Everywhere.self {e : Expr} (h : e.Everywhere P) : P e := h e (.refl e)

theorem everywhere_iff {e : Expr} :
    e.Everywhere P ↔ P e ∧ ∀ c ∈ e.children, c.Everywhere P := by
  constructor
  · intro h
    exact ⟨h.self, fun c hc s hs => h s (.child hc hs)⟩
  · intro h s hs
    obtain ⟨hself, hchildren⟩ := h
    cases hs with
    | refl => exact hself
    | child hc hs => exact hchildren _ hc s hs

@[simp] theorem everywhere_literal {l : Literal} :
    (Expr.literal l).Everywhere P ↔ P (.literal l) := by
  rw [everywhere_iff]
  simp [children]

@[simp] theorem everywhere_name {i : Ident} : (Expr.name i).Everywhere P ↔ P (.name i) := by
  rw [everywhere_iff]
  simp [children]

@[simp] theorem everywhere_attr {v : Expr} {i : Ident} :
    (Expr.attr v i).Everywhere P ↔ P (.attr v i) ∧ v.Everywhere P := by
  rw [everywhere_iff]
  simp [children]

@[simp] theorem everywhere_subscript {v i : Expr} :
    (Expr.subscript v i).Everywhere P ↔
      P (.subscript v i) ∧ v.Everywhere P ∧ i.Everywhere P := by
  rw [everywhere_iff]
  simp [children]

@[simp] theorem everywhere_bitOr {l r : Expr} :
    (Expr.bitOr l r).Everywhere P ↔ P (.bitOr l r) ∧ l.Everywhere P ∧ r.Everywhere P := by
  rw [everywhere_iff]
  simp [children]

@[simp] theorem everywhere_list {es : List Expr} :
    (Expr.list es).Everywhere P ↔ P (.list es) ∧ ∀ e ∈ es, e.Everywhere P := everywhere_iff

@[simp] theorem everywhere_dict {es : List (Entry Expr)} :
    (Expr.dict es).Everywhere P ↔
      P (.dict es) ∧ ∀ x ∈ es, x.key.Everywhere P ∧ x.value.Everywhere P := by
  rw [everywhere_iff, children, List.forall_mem_flatMap]
  simp

@[simp] theorem everywhere_call {f : Expr} {xs : List (Argument Expr)} :
    (Expr.call f xs).Everywhere P ↔
      P (.call f xs) ∧ f.Everywhere P ∧ ∀ x ∈ xs, x.value.Everywhere P := by
  rw [everywhere_iff]
  simp [children]

end Everywhere

/-! ## Checking everywhere -/

mutual

/-- Whether a test holds of every expression inside an expression. -/
def checkAll (p : Expr → Bool) : Expr → Bool
  | .literal l => p (.literal l)
  | .name i => p (.name i)
  | .attr v i => p (.attr v i) && v.checkAll p
  | .subscript v i => p (.subscript v i) && (v.checkAll p && i.checkAll p)
  | .bitOr l r => p (.bitOr l r) && (l.checkAll p && r.checkAll p)
  | .list es => p (.list es) && checkElements p es
  | .dict es => p (.dict es) && checkEntries p es
  | .call f xs => p (.call f xs) && (f.checkAll p && checkArguments p xs)
termination_by structural e => e

def checkElements (p : Expr → Bool) : List Expr → Bool
  | [] => true
  | e :: es => e.checkAll p && checkElements p es
termination_by structural es => es

def checkEntries (p : Expr → Bool) : List (Entry Expr) → Bool
  | [] => true
  | ⟨k, v⟩ :: es => k.checkAll p && v.checkAll p && checkEntries p es
termination_by structural es => es

def checkArguments (p : Expr → Bool) : List (Argument Expr) → Bool
  | [] => true
  | ⟨_, v⟩ :: xs => v.checkAll p && checkArguments p xs
termination_by structural xs => xs

end

section Check

variable {p : Expr → Bool}

theorem checkElements_eq_all (es : List Expr) :
    checkElements p es = es.all fun e => e.checkAll p := by
  induction es with
  | nil => rfl
  | cons e es ih => rw [checkElements, List.all_cons, ih]

theorem checkEntries_eq_all (es : List (Entry Expr)) :
    checkEntries p es = es.all fun x => x.key.checkAll p && x.value.checkAll p := by
  induction es with
  | nil => rfl
  | cons x es ih => rw [checkEntries, List.all_cons, ih]

theorem checkArguments_eq_all (xs : List (Argument Expr)) :
    checkArguments p xs = xs.all fun x => x.value.checkAll p := by
  induction xs with
  | nil => rfl
  | cons x xs ih => rw [checkArguments, List.all_cons, ih]

theorem checkAll_iff (e : Expr) : e.checkAll p = true ↔ e.Everywhere fun s => p s = true := by
  induction e with
  | literal l => rw [everywhere_literal, checkAll]
  | name i => rw [everywhere_name, checkAll]
  | attr v i hv => rw [everywhere_attr, checkAll, Bool.and_eq_true, hv]
  | subscript v i hv hi =>
    rw [everywhere_subscript, checkAll, Bool.and_eq_true, Bool.and_eq_true, hv, hi]
  | bitOr l r hl hr =>
    rw [everywhere_bitOr, checkAll, Bool.and_eq_true, Bool.and_eq_true, hl, hr]
  | list es hes =>
    rw [everywhere_list, checkAll, Bool.and_eq_true, checkElements_eq_all, List.all_eq_true]
    exact and_congr_right' (forall₂_congr hes)
  | dict es hes =>
    rw [everywhere_dict, checkAll, Bool.and_eq_true, checkEntries_eq_all, List.all_eq_true]
    refine and_congr_right' (forall₂_congr fun x hx => ?_)
    rw [Bool.and_eq_true, (hes x hx).1, (hes x hx).2]
  | call f xs hf hxs =>
    rw [everywhere_call, checkAll, Bool.and_eq_true, Bool.and_eq_true, checkArguments_eq_all,
      List.all_eq_true, hf]
    exact and_congr_right' (and_congr_right' (forall₂_congr hxs))

end Check

instance {P : Expr → Prop} [DecidablePred P] (e : Expr) : Decidable (e.Everywhere P) :=
  decidable_of_iff (e.checkAll (fun s => decide (P s)) = true) <| by
    rw [checkAll_iff]
    simp only [decide_eq_true_eq]

/-- The identifiers that an expression carries itself, without those of its sub-expressions. -/
def idents : Expr → List Ident
  | .name i => [i]
  | .attr _ i => [i]
  | .call _ xs => xs.filterMap (·.keyword)
  | _ => []

/-- What an attribute, a subscript or a call applies to. -/
def operand? : Expr → Option Expr
  | .attr v _ => some v
  | .subscript v _ => some v
  | .call f _ => some f
  | _ => none

def isUnion : Expr → Bool
  | .bitOr _ _ => true
  | _ => false

end ScriptTree.Expr

namespace ScriptTree.Stmt

@[elab_as_elim, induction_eliminator]
theorem induct {motive : Stmt → Prop}
    (importFrom : ∀ source names, motive (.importFrom source names))
    (classDef : ∀ name bases body, (∀ s ∈ body, motive s) → motive (.classDef name bases body))
    (assign : ∀ x v, motive (.assign x v))
    (annAssign : ∀ x t, motive (.annAssign x t))
    (expr : ∀ v, motive (.expr v))
    (pass : motive .pass)
    (s : Stmt) : motive s :=
  @Stmt.rec motive (fun ss => ∀ s ∈ ss, motive s) importFrom classDef assign annAssign expr pass
    (fun _ h => nomatch h) (fun _ _ hs hss => List.forall_mem_cons.mpr ⟨hs, hss⟩) s

/-- The statements directly inside a statement. -/
def children : Stmt → List Stmt
  | .classDef _ _ body => body
  | _ => []

end ScriptTree.Stmt
