import ScriptTree.Print.Layout

/-!
# Printed chains

The operands of a chain are printed one after the other with bars between them. This is so for chains
that are nested to the left and for those that are nested to the right, and there is no code at all if
one of the operands has none.
-/
namespace ScriptTree.Node

variable {o : PrintOptions}

theorem print_bitOr (l r : Expr) :
    (Node.expr (.bitOr l r)).print o = do
      let lhs ← (Node.expr l).print o
      let rhs ← (Node.expr r).print o
      return lhs ++ " | " ++ rhs := by
  simp only [Node.print, Node.text, Expr.text]
  cases l.text o.quote with
  | error f => rfl
  | ok tl =>
    cases r.text o.quote with
    | error f => rfl
    | ok tr =>
      refine congrArg Except.ok ?_
      rw [← String.toList_inj]
      simp

/-- A chain that is nested to the left is printed operand by operand. -/
theorem print_foldl_bitOr (e : Expr) (ds : List Expr) :
    (Node.expr (ds.foldl .bitOr e)).print o = do
      let first ← (Node.expr e).print o
      let rest ← ds.mapM fun d => (Node.expr d).print o
      return " | ".intercalate (first :: rest) := by
  induction ds generalizing e with
  | nil =>
    cases hprint : (Node.expr e).print o with
    | error err => exact hprint
    | ok first =>
      rw [List.foldl_nil, hprint]
      simp
  | cons d ds ih =>
    rw [List.foldl_cons, ih, print_bitOr, List.mapM_cons]
    simp only [bind_assoc, pure_bind, String.intercalate_cons_cons, String.intercalate_cons_append]

/-- Only a list display on its own is changed before it is printed. -/
theorem normalized_foldl_bitOr {e : Expr} (h : (Node.expr e).normalized = .expr e)
    (ds : List Expr) :
    (Node.expr (ds.foldl .bitOr e)).normalized = .expr (ds.foldl .bitOr e) := by
  induction ds generalizing e with
  | nil => exact h
  | cons d ds ih => exact ih rfl

/-- A chain that is nested to the right is printed operand by operand, too. -/
theorem print_foldr_bitOr (ds : List Expr) (e : Expr) :
    (Node.expr (ds.foldr .bitOr e)).print o = do
      let before ← ds.mapM fun d => (Node.expr d).print o
      let last ← (Node.expr e).print o
      return " | ".intercalate (before ++ [last]) := by
  induction ds with
  | nil => simp
  | cons d ds ih =>
    have hjoin (code last : String) (before : List String) :
        " | ".intercalate (code :: before ++ [last]) =
          code ++ " | " ++ " | ".intercalate (before ++ [last]) :=
      String.intercalate_cons_of_ne_nil (List.concat_ne_nil last before)
    rw [List.foldr_cons, print_bitOr, ih, List.mapM_cons]
    simp only [bind_assoc, pure_bind, hjoin]

theorem normalized_foldr_bitOr {e : Expr} (h : (Node.expr e).normalized = .expr e)
    (ds : List Expr) :
    (Node.expr (ds.foldr .bitOr e)).normalized = .expr (ds.foldr .bitOr e) := by
  cases ds with
  | nil => exact h
  | cons d ds => rfl

end ScriptTree.Node
