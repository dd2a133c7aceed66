import ScriptTree.Proofs.Tree.Rebuild

/-!
# Union chains

Operands with bars between them can be bracketed in many ways, all of which print alike. The
right-nested form of a tree brackets every chain in it to the right, at every depth, and changes
nothing else; in particular it has the same text.
-/
namespace ScriptTree.Expr

/-- The union of a chain and one more operand or chain, bracketed to the right. -/
def union : Expr → Expr → Expr
  | .bitOr a b, c => .bitOr a (b.union c)
  | a, c => .bitOr a c

mutual

/-- The same tree with all chains bracketed to the right. -/
def rightNested : Expr → Expr
  | .literal l => .literal l
  | .name i => .name i
  | .attr v i => .attr v.rightNested i
  | .subscript v i => .subscript v.rightNested i.rightNested
  | .bitOr l r => l.rightNested.union r.rightNested
  | .list es => .list (rightNestedAll es)
  | .dict es => .dict (rightNestedEntries es)
  | .call f xs => .call f.rightNested (rightNestedArguments xs)
termination_by structural e => e

def rightNestedAll : List Expr → List Expr
  | [] => []
  | e :: es => e.rightNested :: rightNestedAll es
termination_by structural es => es

def rightNestedEntries : List (Entry Expr) → List (Entry Expr)
  | [] => []
  | ⟨k, v⟩ :: es => ⟨k.rightNested, v.rightNested⟩ :: rightNestedEntries es
termination_by structural es => es

def rightNestedArguments : List (Argument Expr) → List (Argument Expr)
  | [] => []
  | ⟨k, v⟩ :: xs => ⟨k, v.rightNested⟩ :: rightNestedArguments xs
termination_by structural xs => xs

end

theorem rightNestedAll_eq_map (es : List Expr) : rightNestedAll es = es.map rightNested := by
  induction es with
  | nil => rfl
  | cons e es ih => rw [rightNestedAll, List.map_cons, ih]

theorem rightNestedEntries_eq_map (es : List (Entry Expr)) :
    rightNestedEntries es = es.map fun x => ⟨x.key.rightNested, x.value.rightNested⟩ := by
  induction es with
  | nil => rfl
  | cons x es ih => rw [rightNestedEntries, List.map_cons, ih]

theorem rightNestedArguments_eq_map (xs : List (Argument Expr)) :
    rightNestedArguments xs = xs.map fun x => ⟨x.keyword, x.value.rightNested⟩ := by
  induction xs with
  | nil => rfl
  | cons x xs ih => rw [rightNestedArguments, List.map_cons, ih]

theorem union_of_not_isUnion {a : Expr} (h : a.isUnion = false) (c : Expr) :
    a.union c = .bitOr a c := by
  cases a with
  | bitOr l r => cases h
  | _ => rfl

theorem union_assoc (a b c : Expr) : (a.union b).union c = a.union (b.union c) := by
  induction a with
  | bitOr l r _ hr => rw [union, union, union, hr]
  | _ => rfl

/-- Bracketing chains to the right makes no chain and unmakes none. -/
theorem isUnion_rightNested (e : Expr) : e.rightNested.isUnion = e.isUnion := by
  cases e with
  | bitOr l r =>
    rw [rightNested]
    cases l.rightNested <;> rfl
  | _ => rfl

/-- Brackets the chain at the top of an expression to the right, if its operands are. -/
def unite : Expr → Expr
  | .bitOr l r => l.union r
  | e => e

theorem rightNested_eq_rebuild (e : Expr) : e.rightNested = e.rebuild unite := by
  induction e with
  | literal _ => rfl
  | name _ => rfl
  | attr v i hv => exact congrArg (Expr.attr · i) hv
  | subscript v i hv hi => exact congrArg₂ Expr.subscript hv hi
  | bitOr l r hl hr => exact congrArg₂ union hl hr
  | list es hes =>
    show Expr.list (rightNestedAll es) = .list (rebuildAll unite es)
    rw [rightNestedAll_eq_map, rebuildAll_eq_map, List.map_congr_left hes]
  | dict es hes =>
    have hentries : ∀ x ∈ es, Entry.mk x.key.rightNested x.value.rightNested =
        ⟨x.key.rebuild unite, x.value.rebuild unite⟩ := by
      intro x hx
      rw [(hes x hx).1, (hes x hx).2]
    show Expr.dict (rightNestedEntries es) = .dict (rebuildEntries unite es)
    rw [rightNestedEntries_eq_map, rebuildEntries_eq_map, List.map_congr_left hentries]
  | call f xs hf hxs =>
    have harguments : ∀ x ∈ xs, Argument.mk x.keyword x.value.rightNested =
        ⟨x.keyword, x.value.rebuild unite⟩ := by
      intro x hx
      rw [hxs x hx]
    show Expr.call f.rightNested (rightNestedArguments xs) =
      .call (f.rebuild unite) (rebuildArguments unite xs)
    rw [hf, rightNestedArguments_eq_map, rebuildArguments_eq_map, List.map_congr_left harguments]

/-! ## The text does not show the brackets -/

variable (q : QuoteStyle)

theorem text_union (a c : Expr) : (a.union c).text q = (Expr.bitOr a c).text q := by
  induction a with
  | bitOr l r _ hr =>
    rw [union, Expr.text, hr]
    simp only [Expr.text, bind_assoc, pure_bind, List.append_assoc, List.cons_append]
  | _ => rfl

theorem text_unite (e : Expr) : e.unite.text q = e.text q := by
  cases e with
  | bitOr l r => exact text_union q l r
  | _ => rfl

/-- Bracketing chains to the right leaves the text as it is. -/
theorem text_rightNested (e : Expr) : e.rightNested.text q = e.text q := by
  rw [rightNested_eq_rebuild]
  exact text_rebuild (text_unite q) e

end ScriptTree.Expr
