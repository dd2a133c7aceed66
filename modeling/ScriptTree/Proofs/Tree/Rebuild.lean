import ScriptTree.Proofs.Print.Success

/-!
# Rebuilding a tree

A tree is rebuilt when each expression in it is replaced by another one, from the inside out. If no
single replacement changes the text of what it replaces, the rebuilt tree has the text of the tree.
-/
namespace ScriptTree.Expr

open Outcome (mapM_map_of_mem)

variable {q : QuoteStyle}

mutual

/-- The tree in which every expression was replaced by what is made of it, from the inside out. -/
def rebuild (f : Expr → Expr) : Expr → Expr
  | .literal l => f (.literal l)
  | .name i => f (.name i)
  | .attr v i => f (.attr (v.rebuild f) i)
  | .subscript v i => f (.subscript (v.rebuild f) (i.rebuild f))
  | .bitOr l r => f (.bitOr (l.rebuild f) (r.rebuild f))
  | .list es => f (.list (rebuildAll f es))
  | .dict es => f (.dict (rebuildEntries f es))
  | .call g xs => f (.call (g.rebuild f) (rebuildArguments f xs))
termination_by structural e => e

def rebuildAll (f : Expr → Expr) : List Expr → List Expr
  | [] => []
  | e :: es => e.rebuild f :: rebuildAll f es
termination_by structural es => es

def rebuildEntries (f : Expr → Expr) : List (Entry Expr) → List (Entry Expr)
  | [] => []
  | ⟨k, v⟩ :: es => ⟨k.rebuild f, v.rebuild f⟩ :: rebuildEntries f es
termination_by structural es => es

def rebuildArguments (f : Expr → Expr) : List (Argument Expr) → List (Argument Expr)
  | [] => []
  | ⟨k, v⟩ :: xs => ⟨k, v.rebuild f⟩ :: rebuildArguments f xs
termination_by structural xs => xs

end

section Rebuild

variable (f : Expr → Expr)

theorem rebuildAll_eq_map (es : List Expr) : rebuildAll f es = es.map (rebuild f) := by
  induction es with
  | nil => rfl
  | cons e es ih => rw [rebuildAll, List.map_cons, ih]

theorem rebuildEntries_eq_map (es : List (Entry Expr)) :
    rebuildEntries f es = es.map fun x => ⟨x.key.rebuild f, x.value.rebuild f⟩ := by
  induction es with
  | nil => rfl
  | cons x es ih => rw [rebuildEntries, List.map_cons, ih]

theorem rebuildArguments_eq_map (xs : List (Argument Expr)) :
    rebuildArguments f xs = xs.map fun x => ⟨x.keyword, x.value.rebuild f⟩ := by
  induction xs with
  | nil => rfl
  | cons x xs ih => rw [rebuildArguments, List.map_cons, ih]

variable {f}

/-- Replacements that do not show in the text of what they replace do not show at all. -/
theorem text_rebuild (hf : ∀ e, (f e).text q = e.text q) (e : Expr) :
    (e.rebuild f).text q = e.text q := by
  induction e with
  | literal l => rw [rebuild, hf]
  | name i => rw [rebuild, hf]
  | attr v i hv => rw [rebuild, hf, Expr.text, Expr.text, hv]
  | subscript v i hv hi => rw [rebuild, hf, Expr.text, Expr.text, hv, hi]
  | bitOr l r hl hr => rw [rebuild, hf, Expr.text, Expr.text, hl, hr]
  | list es hes =>
    rw [rebuild, hf, Expr.text, Expr.text, rebuildAll_eq_map, textAll_eq_mapM, textAll_eq_mapM,
      mapM_map_of_mem hes]
  | dict es hes =>
    have hentries : ∀ x ∈ es, Entry.text q ⟨x.key.rebuild f, x.value.rebuild f⟩ = x.text q := by
      intro x hx
      rw [Entry.text, Entry.text, (hes x hx).1, (hes x hx).2]
    rw [rebuild, hf, Expr.text, Expr.text, rebuildEntries_eq_map, entryTexts_eq_mapM,
      entryTexts_eq_mapM, mapM_map_of_mem hentries]
  | call g xs hg hxs =>
    have harguments : ∀ x ∈ xs, Argument.text q ⟨x.keyword, x.value.rebuild f⟩ = x.text q := by
      intro x hx
      rw [Argument.text, Argument.text, hxs x hx]
    rw [rebuild, hf, Expr.text, Expr.text, rebuildArguments_eq_map, argumentTexts_eq_mapM,
      argumentTexts_eq_mapM, mapM_map_of_mem harguments, hg]

end Rebuild

end ScriptTree.Expr
