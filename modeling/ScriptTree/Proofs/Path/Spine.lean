import ScriptTree.Proofs.Path.Canonical

/-!
# The trees of paths

The tree of a path is a spine: a name at its end and attributes and subscripts around it, where
every name is one that a path can hold and every subscript is an integer or a string. An attribute
and a module have the tree that their path has as a callee or a base.
-/
namespace ScriptTree

/-- A name that a path can hold. -/
def Ident.InPath (i : Ident) : Prop :=
  i.name ≠ "" ∧ ∀ c ∈ i.name.toList, c ≠ '.' ∧ c ≠ '[' ∧ c ≠ ']'

namespace Expr

/-- What a subscript of a path can be. -/
def IsIndex (e : Expr) : Prop := (∃ n, e = .int n) ∨ ∃ s, e = .string s

/-- Names, attributes and subscripts only. -/
inductive Spine : Expr → Prop
  | name {i : Ident} (hi : i.InPath) : Spine (.name i)
  | attr {v : Expr} {i : Ident} (hv : Spine v) (hi : i.InPath) : Spine (.attr v i)
  | subscript {v i : Expr} (hv : Spine v) (hi : i.IsIndex) : Spine (.subscript v i)

/-- Whether there is an attribute on a spine. -/
def hasAttr : Expr → Bool
  | .attr _ _ => true
  | .subscript v _ => v.hasAttr
  | _ => false

/-- What holds of names, of literals and of one more step on a spine holds everywhere in a spine. -/
theorem Spine.everywhere {P : Expr → Prop} (hname : ∀ i : Ident, i.InPath → P (.name i))
    (hindex : ∀ e : Expr, e.IsIndex → P e)
    (hattr : ∀ (v : Expr) (i : Ident), v.Spine → i.InPath → P (.attr v i))
    (hsubscript : ∀ v i : Expr, v.Spine → i.IsIndex → P (.subscript v i)) {e : Expr}
    (h : e.Spine) : e.Everywhere P := by
  induction h with
  | name hi => exact everywhere_name.mpr (hname _ hi)
  | attr hv hi ih => exact everywhere_attr.mpr ⟨hattr _ _ hv hi, ih⟩
  | subscript hv hi ih =>
    refine everywhere_subscript.mpr ⟨hsubscript _ _ hv hi, ih, ?_⟩
    have hself := hindex _ hi
    rcases hi with ⟨n, rfl⟩ | ⟨s, rfl⟩
    · exact everywhere_literal.mpr hself
    · exact everywhere_literal.mpr hself

theorem Spine.named {e : Expr} (h : e.Spine) : e.Named := by
  refine h.everywhere ?_ ?_ ?_ ?_
  · intro i hi j hj
    rw [List.mem_singleton.mp hj]
    exact hi.1
  · rintro _ (⟨n, rfl⟩ | ⟨s, rfl⟩)
    · exact fun i hi => nomatch hi
    · exact fun i hi => nomatch hi
  · intro v i _ hi j hj
    rw [List.mem_singleton.mp hj]
    exact hi.1
  · exact fun v i _ _ j hj => nomatch hj

/-- A spine is printed as it stands. -/
theorem Spine.normalized {e : Expr} (h : e.Spine) : (Node.expr e).normalized = .expr e := by
  cases h with
  | name _ => rfl
  | attr _ _ => rfl
  | subscript _ _ => rfl

end Expr

namespace Path

theorem exists_toExpr? {ss : List Segment} (h : ss ≠ []) : ∃ e, toExpr? ss = some e := by
  obtain ⟨s, rest, rfl⟩ := List.exists_cons_of_ne_nil h
  exact ⟨_, rfl⟩

theorem isIndex_indexLiteral (index : String) : (indexLiteral index).IsIndex := by
  rw [indexLiteral]
  split
  · exact .inl ⟨_, rfl⟩
  · exact .inr ⟨_, rfl⟩

theorem Segment.Valid.inPath {s : Segment} (h : s.Valid) : Ident.InPath ⟨s.name⟩ :=
  ⟨h.named, h.nameFree⟩

theorem Segment.spine_subscript (s : Segment) {e : Expr} (h : e.Spine) :
    (s.subscript e).Spine ∧ (s.subscript e).hasAttr = e.hasAttr := by
  rw [Segment.subscript]
  generalize s.indices = indices
  induction indices generalizing e with
  | nil => exact ⟨h, rfl⟩
  | cons i indices ih => exact ih (h.subscript (isIndex_indexLiteral i))

theorem spine_foldl_attach {ss : List Segment} (hvalid : ∀ s ∈ ss, s.Valid) {e : Expr}
    (he : e.Spine) :
    (ss.foldl Segment.attach e).Spine ∧
      (e.hasAttr = true ∨ ss ≠ [] → (ss.foldl Segment.attach e).hasAttr = true) := by
  induction ss generalizing e with
  | nil => exact ⟨he, fun h => h.elim id fun h => absurd rfl h⟩
  | cons s ss ih =>
    obtain ⟨hspine, hattr⟩ := s.spine_subscript (he.attr (hvalid s (.head _)).inPath)
    obtain ⟨hall, hlater⟩ := ih (fun u hu => hvalid u (.tail _ hu)) hspine
    exact ⟨hall, fun _ => hlater (.inl hattr)⟩

/-- The tree of valid segments is a spine, with an attribute if there are two of them. -/
theorem spine_toExpr? {ss : List Segment} (hvalid : ∀ s ∈ ss, s.Valid) {e : Expr}
    (he : toExpr? ss = some e) : e.Spine ∧ (2 ≤ ss.length → e.hasAttr = true) := by
  cases ss with
  | nil => cases he
  | cons s rest =>
    cases he
    obtain ⟨hfirst, -⟩ := s.spine_subscript (.name (hvalid s (.head _)).inPath)
    obtain ⟨hall, hlater⟩ := spine_foldl_attach (fun u hu => hvalid u (.tail _ hu)) hfirst
    refine ⟨hall, fun hlength => hlater (.inr ?_)⟩
    rintro rfl
    simp at hlength

theorem spine_of_expr {path : String} {e : Expr} (h : expr path = .ok e) : e.Spine := by
  obtain ⟨ss, hread, htree⟩ := expr_eq_ok_iff.mp h
  exact (spine_toExpr? (segments_eq_ok_iff.mp hread).1.2 htree).1

theorem expr_of_attributeExpr {path : String} {e : Expr} (h : attributeExpr path = .ok e) :
    expr path = .ok e := by
  obtain ⟨ss, hread, -, htree⟩ := attributeExpr_eq_ok_iff.mp h
  exact expr_eq_ok_iff.mpr ⟨ss, hread, htree⟩

theorem hasAttr_of_attributeExpr {path : String} {e : Expr} (h : attributeExpr path = .ok e) :
    e.hasAttr = true := by
  obtain ⟨ss, hread, hlength, htree⟩ := attributeExpr_eq_ok_iff.mp h
  exact (spine_toExpr? (segments_eq_ok_iff.mp hread).1.2 htree).2 hlength

theorem expr_of_moduleExpr {path : String} {e : Expr} (h : moduleExpr path = .ok e) :
    expr path = .ok e := by
  obtain ⟨ss, hread, -, htree⟩ := moduleExpr_eq_ok_iff.mp h
  exact expr_eq_ok_iff.mpr ⟨ss, hread, htree⟩

/-- A segment without subscripts is spelled by its name. -/
theorem Spells.eq_of_plain {q : QuoteStyle} {ss : List Segment} {path : List Char}
    (h : Spells ss path) (hplain : ∀ s ∈ ss, s.indices = []) :
    path = List.intercalate ['.'] (ss.map (Segment.text q)) := by
  obtain ⟨texts, hspells, rfl⟩ := h
  congr 1
  induction hspells with
  | nil => rfl
  | @cons s t ss texts hs _ ih =>
    obtain ⟨tail, rfl, htail⟩ := hs
    rw [List.map_cons, Segment.text, hplain s (.head _), ih fun u hu => hplain u (.tail _ hu)]
    rw [hplain s (.head _)] at htail
    cases htail
    rfl

/-- The tree of a module prints as the path that it was read from. -/
theorem text_of_moduleExpr {path : String} {e : Expr} (h : moduleExpr path = .ok e)
    (q : QuoteStyle) : e.text q = .ok path.toList := by
  obtain ⟨ss, hread, hplain, htree⟩ := moduleExpr_eq_ok_iff.mp h
  obtain ⟨⟨-, hvalid⟩, hspells⟩ := segments_eq_ok_iff.mp hread
  rw [hspells.eq_of_plain hplain]
  exact text_toExpr? (fun s hs => (hvalid s hs).named) htree

theorem moduleExpr_injective {path path' : String} {e : Expr} (h : moduleExpr path = .ok e)
    (h' : moduleExpr path' = .ok e) : path = path' := by
  have htext := text_of_moduleExpr h .double
  rw [text_of_moduleExpr h' .double] at htext
  exact String.toList_injective (Except.ok.inj htext).symm

end Path

end ScriptTree
