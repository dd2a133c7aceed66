import ScriptTree.Draft
import ScriptTree.Proofs.Draft.Built
import ScriptTree.Proofs.Outcome
import ScriptTree.Proofs.Print.Chain

/-!
# The order of a union of types

A union keeps its tokens in the order in which they were given, and so do its tree and its code. The
tree nests to the right and can be put together from either end. The printer writes no brackets, so
that a tree nested to the left has the same code. Only an empty text in a token leaves a union
without code.
-/
namespace ScriptTree

open Outcome (mapM_eq_ok_iff)

/-! ## Tokens -/

section Tokens

variable {o : PrintOptions}

theorem Node.print_ofName {s : String} (h : s ≠ "") : (Node.expr (.ofName s)).print o = .ok s := by
  have htext : (Expr.ofName s).text o.quote = .ok s.toList := if_neg h
  rw [print, text, htext]
  exact congrArg Except.ok String.ofList_toList

theorem Node.print_subscript (v i : Expr) :
    (Node.expr (.subscript v i)).print o = do
      let value ← (Node.expr v).print o
      let index ← (Node.expr i).print o
      return value ++ "[" ++ index ++ "]" := by
  simp only [Node.print, Node.text, Expr.text]
  cases v.text o.quote with
  | error f => rfl
  | ok tv =>
    cases i.text o.quote with
    | error f => rfl
    | ok ti =>
      refine congrArg Except.ok ?_
      rw [← String.toList_inj]
      simp

namespace Draft

/-- The text that a token is printed as. -/
def TypeToken.text : TypeToken → String
  | .name text => text
  | .list (some inner) => "list[" ++ inner ++ "]"
  | .list none => "list"

theorem TypeToken.print_toExpr {t : TypeToken} (h : ∀ s ∈ t.texts, s ≠ "") :
    (Node.expr t.toExpr).print o = .ok t.text := by
  cases t with
  | name text => exact Node.print_ofName (h text (.head _))
  | list inner =>
    cases inner with
    | none => exact Node.print_ofName (by decide)
    | some inner =>
      rw [toExpr, Node.print_subscript, Node.print_ofName (by decide),
        Node.print_ofName (h inner (.head _))]
      rfl

theorem TypeToken.normalized_toExpr (t : TypeToken) :
    (Node.expr t.toExpr).normalized = .expr t.toExpr := by
  cases t with
  | name text => rfl
  | list inner => cases inner <;> rfl

theorem TypeToken.mapM_print {ts : List TypeToken} (h : ∀ t ∈ ts, ∀ s ∈ t.texts, s ≠ "") :
    (ts.map TypeToken.toExpr).mapM (fun e => (Node.expr e).print o) = .ok (ts.map TypeToken.text) := by
  rw [mapM_eq_ok_iff, List.forall₂_map_left_iff, List.forall₂_map_right_iff, List.forall₂_same]
  exact fun t ht => TypeToken.print_toExpr (h t ht)

end Draft

end Tokens

namespace Draft.TypeUnion

/-! ## Unions -/

/-- The union of a first token and of tokens that are added one after the other. -/
def ofTokens (t : TypeToken) (ts : List TypeToken) : TypeUnion := ts.foldl or (ofToken t)

theorem ofTokens_eq (t : TypeToken) (ts : List TypeToken) : ofTokens t ts = ⟨t, ts⟩ := by
  have hfold (u : TypeUnion) : ts.foldl or u = ⟨u.first, u.rest ++ ts⟩ := by
    induction ts generalizing u with
    | nil => rw [List.append_nil]; rfl
    | cons t ts ih => rw [List.foldl_cons, ih, or, List.append_assoc]; rfl
  exact hfold (ofToken t)

/-- A right-nested union, told by its last token and those before it. -/
theorem unionExpr_eq_foldr (t : TypeToken) (ts : List TypeToken) :
    ∃ before last, before ++ [last] = t :: ts ∧
      unionExpr t ts = (before.map TypeToken.toExpr).foldr .bitOr last.toExpr := by
  induction ts generalizing t with
  | nil => exact ⟨[], t, rfl, rfl⟩
  | cons u us ih =>
    obtain ⟨before, last, htokens, htree⟩ := ih u
    refine ⟨t :: before, last, congrArg (t :: ·) htokens, ?_⟩
    rw [unionExpr, htree]
    rfl

/-- The tree of a union as it is put together from the back: the last token, and then each one before
it with what is there already on its right. -/
def foldedBack (u : TypeUnion) : Expr :=
  match u.tokens.reverse with
  | [] => u.first.toExpr
  | last :: before => before.foldl (fun e t => .bitOr t.toExpr e) last.toExpr

theorem foldedBack_eq (u : TypeUnion) : u.foldedBack = u.toExpr := by
  obtain ⟨before, last, htokens, htree⟩ := unionExpr_eq_foldr u.first u.rest
  have hreverse : u.tokens.reverse = last :: before.reverse := by
    rw [tokens, ← htokens, List.reverse_concat]
  rw [toExpr, htree, List.foldr_map, foldedBack, hreverse]
  exact List.foldl_reverse

section Code

variable {t : TypeToken} {ts : List TypeToken} (h : ∀ u ∈ t :: ts, ∀ s ∈ u.texts, s ≠ "")
include h

/-- The code of a union is that of its tokens in order. -/
theorem codeWith_eq (o : PrintOptions) :
    (Draft.typeUnion ⟨t, ts⟩).codeWith o =
      .ok (" | ".intercalate ((t :: ts).map TypeToken.text)) := by
  obtain ⟨before, last, htokens, htree⟩ := unionExpr_eq_foldr t ts
  rw [← htokens] at h ⊢
  obtain ⟨hbefore, hlast⟩ := List.forall_mem_append.mp h
  have hnode : (Draft.typeUnion ⟨t, ts⟩).toNode =
      .expr ((before.map TypeToken.toExpr).foldr .bitOr last.toExpr) :=
    congrArg Node.expr htree
  rw [codeWith, hnode, Node.renderWith, Node.normalized_foldr_bitOr last.normalized_toExpr,
    Node.print_foldr_bitOr, TypeToken.mapM_print hbefore,
    TypeToken.print_toExpr (List.forall_mem_singleton.mp hlast), List.map_append]
  rfl

/-- The tree that nests to the left has the same code. -/
theorem codeWith_leftNested (o : PrintOptions) :
    (Draft.expr ((ts.map TypeToken.toExpr).foldl .bitOr t.toExpr)).codeWith o =
      .ok (" | ".intercalate ((t :: ts).map TypeToken.text)) := by
  obtain ⟨hfirst, hrest⟩ := List.forall_mem_cons.mp h
  rw [codeWith, toNode, Node.renderWith, Node.normalized_foldl_bitOr t.normalized_toExpr,
    Node.print_foldl_bitOr, TypeToken.mapM_print hrest, TypeToken.print_toExpr hfirst]
  rfl

end Code

/-- Tokens that are added to a first one stand in the union, in its tree and in its code in the order
in which they were added, and the code does not tell the tree from one that nests to the left. -/
theorem ofTokens_in_order (t : TypeToken) (ts : List TypeToken) :
    (ofTokens t ts).tokens = t :: ts ∧
    (∃ before last, before ++ [last] = t :: ts ∧
      (ofTokens t ts).toExpr = (before.map TypeToken.toExpr).foldr .bitOr last.toExpr) ∧
    (ofTokens t ts).foldedBack = (ofTokens t ts).toExpr ∧
    ((∀ u ∈ t :: ts, ∀ s ∈ u.texts, s ≠ "") →
      (Draft.typeUnion (ofTokens t ts)).code =
        .ok (" | ".intercalate ((t :: ts).map TypeToken.text)) ∧
      ∀ o, (Draft.typeUnion (ofTokens t ts)).codeWith o =
          .ok (" | ".intercalate ((t :: ts).map TypeToken.text)) ∧
        (Draft.expr ((ts.map TypeToken.toExpr).foldl .bitOr t.toExpr)).codeWith o =
          (Draft.typeUnion (ofTokens t ts)).codeWith o) := by
  rw [ofTokens_eq]
  refine ⟨rfl, unionExpr_eq_foldr t ts, foldedBack_eq _, fun h => ⟨codeWith_eq h {}, fun o => ?_⟩⟩
  exact ⟨codeWith_eq h o, (codeWith_leftNested h o).trans (codeWith_eq h o).symm⟩

theorem ofTokens_in_order_three :
    (∀ u ∈ [TypeToken.name "int", .list (some "str"), .list none], ∀ s ∈ u.texts, s ≠ "") ∧
      (ofTokens (.name "int") [.list (some "str"), .list none]).tokens =
        [.name "int", .list (some "str"), .list none] ∧
      (Draft.typeUnion (ofTokens (.name "int") [.list (some "str"), .list none])).code =
        .ok "int | list[str] | list" ∧
      (Draft.expr (.bitOr (.bitOr (.ofName "int") (.subscript (.ofName "list") (.ofName "str")))
        (.ofName "list"))).codeWith {} = .ok "int | list[str] | list" := by
  have htexts : ∀ u ∈ [TypeToken.name "int", .list (some "str"), .list none],
      ∀ s ∈ u.texts, s ≠ "" := by
    decide
  obtain ⟨htokens, -, -, hall⟩ :=
    ofTokens_in_order (.name "int") [.list (some "str"), .list none]
  obtain ⟨hcode, hwith⟩ := hall htexts
  obtain ⟨hright, hleft⟩ := hwith {}
  exact ⟨htexts, htokens, hcode, hleft.trans hright⟩

end Draft.TypeUnion

end ScriptTree
