import ScriptTree.Draft
import ScriptTree.Proofs.Path.Spine
import ScriptTree.Proofs.Print.Chain

/-!
# What an attribute prints as

An attribute keeps its path, and each mapping that is merged into it becomes the right operand of a
chain that begins with the path's tree. The printer writes the operands of such a chain from left to
right, so that the code of an attribute is the canonical text of its path and then the code of every
mapping, with bars between them. A mapping that has no code leaves the attribute without code.
-/
namespace ScriptTree

open Outcome (bind_eq_ok_iff pure_eq_ok_iff mapError_eq_ok_iff)

namespace Draft.Attribute

/-- The attribute after mappings were merged into it, one after the other. -/
def mergeAll (a : Attribute) (ms : List (List (String × Value))) : Attribute := ms.foldl merge a

/-- The tree of a mapping that is made of entries. -/
def defaults (entries : List (String × Value)) : Expr := (Mapping.ofEntries entries).toExpr

theorem mergeAll_eq (a : Attribute) (ms : List (List (String × Value))) :
    a.mergeAll ms = ⟨a.path, (ms.map defaults).foldl .bitOr a.expr⟩ := by
  induction ms generalizing a with
  | nil => rfl
  | cons m ms ih =>
    rw [mergeAll, List.foldl_cons, ← mergeAll, ih]
    rfl

theorem ofPath_eq_ok_iff {path : String} {a : Attribute} :
    ofPath path = .ok a ↔ ∃ e, Path.attributeExpr path = .ok e ∧ ⟨path, e⟩ = a := by
  rw [ofPath]
  simp only [bind_eq_ok_iff, pure_eq_ok_iff]

theorem exists_ofPath_iff {path : String} :
    (∃ a, ofPath path = .ok a) ↔ ∃ ss, Path.read path = .ok ss ∧ 2 ≤ ss.length := by
  constructor
  · intro h
    obtain ⟨a, h⟩ := h
    obtain ⟨e, he, -⟩ := ofPath_eq_ok_iff.mp h
    obtain ⟨ss, hread, hlength, -⟩ := Path.attributeExpr_eq_ok_iff.mp he
    exact ⟨ss, mapError_eq_ok_iff.mpr hread, hlength⟩
  · intro h
    obtain ⟨ss, hread, hlength⟩ := h
    have hne : ss ≠ [] := List.ne_nil_of_length_pos (by omega)
    obtain ⟨e, he⟩ := Path.exists_toExpr? hne
    have hattr := Path.attributeExpr_eq_ok_iff.mpr ⟨ss, mapError_eq_ok_iff.mp hread, hlength, he⟩
    exact ⟨_, ofPath_eq_ok_iff.mpr ⟨e, hattr, rfl⟩⟩

/-- The canonical text of a path. -/
def pathCode (q : QuoteStyle) (ss : List Path.Segment) : String :=
  String.ofList (List.intercalate ['.'] (ss.map (Path.Segment.text q)))

/-- The code of an attribute is that of its path and, after bars, that of the mappings. -/
theorem codeWith_mergeAll {path : String} {a : Attribute} {ss : List Path.Segment}
    (h : ofPath path = .ok a) (hread : Path.read path = .ok ss)
    (ms : List (List (String × Value))) (o : PrintOptions) :
    (Draft.attr (a.mergeAll ms)).codeWith o = do
      let codes ← ms.mapM fun m => (Draft.mapping (.ofEntries m)).codeWith o
      return " | ".intercalate (pathCode o.quote ss :: codes) := by
  obtain ⟨e, he, rfl⟩ := ofPath_eq_ok_iff.mp h
  obtain ⟨ss', hread', -, htree⟩ := Path.attributeExpr_eq_ok_iff.mp he
  cases (mapError_eq_ok_iff.mp hread).symm.trans hread'
  obtain ⟨-, hvalid⟩ := Path.valid_of_read hread
  have hpath : (Node.expr e).print o = .ok (pathCode o.quote ss) :=
    Node.print_expr_eq_ok_iff.mpr
      ⟨_, Path.text_toExpr? (fun s hs => (hvalid s hs).named) htree, rfl⟩
  have hspine := (Path.spine_of_expr (Path.expr_of_attributeExpr he)).normalized
  have hcode : (Draft.attr (mergeAll ⟨path, e⟩ ms)).codeWith o =
      (Node.expr ((ms.map defaults).foldl .bitOr e)).normalized.print o := by
    rw [mergeAll_eq]
    rfl
  rw [hcode, Node.normalized_foldl_bitOr hspine, Node.print_foldl_bitOr, hpath, List.mapM_map]
  rfl

/-- A path is an attribute if it has two segments or more. The attribute has the tree that the path
has as a callee and as a module, and however many mappings are merged into it, it keeps its path, its
tree is the chain of the path's tree and the trees of the mappings, and its code is put together in
the same order. -/
theorem ofPath_merged (path : String) :
    ((∃ a, ofPath path = .ok a) ↔ ∃ ss, Path.read path = .ok ss ∧ 2 ≤ ss.length) ∧
    ∀ a ss, ofPath path = .ok a → Path.read path = .ok ss →
      Path.expr path = .ok a.toExpr ∧
      (∀ e, Path.moduleExpr path = .ok e → e = a.toExpr) ∧
      (∀ ms, (a.mergeAll ms).path = path ∧
        (a.mergeAll ms).toExpr = (ms.map defaults).foldl .bitOr a.toExpr) ∧
      (∀ ms o, (Draft.attr (a.mergeAll ms)).codeWith o = do
        let codes ← ms.mapM fun m => (Draft.mapping (.ofEntries m)).codeWith o
        return " | ".intercalate (pathCode o.quote ss :: codes)) ∧
      ((∀ s ∈ ss, s.indices = []) → ∀ o, (Draft.attr a).codeWith o = .ok path) := by
  refine ⟨exists_ofPath_iff, fun a ss h hread => ?_⟩
  have hcode := codeWith_mergeAll h hread
  obtain ⟨e, he, rfl⟩ := ofPath_eq_ok_iff.mp h
  have hexpr := Path.expr_of_attributeExpr he
  refine ⟨hexpr, fun e' he' => ?_, fun ms => ?_, hcode, fun hplain o => ?_⟩
  · exact Except.ok.inj ((Path.expr_of_moduleExpr he').symm.trans hexpr)
  · rw [mergeAll_eq]
    exact ⟨rfl, rfl⟩
  · obtain ⟨-, hspells⟩ := Path.segments_eq_ok_iff.mp (mapError_eq_ok_iff.mp hread)
    have hpath : pathCode o.quote ss = path := by
      rw [pathCode, ← hspells.eq_of_plain hplain, String.ofList_toList]
    have hempty := hcode [] o
    rwa [hpath, List.mapM_nil, pure_bind, String.intercalate_singleton] at hempty

theorem ofPath_merged_subscripted :
    ofPath "data.f[ 007 ][\"x.y\"]" = .ok ⟨"data.f[ 007 ][\"x.y\"]",
        .subscript (.subscript (.attr (.ofName "data") ⟨"f"⟩) (.int 7)) (.string "x.y")⟩ ∧
      Path.read "data.f[ 007 ][\"x.y\"]" = .ok [⟨"data", []⟩, ⟨"f", ["007", "\"x.y\""]⟩] ∧
      ∃ a, ofPath "data.f[ 007 ][\"x.y\"]" = .ok a ∧
        (Draft.attr (a.mergeAll [[("a", .int 1)], []])).codeWith { quote := .single } =
          .ok "data.f[7]['x.y'] | \x7b'a': 1\x7d | \x7b\x7d" ∧
      ∃ b, ofPath "conf.values" = .ok b ∧ Path.moduleExpr "conf.values" = .ok b.toExpr ∧
        (Draft.attr b).codeWith {} = .ok "conf.values" := by
  have hpath : ofPath "data.f[ 007 ][\"x.y\"]" = .ok ⟨"data.f[ 007 ][\"x.y\"]",
      .subscript (.subscript (.attr (.ofName "data") ⟨"f"⟩) (.int 7)) (.string "x.y")⟩ := by
    decide +kernel
  have hread : Path.read "data.f[ 007 ][\"x.y\"]" =
      .ok [⟨"data", []⟩, ⟨"f", ["007", "\"x.y\""]⟩] := by
    decide +kernel
  have hplain : ofPath "conf.values" = .ok ⟨"conf.values", .attr (.ofName "conf") ⟨"values"⟩⟩ := by
    decide +kernel
  have hplainRead : Path.read "conf.values" = .ok [⟨"conf", []⟩, ⟨"values", []⟩] := by
    decide +kernel
  have hmodule : Path.moduleExpr "conf.values" = .ok (.attr (.ofName "conf") ⟨"values"⟩) := by
    decide +kernel
  obtain ⟨-, -, -, hcode, -⟩ := (ofPath_merged _).2 _ _ hpath hread
  obtain ⟨-, hsame, -, -, hverbatim⟩ := (ofPath_merged _).2 _ _ hplain hplainRead
  refine ⟨hpath, hread, _, hpath, (hcode _ _).trans ?_, _, hplain, ?_, hverbatim ?_ _⟩
  · decide +kernel
  · rw [← hsame _ hmodule]
    exact hmodule
  · decide +kernel

end Draft.Attribute

end ScriptTree
