import ScriptTree.Proofs.Draft.Built

/-!
# The shape of built trees

Without a tree fragment in it, a built value has a tree in which every part has one of a few shapes:
keys are string literals, attributes, subscripts and calls apply to paths, and the right side of a
union is a mapping that is merged into what stands on its left. So no attribute, subscript or call
applies to a bare union, and a printer without parentheses is enough for such trees. Nothing is said
about fragments, which may have any shape.
-/
namespace ScriptTree

open Draft (Supply)

namespace Expr

def isDict : Expr → Bool
  | .dict _ => true
  | _ => false

/-- The shape of one expression in the tree of a built value, apart from its parts. -/
def ShapedNode : Expr → Prop
  | .literal _ => True
  | .name _ => True
  | .attr v i => v.Spine ∧ i.InPath
  | .subscript v i => v.Spine ∧ i.IsIndex
  | .bitOr l r => l.Merges ∧ r.isDict = true
  | .list _ => True
  | .dict es => ∀ x ∈ es, ∃ s, x.key = .string s
  | .call f xs => f.Spine ∧ ∃ (positional : List Expr) (named : List (String × Expr)),
      xs = positional.map .positional ++ named.map (fun x => .named x.1 x.2) ∧
        (named.map Prod.fst).Nodup

/-- What an attribute, a subscript or a call of this shape applies to is not a bare union. -/
theorem ShapedNode.operand {s : Expr} (h : s.ShapedNode) : ∀ o ∈ s.operand?, o.isUnion = false := by
  have hspine {o : Expr} (ho : o.Spine) : o.isUnion = false := by
    cases ho with
    | name _ => rfl
    | attr _ _ => rfl
    | subscript _ _ => rfl
  intro o ho
  cases s with
  | attr v i =>
    cases ho
    exact hspine h.1
  | subscript v i =>
    cases ho
    exact hspine h.1
  | call f xs =>
    cases ho
    exact hspine h.1
  | _ => cases ho

end Expr

namespace Draft.Supply

/-- Anything may be given but tree fragments. -/
def withoutFragments : Supply where
  name := fun _ => True
  keyword := fun _ => True
  type := fun _ => True
  fragment := fun _ => False

theorem covers_shapedNode : withoutFragments.Covers Expr.ShapedNode where
  literal := fun _ => trivial
  name := fun _ _ => trivial
  fragment := fun _ h => h.elim
  path := by
    intro e he
    refine he.everywhere (fun _ _ => trivial) ?_ ?_ ?_
    · intro index hindex
      obtain ⟨n, rfl⟩ | ⟨s, rfl⟩ := hindex
      · trivial
      · trivial
    · exact fun _ _ hv hi => ⟨hv, hi⟩
    · exact fun _ _ hv hi => ⟨hv, hi⟩
  list := fun _ => trivial
  mapping := fun m => List.forall_mem_map.mpr fun e _ => ⟨e.1, rfl⟩
  call := fun c h => ⟨h.func, c.args, c.kwargs, rfl, h.nodup⟩
  merge := fun _ _ h => ⟨h, rfl⟩

end Draft.Supply

/-- Every part of the tree of a value that is built without fragments has its shape. -/
theorem Value.everywhere_shapedNode {v : Value} (h : v.Built .withoutFragments) :
    v.resolve.Everywhere Expr.ShapedNode :=
  h.everywhere Supply.covers_shapedNode

namespace Draft

/-- The attribute `settings.values[0]`. -/
def storedValue : Attribute :=
  ⟨"settings.values[0]", .subscript (.attr (.ofName "settings") ⟨"values"⟩) (.int 0)⟩

/-- A call without arguments whose callee is subscripted. -/
def handlerCall : Call := ⟨.subscript (.ofName "handlers") (.string "main"), [], []⟩

end Draft

/-- The value `handlers["main"](settings.values[0] | {"tries": [3, True]}, limit=2)`, whose keyword
was set to another value before. -/
def mergedArgument : Value :=
  .call (((Draft.handlerCall.step (.kwarg "limit" (.name ⟨"unset"⟩))).step
    (.arg (.attr (Draft.storedValue.merge [("tries", .seq [.int 3, .bool true])])))).step
      (.kwarg "limit" (.int 2)))

theorem everywhere_shapedNode_mergedArgument :
    mergedArgument.Built .withoutFragments ∧ mergedArgument.resolve.Everywhere Expr.ShapedNode := by
  have hpath : Draft.Attribute.ofPath "settings.values[0]" = .ok Draft.storedValue := by
    decide +kernel
  have hcallee : Draft.Call.ofCallee "handlers['main']" = .ok Draft.handlerCall := by
    decide +kernel
  have hdefaults : ∀ e ∈ [("tries", Value.seq [.int 3, .bool true])],
      e.2.Built .withoutFragments :=
    List.forall_mem_singleton.mpr
      (.seq (List.forall_mem_cons.mpr ⟨.int 3, List.forall_mem_singleton.mpr (.bool true)⟩))
  have hargument : (Value.attr (Draft.storedValue.merge
      [("tries", .seq [.int 3, .bool true])])).Built .withoutFragments :=
    .attr (.merge (.ofPath hpath) hdefaults)
  have hbuilt : mergedArgument.Built .withoutFragments := by
    refine .call (.step (.step (.step (.ofCallee hcallee) ?_ ?_) ?_ ?_) ?_ ?_)
    · exact List.forall_mem_singleton.mpr (.name trivial)
    · exact fun _ _ => trivial
    · exact List.forall_mem_singleton.mpr hargument
    · exact fun _ _ => trivial
    · exact List.forall_mem_singleton.mpr (.int 2)
    · exact fun _ _ => trivial
  exact ⟨hbuilt, Value.everywhere_shapedNode hbuilt⟩

end ScriptTree
