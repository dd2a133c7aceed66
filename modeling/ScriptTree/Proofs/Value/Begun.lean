import ScriptTree.Draft
import ScriptTree.Proofs.Draft.Built

/-!
# Values that are begun as drafts

A sequence or a mapping can be handed over as a value, which is turned into a tree in the end, or
filled as a draft, which turns each value into a tree as it is put in. Both ways lead to the same
tree. So a mapping inside a value can be begun as a draft wherever it stands among sequences and
mappings, and any number of them, without a difference in the tree or its code.
-/
namespace ScriptTree

namespace Draft

/-- The mapping with entries put in one after the other. -/
def Mapping.addAll (m : Mapping) (es : List (String × Value)) : Mapping :=
  es.foldl (fun m e => m.add e.1 e.2) m

theorem Mapping.addAll_ofEntries (as bs : List (String × Value)) :
    (ofEntries as).addAll bs = ofEntries (as ++ bs) := by
  rw [addAll, ofEntries, ofEntries, List.foldl_append]

theorem Mapping.size_ofEntries (es : List (String × Value)) : (ofEntries es).size = es.length := by
  rw [size, entries_ofEntries, List.length_map]

/-- A sequence value and a sequence draft with the same values have the same tree. -/
theorem Sequence.toExpr_ofValues (vs : List Value) :
    (Sequence.ofValues vs).toExpr = (Value.seq vs).resolve := by
  rw [toExpr, elements_ofValues, Value.resolve, Value.resolveAll_eq_map]

end Draft

namespace Value

/-- The second value is the first one with any of its mappings begun as drafts. The entries of a
draft may hold what was begun before them. -/
inductive BegunAs : Value → Value → Prop
  | same (v : Value) : BegunAs v v
  | seq {vs vs' : List Value} (h : List.Forall₂ BegunAs vs vs') : BegunAs (.seq vs) (.seq vs')
  | map {es es' : List (String × Value)} (hkeys : es.map Prod.fst = es'.map Prod.fst)
      (h : List.Forall₂ BegunAs (es.map Prod.snd) (es'.map Prod.snd)) : BegunAs (.map es) (.map es')
  | draft {v : Value} {es : List (String × Value)} (h : BegunAs v (.map es)) :
      BegunAs v (.dict (.ofEntries es))

@[elab_as_elim]
theorem BegunAs.induct {motive : Value → Value → Prop}
    (same : ∀ v, motive v v)
    (seq : ∀ vs vs', List.Forall₂ motive vs vs' → motive (.seq vs) (.seq vs'))
    (map : ∀ es es' : List (String × Value), es.map Prod.fst = es'.map Prod.fst →
      List.Forall₂ motive (es.map Prod.snd) (es'.map Prod.snd) → motive (.map es) (.map es'))
    (draft : ∀ v es, motive v (.map es) → motive v (.dict (.ofEntries es)))
    {v v' : Value} (h : BegunAs v v') : motive v v' :=
  @BegunAs.rec (fun v v' _ => motive v v') (fun vs vs' _ => List.Forall₂ motive vs vs')
    same (fun _ hs => seq _ _ hs) (fun hkeys _ hs => map _ _ hkeys hs) (fun _ h => draft _ _ h)
    .nil (fun _ _ h hs => .cons h hs) v v' h

theorem map_resolve_eq {vs vs' : List Value}
    (h : List.Forall₂ (fun v v' => v'.resolve = v.resolve) vs vs') :
    vs'.map resolve = vs.map resolve := by
  induction h with
  | nil => rfl
  | cons h _ ih => rw [List.map_cons, List.map_cons, h, ih]

/-- The entries of a tree are settled by the keys and by the trees of the values. -/
theorem resolveEntries_eq_zip (es : List (String × Value)) :
    resolveEntries es =
      ((es.map Prod.fst).zip ((es.map Prod.snd).map resolve)).map fun x => ⟨.string x.1, x.2⟩ := by
  rw [resolveEntries_eq_map, List.map_map, List.zip_map', List.map_map]
  rfl

/-- Whatever is begun as a draft, the tree is the same. -/
theorem BegunAs.resolve_eq {v v' : Value} (h : BegunAs v v') : v'.resolve = v.resolve := by
  refine h.induct (fun v => rfl) (fun vs vs' ih => ?_) (fun es es' hkeys ih => ?_)
    (fun v es ih => ?_)
  · rw [resolve, resolve, resolveAll_eq_map, resolveAll_eq_map, map_resolve_eq ih]
  · rw [resolve, resolve, resolveEntries_eq_zip, resolveEntries_eq_zip, hkeys, map_resolve_eq ih]
  · rw [resolve, Draft.Mapping.toExpr_ofEntries, ih]

/-- Sequences and mappings have the same trees as values and as drafts, a mapping draft keeps every
entry and can be filled in any number of parts, and a value in which mappings are begun as drafts has
the tree and the code of the value in which they are not. -/
theorem resolve_begun :
    (∀ es : List (String × Value),
      (Draft.Mapping.ofEntries es).toExpr = (Value.map es).resolve ∧
      (Draft.Mapping.ofEntries es).size = es.length ∧
      Draft.Mapping.empty.addAll es = .ofEntries es ∧
      ∀ as bs, as ++ bs = es → (Draft.Mapping.ofEntries as).addAll bs = .ofEntries es) ∧
    (∀ vs : List Value, (Draft.Sequence.ofValues vs).toExpr = (Value.seq vs).resolve) ∧
    ∀ v v', BegunAs v v' → v'.resolve = v.resolve ∧
      (Draft.expr v'.resolve).code = (Draft.expr v.resolve).code ∧
      ∀ o, (Draft.expr v'.resolve).codeWith o = (Draft.expr v.resolve).codeWith o := by
  refine ⟨fun es => ⟨Draft.Mapping.toExpr_ofEntries es, Draft.Mapping.size_ofEntries es, rfl, ?_⟩,
    Draft.Sequence.toExpr_ofValues, fun v v' h => ?_⟩
  · intro as bs hes
    rw [Draft.Mapping.addAll_ofEntries, hes]
  · rw [h.resolve_eq]
    exact ⟨rfl, rfl, fun o => rfl⟩

/-- Mappings in a sequence and in a mapping, with a key that repeats. -/
def nestedValue : Value :=
  .seq [.map [("a", .map [("b", .int 1)]), ("a", .map [])], .map []]

/-- The first mapping and the one at its first key are begun as drafts, the others are not. -/
def nestedDraft : Value :=
  .seq [.dict (.ofEntries [("a", .dict (.ofEntries [("b", .int 1)])), ("a", .map [])]), .map []]

theorem resolve_begun_nested :
    BegunAs nestedValue nestedDraft ∧ nestedDraft.resolve = nestedValue.resolve ∧
      (Draft.expr nestedDraft.resolve).code = (Draft.expr nestedValue.resolve).code := by
  have hinner : BegunAs (.map [("b", .int 1)]) (.dict (.ofEntries [("b", .int 1)])) :=
    .draft (.same _)
  have houter : BegunAs (.map [("a", .map [("b", .int 1)]), ("a", .map [])])
      (.dict (.ofEntries [("a", .dict (.ofEntries [("b", .int 1)])), ("a", .map [])])) :=
    .draft (.map rfl (.cons hinner (.cons (.same _) .nil)))
  have hbegun : BegunAs nestedValue nestedDraft := .seq (.cons houter (.cons (.same _) .nil))
  obtain ⟨-, -, hsame⟩ := resolve_begun
  obtain ⟨htree, hcode, -⟩ := hsame _ _ hbegun
  exact ⟨hbegun, htree, hcode⟩

example : (Draft.expr nestedDraft.resolve).code =
    .ok "[\x7b\"a\": \x7b\"b\": 1\x7d, \"a\": \x7b\x7d\x7d, \x7b\x7d]\n" := by
  rfl

end Value

end ScriptTree
