import ScriptTree.Draft
import ScriptTree.Proofs.Keyed
import ScriptTree.Proofs.Path.Spine
import ScriptTree.Value.OfJson

/-!
# Built values and drafts

A value or a draft is built if a constructor that succeeds and steps that succeed lead to it, and
the values that these take are built themselves. Paths, keys and literals are whatever a constructor
accepts. Bare names, keywords, the texts of types and tree fragments are accepted unchecked; a supply
says which of them are given.

What holds of each kind of tree that a constructor or a step makes holds of every sub-expression of
a built value. Which property that is, and what it asks of the supply, is left open here.
-/
namespace ScriptTree

namespace Draft

/-- What is given to the constructors and steps that check nothing. -/
structure Supply where
  name : String → Prop
  keyword : String → Prop
  type : String → Prop
  fragment : Expr → Prop

/-- The values that a step of a call takes. -/
def Call.Step.values : Call.Step → List Value
  | .arg value => [value]
  | .args values => values
  | .kwarg _ value => [value]
  | .kwargs values => values.map Prod.snd

/-- The keywords that a step of a call sets. -/
def Call.Step.keywords : Call.Step → List String
  | .arg _ => []
  | .args _ => []
  | .kwarg name _ => [name]
  | .kwargs values => values.map Prod.fst

end Draft

open Draft (Supply)

mutual

inductive Value.Built (S : Supply) : Value → Prop
  | string (s : String) : Value.Built S (.string s)
  | int (n : Int64) : Value.Built S (.int n)
  | bool (b : Bool) : Value.Built S (.bool b)
  | map {entries : List (String × Value)} (h : ∀ e ∈ entries, Value.Built S e.2) :
      Value.Built S (.map entries)
  | seq {items : List Value} (h : ∀ v ∈ items, Value.Built S v) : Value.Built S (.seq items)
  | call {c : Draft.Call} (h : Draft.Call.Built S c) : Value.Built S (.call c)
  | dict {m : Draft.Mapping} (h : Draft.Mapping.Built S m) : Value.Built S (.dict m)
  | attr {a : Draft.Attribute} (h : Draft.Attribute.Built S a) : Value.Built S (.attr a)
  | name {i : Ident} (h : S.name i.name) : Value.Built S (.name i)
  | raw {e : Expr} (h : S.fragment e) : Value.Built S (.raw e)

inductive Draft.Call.Built (S : Supply) : Draft.Call → Prop
  | ofCallee {callee : String} {c : Draft.Call} (h : Draft.Call.ofCallee callee = .ok c) :
      Draft.Call.Built S c
  | step {c : Draft.Call} {t : Draft.Call.Step} (hc : Draft.Call.Built S c)
      (hvalues : ∀ v ∈ t.values, Value.Built S v) (hkeywords : ∀ k ∈ t.keywords, S.keyword k) :
      Draft.Call.Built S (c.step t)

inductive Draft.Mapping.Built (S : Supply) : Draft.Mapping → Prop
  | empty : Draft.Mapping.Built S .empty
  | ofEntries {entries : List (String × Value)} (h : ∀ e ∈ entries, Value.Built S e.2) :
      Draft.Mapping.Built S (.ofEntries entries)
  | add {m : Draft.Mapping} {v : Value} (hm : Draft.Mapping.Built S m) (key : String)
      (hv : Value.Built S v) : Draft.Mapping.Built S (m.add key v)

inductive Draft.Attribute.Built (S : Supply) : Draft.Attribute → Prop
  | ofPath {path : String} {a : Draft.Attribute} (h : Draft.Attribute.ofPath path = .ok a) :
      Draft.Attribute.Built S a
  | merge {a : Draft.Attribute} {defaults : List (String × Value)} (ha : Draft.Attribute.Built S a)
      (h : ∀ e ∈ defaults, Value.Built S e.2) : Draft.Attribute.Built S (a.merge defaults)

end

/-! ## Drafts that no value holds -/

namespace Draft

/-- The texts that a type token carries. -/
def TypeToken.texts : TypeToken → List String
  | .name text => [text]
  | .list inner => inner.toList

/-- The values that a step of a class takes. -/
def Class.Step.values : Class.Step → List Value
  | .base _ => []
  | .field _ value => [value]
  | .typedField _ _ => []
  | .declare _ value _ => value.toList

/-- The types that a step of a class takes. -/
def Class.Step.types : Class.Step → List TypeUnion
  | .base _ => []
  | .field _ _ => []
  | .typedField _ type => [type]
  | .declare _ _ type => type.toList

inductive Sequence.Built (S : Supply) : Sequence → Prop
  | empty : Sequence.Built S .empty
  | ofValues {vs : List Value} (h : ∀ v ∈ vs, v.Built S) : Sequence.Built S (.ofValues vs)
  | add {s : Sequence} {v : Value} (hs : Sequence.Built S s) (hv : v.Built S) :
      Sequence.Built S (s.add v)

inductive TypeUnion.Built (S : Supply) : TypeUnion → Prop
  | ofToken {t : TypeToken} (h : ∀ s ∈ t.texts, S.type s) : TypeUnion.Built S (.ofToken t)
  | or {u : TypeUnion} {t : TypeToken} (hu : TypeUnion.Built S u) (h : ∀ s ∈ t.texts, S.type s) :
      TypeUnion.Built S (u.or t)

inductive Import.Built : Import → Prop
  | ofPath {path symbol : String} {i : Import} (h : Import.ofPath path symbol = .ok i) :
      Import.Built i

inductive Assignment.Built (S : Supply) : Assignment → Prop
  | ofValue {target : String} {v : Value} {a : Assignment} (hv : v.Built S)
      (h : Assignment.ofValue target v = .ok a) : Assignment.Built S a

inductive Class.Built (S : Supply) : Class → Prop
  | ofName {name : String} {c : Class} (h : Class.ofName name = .ok c) : Class.Built S c
  | step {c c' : Class} {t : Class.Step} (hc : Class.Built S c)
      (hvalues : ∀ v ∈ t.values, v.Built S) (htypes : ∀ u ∈ t.types, u.Built S)
      (h : c.step t = .ok c') : Class.Built S c'

/-- A statement that can be added to a module. -/
inductive Module.Addable (S : Supply) : Stmt → Prop
  | importFrom {i : Import} (h : i.Built) : Module.Addable S i.toStmt
  | assignment {a : Assignment} (h : a.Built S) : Module.Addable S a.toStmt
  | classDef {c : Class} (h : c.Built S) : Module.Addable S c.toStmt

inductive Module.Built (S : Supply) : Module → Prop
  | empty : Module.Built S .empty
  | add {m : Module} {s : Stmt} (hm : Module.Built S m) (hs : Module.Addable S s) :
      Module.Built S (m.add s)
  | addImport {m : Module} {i : Import} (hm : Module.Built S m) (hi : i.Built) :
      Module.Built S (m.addImport i)
  | requireImport {m m' : Module} {symbol path : String} (hm : Module.Built S m)
      (h : m.requireImport symbol path = .ok m') : Module.Built S m'

/-- A draft of any kind that has constructors of its own. -/
inductive Built (S : Supply) : Draft → Prop
  | attr {d : Attribute} (h : d.Built S) : Built S (.attr d)
  | sequence {d : Sequence} (h : d.Built S) : Built S (.sequence d)
  | mapping {d : Mapping} (h : d.Built S) : Built S (.mapping d)
  | call {d : Call} (h : d.Built S) : Built S (.call d)
  | typeUnion {d : TypeUnion} (h : d.Built S) : Built S (.typeUnion d)
  | importFrom {d : Import} (h : d.Built) : Built S (.importFrom d)
  | assignment {d : Assignment} (h : d.Built S) : Built S (.assignment d)
  | classDef {d : Class} (h : d.Built S) : Built S (.classDef d)
  | module {d : Module} (h : d.Built S) : Built S (.module d)

end Draft

/-! ## What each draft keeps -/

/-- What defaults are merged into: an earlier union, or a path with an attribute. -/
def Expr.Merges (e : Expr) : Prop := e.isUnion = true ∨ e.Spine ∧ e.hasAttr = true

namespace Draft

variable {S : Supply} {P : Expr → Prop}

/-- The state of a call between steps: its callee is a path, its arguments have a property
everywhere, and its keywords come from the supply and are different. -/
structure Call.Sound (S : Supply) (P : Expr → Prop) (c : Call) : Prop where
  func : c.func.Spine
  args : ∀ e ∈ c.args, e.Everywhere P
  kwargs : ∀ e ∈ c.kwargs, S.keyword e.1 ∧ e.2.Everywhere P
  nodup : (c.kwargs.map Prod.fst).Nodup

namespace Call

theorem sound_of_ofCallee {callee : String} {c : Call} (h : ofCallee callee = .ok c) :
    c.Sound S P := by
  obtain ⟨func, hfunc, hc⟩ := Outcome.bind_eq_ok_iff.mp h
  cases hc
  exact ⟨Path.spine_of_expr hfunc, List.forall_mem_nil _, List.forall_mem_nil _, List.nodup_nil⟩

theorem Sound.addArg {c : Call} (hc : c.Sound S P) {v : Value} (hv : v.resolve.Everywhere P) :
    (c.addArg v).Sound S P where
  func := hc.func
  args := List.forall_mem_append.mpr ⟨hc.args, List.forall_mem_singleton.mpr hv⟩
  kwargs := hc.kwargs
  nodup := hc.nodup

theorem Sound.setKwarg {c : Call} (hc : c.Sound S P) {name : String} {v : Value}
    (hname : S.keyword name) (hv : v.resolve.Everywhere P) : (c.setKwarg name v).Sound S P where
  func := hc.func
  args := hc.args
  kwargs := by
    intro e he
    rcases Keyed.mem_put he with rfl | hold
    · exact ⟨hname, hv⟩
    · exact hc.kwargs e hold
  nodup := Keyed.nodup_keys_put hc.nodup name v.resolve

theorem Sound.step {c : Call} (hc : c.Sound S P) (t : Step)
    (hvalues : ∀ v ∈ t.values, v.resolve.Everywhere P) (hkeywords : ∀ k ∈ t.keywords, S.keyword k) :
    (c.step t).Sound S P := by
  cases t with
  | arg v => exact hc.addArg (hvalues v (.head _))
  | args vs => exact List.foldlRecOn vs _ hc fun c hc v hv => hc.addArg (hvalues v hv)
  | kwarg name v => exact hc.setKwarg (hkeywords name (.head _)) (hvalues v (.head _))
  | kwargs es =>
    refine List.foldlRecOn es _ hc fun c hc e he => ?_
    have hkeyword := hkeywords e.1 (List.mem_map_of_mem he)
    exact hc.setKwarg hkeyword (hvalues e.2 (List.mem_map_of_mem he))

end Call

theorem Sequence.elements_ofValues (vs : List Value) :
    (Sequence.ofValues vs).elements = vs.map Value.resolve := by
  have hfold (s : Sequence) : (vs.foldl add s).elements = s.elements ++ vs.map Value.resolve := by
    induction vs generalizing s with
    | nil => exact (List.append_nil _).symm
    | cons v vs ih => rw [List.foldl_cons, ih, add, List.append_assoc, List.map_cons]; rfl
  exact hfold empty

theorem Mapping.entries_ofEntries (es : List (String × Value)) :
    (Mapping.ofEntries es).entries = es.map fun e => (e.1, e.2.resolve) := by
  have hfold (m : Mapping) : (es.foldl (fun m e => m.add e.1 e.2) m).entries =
      m.entries ++ es.map fun e => (e.1, e.2.resolve) := by
    induction es generalizing m with
    | nil => exact (List.append_nil _).symm
    | cons e es ih => rw [List.foldl_cons, ih, add, List.append_assoc, List.map_cons]; rfl
  exact hfold empty

/-- A mapping value and a mapping draft with the same entries have the same tree. -/
theorem Mapping.toExpr_ofEntries (es : List (String × Value)) :
    (Mapping.ofEntries es).toExpr = (Value.map es).resolve := by
  rw [toExpr, entries_ofEntries, List.map_map, Value.resolve, Value.resolveEntries_eq_map]
  rfl

/-! ## Everywhere in a built value -/

/-- A property of every tree that constructors and steps make from what has the property, given the
supply. -/
structure Supply.Covers (S : Supply) (P : Expr → Prop) : Prop where
  literal : ∀ l, P (.literal l)
  name : ∀ i : Ident, S.name i.name → P (.name i)
  fragment : ∀ e, S.fragment e → e.Everywhere P
  path : ∀ e : Expr, e.Spine → e.Everywhere P
  list : ∀ es, P (.list es)
  mapping : ∀ m : Mapping, P m.toExpr
  call : ∀ c : Call, c.Sound S P → P c.toExpr
  merge : ∀ (e : Expr) (m : Mapping), e.Merges → P (.bitOr e m.toExpr)

namespace Supply.Covers

variable (hP : S.Covers P)
include hP

theorem everywhere_list {es : List Expr} (h : ∀ e ∈ es, e.Everywhere P) :
    (Expr.list es).Everywhere P :=
  Expr.everywhere_list.mpr ⟨hP.list es, h⟩

theorem everywhere_mapping {m : Mapping} (h : ∀ e ∈ m.entries, e.2.Everywhere P) :
    m.toExpr.Everywhere P := by
  refine Expr.everywhere_dict.mpr ⟨hP.mapping m, List.forall_mem_map.mpr fun e he => ?_⟩
  exact ⟨Expr.everywhere_literal.mpr (hP.literal _), h e he⟩

theorem everywhere_entries {es : List (String × Value)}
    (h : ∀ e ∈ es, e.2.resolve.Everywhere P) : (Mapping.ofEntries es).toExpr.Everywhere P := by
  refine hP.everywhere_mapping ?_
  rw [Mapping.entries_ofEntries]
  exact List.forall_mem_map.mpr h

theorem everywhere_call {c : Call} (h : c.Sound S P) : c.toExpr.Everywhere P := by
  refine Expr.everywhere_call.mpr ⟨hP.call c h, hP.path _ h.func, List.forall_mem_append.mpr ?_⟩
  exact ⟨List.forall_mem_map.mpr h.args, List.forall_mem_map.mpr fun e he => (h.kwargs e he).2⟩

theorem everywhere_merge {a : Attribute} {defaults : List (String × Value)}
    (ha : a.expr.Everywhere P ∧ a.expr.Merges)
    (h : ∀ e ∈ defaults, e.2.resolve.Everywhere P) :
    (a.merge defaults).expr.Everywhere P ∧ (a.merge defaults).expr.Merges := by
  obtain ⟨hall, hmerges⟩ := ha
  refine ⟨Expr.everywhere_bitOr.mpr ?_, .inl rfl⟩
  exact ⟨hP.merge _ _ hmerges, hall, hP.everywhere_entries h⟩

end Supply.Covers

theorem Attribute.of_ofPath {path : String} {a : Attribute} (h : ofPath path = .ok a) :
    a.expr.Spine ∧ a.expr.hasAttr = true := by
  obtain ⟨e, he, ha⟩ := Outcome.bind_eq_ok_iff.mp h
  cases ha
  exact ⟨Path.spine_of_expr (Path.expr_of_attributeExpr he), Path.hasAttr_of_attributeExpr he⟩

end Draft

section Everywhere

variable {S : Supply} {P : Expr → Prop}

mutual

/-- What the supply covers holds everywhere in the tree of a built value. -/
theorem Value.Built.everywhere (hP : S.Covers P) :
    ∀ {v : Value}, v.Built S → v.resolve.Everywhere P
  | _, .string _ => Expr.everywhere_literal.mpr (hP.literal _)
  | _, .int _ => Expr.everywhere_literal.mpr (hP.literal _)
  | _, .bool _ => Expr.everywhere_literal.mpr (hP.literal _)
  | .map entries, .map h => by
    rw [← Draft.Mapping.toExpr_ofEntries]
    exact hP.everywhere_entries fun e he => (h e he).everywhere hP
  | .seq items, .seq h => by
    rw [Value.resolve, Value.resolveAll_eq_map]
    exact hP.everywhere_list (List.forall_mem_map.mpr fun v hv => (h v hv).everywhere hP)
  | _, .call h => hP.everywhere_call (h.sound hP)
  | _, .dict h => hP.everywhere_mapping (h.everywhere hP)
  | _, .attr h => (h.everywhere hP).1
  | _, .name h => Expr.everywhere_name.mpr (hP.name _ h)
  | _, .raw h => hP.fragment _ h

theorem Draft.Call.Built.sound (hP : S.Covers P) : ∀ {c : Draft.Call}, c.Built S → c.Sound S P
  | _, .ofCallee h => Draft.Call.sound_of_ofCallee h
  | _, .step hc hvalues hkeywords =>
    (hc.sound hP).step _ (fun v hv => (hvalues v hv).everywhere hP) hkeywords

theorem Draft.Mapping.Built.everywhere (hP : S.Covers P) :
    ∀ {m : Draft.Mapping}, m.Built S → ∀ e ∈ m.entries, e.2.Everywhere P
  | _, .empty => List.forall_mem_nil _
  | _, .ofEntries h => by
    rw [Draft.Mapping.entries_ofEntries]
    exact List.forall_mem_map.mpr fun e he => (h e he).everywhere hP
  | _, .add hm _ hv =>
    List.forall_mem_append.mpr
      ⟨hm.everywhere hP, List.forall_mem_singleton.mpr (hv.everywhere hP)⟩

theorem Draft.Attribute.Built.everywhere (hP : S.Covers P) :
    ∀ {a : Draft.Attribute}, a.Built S → a.expr.Everywhere P ∧ a.expr.Merges
  | _, .ofPath h => ⟨hP.path _ (Draft.Attribute.of_ofPath h).1, .inr (Draft.Attribute.of_ofPath h)⟩
  | _, .merge ha h => hP.everywhere_merge (ha.everywhere hP) fun e he => (h e he).everywhere hP

end

end Everywhere

/-! ## Values of collections and of JSON -/

namespace Value

variable {S : Supply}

theorem built_ofIndexed {entries : List (String × Value)} (h : ∀ e ∈ entries, e.2.Built S) :
    (ofIndexed entries).Built S :=
  .map (Keyed.forall_mem_ofList h)

theorem built_ofSorted {entries : List (String × Value)} (h : ∀ e ∈ entries, e.2.Built S) :
    (ofSorted entries).Built S :=
  .map (Keyed.forall_mem_sortedOfList h)

theorem built_of_ofNumber {n : JsonNumber} {v : Value} (h : ofNumber n = .ok v) : v.Built S := by
  cases n with
  | integer n =>
    rw [ofNumber] at h
    split at h
    · cases h
      exact .int _
    · cases h
  | float x => cases h

mutual

/-- A value that is read from JSON is built, and nothing is supplied for it. -/
theorem built_of_ofJson : ∀ {j : Json} {v : Value}, ofJson j = .ok v → v.Built S
  | .null, _, h => by cases h
  | .bool b, _, h => by
    cases h
    exact .bool b
  | .number n, _, h => built_of_ofNumber h
  | .string s, _, h => by
    cases h
    exact .string s
  | .array items, _, h => by
    obtain ⟨vs, hvs, hv⟩ := Outcome.bind_eq_ok_iff.mp h
    cases hv
    exact .seq (forall_built_of_ofItems hvs)
  | .object members, _, h => by
    obtain ⟨es, hes, hv⟩ := Outcome.bind_eq_ok_iff.mp h
    cases hv
    exact .map (forall_built_of_ofMembers hes)

theorem forall_built_of_ofItems :
    ∀ {js : List Json} {vs : List Value}, ofItems js = .ok vs → ∀ v ∈ vs, v.Built S
  | [], _, h => by
    cases h
    exact List.forall_mem_nil _
  | j :: js, _, h => by
    obtain ⟨v, rest, hj, hjs, hvs⟩ := Outcome.bind₂_eq_ok_iff.mp h
    cases hvs
    exact List.forall_mem_cons.mpr ⟨built_of_ofJson hj, forall_built_of_ofItems hjs⟩

theorem forall_built_of_ofMembers :
    ∀ {ms : List (String × Json)} {es : List (String × Value)}, ofMembers ms = .ok es →
      ∀ e ∈ es, e.2.Built S
  | [], _, h => by
    cases h
    exact List.forall_mem_nil _
  | (key, j) :: ms, _, h => by
    obtain ⟨v, rest, hj, hms, hes⟩ := Outcome.bind₂_eq_ok_iff.mp h
    cases hes
    exact List.forall_mem_cons.mpr ⟨built_of_ofJson hj, forall_built_of_ofMembers hms⟩

end

end Value

end ScriptTree
