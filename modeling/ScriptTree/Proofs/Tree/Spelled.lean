import Mathlib.Data.List.Forall2
import ScriptTree.Proofs.Json.Readback
import ScriptTree.Tree.OfSnapshot

/-!
# Which values spell a tree

A relation between trees and JSON values that says what a tree may look like as a value: variants are
objects with one member, records are objects with their fields among other members or arrays of their
fields in order. It is stated without the reader. What the reader does with one record or one list is
then said in terms of it, for readers of the parts that are known to be right below a depth.
-/
namespace ScriptTree

namespace Json

/-- A field of a record: its name, the values that spell it, and whether it can be missing. -/
structure Field where
  name : String
  spelled : Json → Prop
  optional : Prop := False

/-- An object holds a field at any place among its members, or can do without it. Should a member be
named twice, the first counts. -/
def Field.HeldBy (f : Field) (members : List (String × Json)) : Prop :=
  (∃ before j after, members = before ++ (f.name, j) :: after ∧
      (∀ m ∈ before, m.1 ≠ f.name) ∧ f.spelled j) ∨
    f.optional ∧ ∀ m ∈ members, m.1 ≠ f.name

/-- A record is an object that holds its fields, whatever else is in it, or an array of exactly its
fields in their order. -/
def IsRecord (fields : List Field) : Json → Prop
  | .object members => ∀ f ∈ fields, f.HeldBy members
  | .array items => List.Forall₂ Field.spelled fields items
  | _ => False

/-- A variant is an object whose only member has its name. -/
def IsVariant (tag : String) (content : Json → Prop) (j : Json) : Prop :=
  ∃ c, j = .object [(tag, c)] ∧ content c

/-- An array whose items are spelled one by one. -/
def IsList (spelled : List (Json → Prop)) (j : Json) : Prop :=
  ∃ items, j = .array items ∧ List.Forall₂ (fun p i => p i) spelled items

end Json

open Json (Field IsRecord IsVariant IsList)

/-! ## Trees -/

def Ident.Spelled (i : Ident) : Json → Prop :=
  IsRecord [{ name := "name", spelled := (· = .string i.name) }]

def Literal.Spelled : Literal → Json → Prop
  | .string s => IsVariant "String" (· = .string s)
  | .int n => IsVariant "Int" (· = .integer n.toInt)
  | .bool b => IsVariant "Bool" (· = .bool b)

/-- Where there is no keyword, null may stand for it. -/
def Ident.OptionSpelled : Option Ident → Json → Prop
  | some i => i.Spelled
  | none => (· = .null)

mutual

/-- The values that spell an expression. -/
def Expr.Spelled : Expr → Json → Prop
  | .literal l => IsVariant "Literal" l.Spelled
  | .name i => IsVariant "Name" i.Spelled
  | .attr v i => IsVariant "Attribute" (IsRecord
      [{ name := "value", spelled := v.Spelled }, { name := "attr", spelled := i.Spelled }])
  | .subscript v i => IsVariant "Subscript" (IsRecord
      [{ name := "value", spelled := v.Spelled }, { name := "index", spelled := i.Spelled }])
  | .bitOr l r => IsVariant "BinOr" (IsRecord
      [{ name := "lhs", spelled := l.Spelled }, { name := "rhs", spelled := r.Spelled }])
  | .list es => IsVariant "List" (IsRecord
      [{ name := "elements", spelled := IsList (Expr.spelledAll es) }])
  | .dict es => IsVariant "Dict" (IsRecord
      [{ name := "elements", spelled := IsList (Expr.spelledEntries es) }])
  | .call f xs => IsVariant "Call" (IsRecord
      [{ name := "func", spelled := f.Spelled },
        { name := "args", spelled := IsList (Expr.spelledArguments xs) }])
termination_by structural e => e

def Expr.spelledAll : List Expr → List (Json → Prop)
  | [] => []
  | e :: es => e.Spelled :: Expr.spelledAll es
termination_by structural es => es

def Expr.spelledEntries : List (Entry Expr) → List (Json → Prop)
  | [] => []
  | ⟨k, v⟩ :: es =>
    IsRecord [{ name := "key", spelled := k.Spelled }, { name := "value", spelled := v.Spelled }] ::
      Expr.spelledEntries es
termination_by structural es => es

def Expr.spelledArguments : List (Argument Expr) → List (Json → Prop)
  | [] => []
  | ⟨k, v⟩ :: xs =>
    IsRecord
        [{ name := "keyword", spelled := Ident.OptionSpelled k, optional := k = none },
          { name := "value", spelled := v.Spelled }] ::
      Expr.spelledArguments xs
termination_by structural xs => xs

end

mutual

/-- The values that spell a statement. -/
def Stmt.Spelled : Stmt → Json → Prop
  | .importFrom source names => IsVariant "ImportFrom" (IsRecord
      [{ name := "module", spelled := source.Spelled },
        { name := "names", spelled := IsList (names.map Ident.Spelled) }])
  | .classDef name bases body => IsVariant "ClassDef" (IsRecord
      [{ name := "name", spelled := name.Spelled },
        { name := "bases", spelled := IsList (bases.map Expr.Spelled) },
        { name := "body", spelled := IsList (Stmt.spelledAll body) }])
  | .assign x v => IsVariant "Assign" (IsRecord
      [{ name := "target", spelled := x.Spelled }, { name := "value", spelled := v.Spelled }])
  | .annAssign x t => IsVariant "AnnAssign" (IsRecord
      [{ name := "target", spelled := x.Spelled },
        { name := "annotation",
          spelled := IsRecord [{ name := "value", spelled := t.Spelled }] }])
  | .expr v => IsVariant "Expr" v.Spelled
  | .pass => fun j => j = .string "Pass" ∨ IsVariant "Pass" (· = .null) j
termination_by structural s => s

def Stmt.spelledAll : List Stmt → List (Json → Prop)
  | [] => []
  | s :: ss => s.Spelled :: Stmt.spelledAll ss
termination_by structural ss => ss

end

def Module.Spelled (m : Module) : Json → Prop :=
  IsRecord [{ name := "body", spelled := IsList (m.body.map Stmt.Spelled) }]

/-- The values that spell a tree. -/
def Node.Spelled : Node → Json → Prop
  | .module m => IsVariant "Module" m.Spelled
  | .stmt s => IsVariant "Stmt" s.Spelled
  | .expr e => IsVariant "Expr" e.Spelled

/-! ## Lists of children -/

def Entry.Spelled (x : Entry Expr) : Json → Prop :=
  IsRecord [{ name := "key", spelled := x.key.Spelled },
    { name := "value", spelled := x.value.Spelled }]

def Argument.Spelled (x : Argument Expr) : Json → Prop :=
  IsRecord
    [{ name := "keyword", spelled := Ident.OptionSpelled x.keyword, optional := x.keyword = none },
      { name := "value", spelled := x.value.Spelled }]

theorem Expr.spelledAll_eq_map (es : List Expr) : Expr.spelledAll es = es.map Expr.Spelled := by
  induction es with
  | nil => rfl
  | cons e es ih => rw [Expr.spelledAll, List.map_cons, ih]

theorem Expr.spelledEntries_eq_map (es : List (Entry Expr)) :
    Expr.spelledEntries es = es.map Entry.Spelled := by
  induction es with
  | nil => rfl
  | cons x es ih =>
    rw [Expr.spelledEntries, List.map_cons, ih]
    rfl

theorem Expr.spelledArguments_eq_map (xs : List (Argument Expr)) :
    Expr.spelledArguments xs = xs.map Argument.Spelled := by
  induction xs with
  | nil => rfl
  | cons x xs ih =>
    rw [Expr.spelledArguments, List.map_cons, ih]
    rfl

theorem Stmt.spelledAll_eq_map (ss : List Stmt) : Stmt.spelledAll ss = ss.map Stmt.Spelled := by
  induction ss with
  | nil => rfl
  | cons s ss ih => rw [Stmt.spelledAll, List.map_cons, ih]

/-! ## Reading one record -/

namespace Json

theorem variant?_eq_some_iff {j : Json} {tag : String} {c : Json} :
    j.variant? = some (tag, c) ↔ j = .object [(tag, c)] := by
  unfold variant?
  split
  · simp
  · next hne =>
    simp only [reduceCtorEq, false_iff]
    rintro rfl
    exact hne tag c rfl

/-- What is found under the name of a field, if anything, is right. -/
def Field.FoundAs (f : Field) : Option Json → Prop
  | some j => f.spelled j
  | none => f.optional

theorem Field.heldBy_iff (f : Field) (members : List (String × Json)) :
    f.HeldBy members ↔ f.FoundAs (members.lookup f.name) := by
  cases hfound : members.lookup f.name with
  | none =>
    have habsent : ∀ m ∈ members, m.1 ≠ f.name := by
      intro m hm hname
      have h := List.lookup_eq_none_iff.mp hfound m hm
      simp [hname] at h
    constructor
    · rintro (⟨before, j, after, rfl, -, -⟩ | ⟨hoptional, -⟩)
      · exact absurd rfl (habsent (f.name, j) (List.mem_append_right _ (.head _)))
      · exact hoptional
    · exact fun hoptional => .inr ⟨hoptional, habsent⟩
  | some c =>
    obtain ⟨before, after, hmembers, hbefore⟩ := List.lookup_eq_some_iff.mp hfound
    constructor
    · rintro (⟨before', j, after', hmembers', hbefore', hj⟩ | ⟨-, habsent⟩)
      · have hfound' : members.lookup f.name = some j :=
          List.lookup_eq_some_iff.mpr
            ⟨before', after', hmembers', fun m hm => by simpa using (hbefore' m hm).symm⟩
        rw [hfound] at hfound'
        cases hfound'
        exact hj
      · exact absurd rfl
          (habsent (f.name, c) (hmembers ▸ List.mem_append_right _ (.head _)))
    · refine fun hc => .inl ⟨before, c, after, hmembers, fun m hm => ?_, hc⟩
      have h := hbefore m hm
      rw [bne_iff_ne] at h
      exact h.symm

/-- A value is a record exactly if its fields can be taken out and each of them is right. -/
theorem isRecord_iff {fields : List Field} {j : Json} :
    j.IsRecord fields ↔
      ∃ vs, j.fields? (fields.map Field.name) = some vs ∧ List.Forall₂ Field.FoundAs fields vs := by
  cases j with
  | object members =>
    simp only [IsRecord, fields?, Option.some.injEq, exists_eq_left', List.map_map,
      List.forall₂_map_right_iff, List.forall₂_same, Field.heldBy_iff, Function.comp_apply]
  | array items =>
    rw [IsRecord, fields?, List.length_map]
    constructor
    · intro h
      refine ⟨items.map some, if_pos h.length_eq.symm, ?_⟩
      rw [List.forall₂_map_right_iff]
      exact h
    · intro h
      obtain ⟨vs, hvs, h⟩ := h
      split at hvs
      · cases hvs
        rw [List.forall₂_map_right_iff] at h
        exact h
      · cases hvs
  | _ => simp [IsRecord, fields?]

/-- What a record holds lies below it. -/
theorem depth_lt_of_fields? {names : List String} {j c : Json} {vs : List (Option Json)}
    (h : j.fields? names = some vs) (hc : some c ∈ vs) : c.depth < j.depth := by
  cases j with
  | object members =>
    cases h
    obtain ⟨name, -, hfound⟩ := List.mem_map.mp hc
    obtain ⟨before, after, rfl, -⟩ := List.lookup_eq_some_iff.mp hfound
    have hmem : (name, c) ∈ before ++ (name, c) :: after := List.mem_append_right _ (.head _)
    exact Nat.lt_succ_of_le (depth_le_depthMembers hmem)
  | array items =>
    rw [fields?] at h
    split at h
    · cases h
      obtain ⟨i, hi, hic⟩ := List.mem_map.mp hc
      cases hic
      exact Nat.lt_succ_of_le (depth_le_depthItems hi)
    · cases h
  | _ => cases h

/-! ## Readers that are right below a depth -/

/-- Below a depth, a reader answers with a tree exactly at the values that spell it. -/
def ReadsBelow {α : Type} (depth : Nat) (read : Json → Option α) (spelled : α → Json → Prop) :
    Prop :=
  ∀ j : Json, j.depth < depth → ∀ a, read j = some a ↔ spelled a j

theorem ReadsBelow.mono {α : Type} {d d' : Nat} {read : Json → Option α}
    {spelled : α → Json → Prop} (h : ReadsBelow d read spelled) (hd : d' ≤ d) :
    ReadsBelow d' read spelled :=
  fun j hj => h j (Nat.lt_of_lt_of_le hj hd)

theorem forall₂_read_iff {α : Type} {read : Json → Option α} {spelled : α → Json → Prop}
    {js : List Json} {as : List α} (h : ∀ j ∈ js, ∀ a, read j = some a ↔ spelled a j) :
    js.mapM read = some as ↔ List.Forall₂ (fun p i => p i) (as.map spelled) js := by
  rw [List.forall₂_map_left_iff]
  induction js generalizing as with
  | nil =>
    rw [List.mapM_nil, List.forall₂_nil_right_iff]
    exact ⟨fun h => (Option.some.inj h).symm, fun h => congrArg some h.symm⟩
  | cons j js ih =>
    have hrest {as : List α} := @ih as fun i hi => h i (.tail _ hi)
    simp only [List.mapM_cons, Option.bind_eq_bind, Option.bind_eq_some_iff, Option.pure_def,
      Option.some.injEq, List.forall₂_cons_right_iff, h j (.head _), hrest]
    constructor
    · rintro ⟨a, ha, as', has, rfl⟩
      exact ⟨a, as', ha, has, rfl⟩
    · rintro ⟨a, as', ha, has, rfl⟩
      exact ⟨a, ha, as', has, rfl⟩

section Records

variable {α β γ δ : Type} {read : Json → Option α} {spelled : α → Json → Prop}
  {read' : Json → Option β} {spelled' : β → Json → Prop} {read'' : Json → Option γ}
  {spelled'' : γ → Json → Prop}

theorem readsBelow_listOf? {d : Nat} (h : ReadsBelow d read spelled) :
    ReadsBelow d (Json.listOf? read) fun as => IsList (as.map spelled) := by
  intro j hj as
  cases j with
  | array items =>
    have hitems : ∀ i ∈ items, ∀ a, read i = some a ↔ spelled a i := by
      intro i hi
      have := depth_le_depthItems hi
      rw [depth] at hj
      exact h i (by omega)
    show items.mapM read = some as ↔ IsList (as.map spelled) (.array items)
    rw [forall₂_read_iff hitems]
    constructor
    · exact fun hall => ⟨items, rfl, hall⟩
    · rintro ⟨_, hsame, hall⟩
      cases hsame
      exact hall
  | _ => simp [listOf?, IsList]

variable {j : Json} {a b c : String}

theorem Field.foundAs_iff (p : Json → Prop) (v : Option Json) :
    Field.FoundAs { name := a, spelled := p } v ↔ ∃ x, v = some x ∧ p x := by
  cases v <;> simp [FoundAs]

/-- A record of one field is read if the field is. -/
theorem record₁_eq_some_iff (f : α → δ) (h : ReadsBelow j.depth read spelled) {r : δ} :
    (do
      let [some x] ← j.fields? [a] | none
      return f (← read x)) = some r ↔
    ∃ u, f u = r ∧ j.IsRecord [{ name := a, spelled := spelled u }] := by
  simp only [isRecord_iff, List.map_cons, List.map_nil, List.forall₂_cons_left_iff,
    List.forall₂_nil_left_iff, Field.foundAs_iff, Option.bind_eq_bind, Option.bind_eq_some_iff]
  constructor
  · rintro ⟨vs, hvs, hr⟩
    split at hr
    · next x =>
      obtain ⟨u, hu, hr⟩ := Option.bind_eq_some_iff.mp hr
      have hx := (h x (depth_lt_of_fields? hvs (.head _)) u).mp hu
      exact ⟨u, Option.some.inj hr, _, hvs, _, _, ⟨x, rfl, hx⟩, rfl, rfl⟩
    · cases hr
  · rintro ⟨u, rfl, vs, hvs, _, _, ⟨x, rfl, hx⟩, rfl, rfl⟩
    have hu := (h x (depth_lt_of_fields? hvs (.head _)) u).mpr hx
    exact ⟨_, hvs, by simp [hu]⟩

/-- A record of two fields is read if both are. -/
theorem record₂_eq_some_iff (f : α → β → δ) (h : ReadsBelow j.depth read spelled)
    (h' : ReadsBelow j.depth read' spelled') {r : δ} :
    (do
      let [some x, some y] ← j.fields? [a, b] | none
      return f (← read x) (← read' y)) = some r ↔
    ∃ u v, f u v = r ∧
      j.IsRecord [{ name := a, spelled := spelled u }, { name := b, spelled := spelled' v }] := by
  simp only [isRecord_iff, List.map_cons, List.map_nil, List.forall₂_cons_left_iff,
    List.forall₂_nil_left_iff, Field.foundAs_iff, Option.bind_eq_bind, Option.bind_eq_some_iff]
  constructor
  · rintro ⟨vs, hvs, hr⟩
    split at hr
    · next x y =>
      obtain ⟨u, hu, hr⟩ := Option.bind_eq_some_iff.mp hr
      obtain ⟨v, hv, hr⟩ := Option.bind_eq_some_iff.mp hr
      have hx := (h x (depth_lt_of_fields? hvs (.head _)) u).mp hu
      have hy := (h' y (depth_lt_of_fields? hvs (.tail _ (.head _))) v).mp hv
      exact ⟨u, v, Option.some.inj hr, _, hvs, _, _, ⟨x, rfl, hx⟩,
        ⟨_, _, ⟨y, rfl, hy⟩, rfl, rfl⟩, rfl⟩
    · cases hr
  · rintro ⟨u, v, rfl, vs, hvs, _, _, ⟨x, rfl, hx⟩, ⟨_, _, ⟨y, rfl, hy⟩, rfl, rfl⟩, rfl⟩
    have hu := (h x (depth_lt_of_fields? hvs (.head _)) u).mpr hx
    have hv := (h' y (depth_lt_of_fields? hvs (.tail _ (.head _))) v).mpr hy
    exact ⟨_, hvs, by simp [hu, hv]⟩

/-- A record of three fields is read if all of them are. -/
theorem record₃_eq_some_iff (f : α → β → γ → δ) (h : ReadsBelow j.depth read spelled)
    (h' : ReadsBelow j.depth read' spelled') (h'' : ReadsBelow j.depth read'' spelled'') {r : δ} :
    (do
      let [some x, some y, some z] ← j.fields? [a, b, c] | none
      return f (← read x) (← read' y) (← read'' z)) = some r ↔
    ∃ u v w, f u v w = r ∧
      j.IsRecord [{ name := a, spelled := spelled u }, { name := b, spelled := spelled' v },
        { name := c, spelled := spelled'' w }] := by
  simp only [isRecord_iff, List.map_cons, List.map_nil, List.forall₂_cons_left_iff,
    List.forall₂_nil_left_iff, Field.foundAs_iff, Option.bind_eq_bind, Option.bind_eq_some_iff]
  constructor
  · rintro ⟨vs, hvs, hr⟩
    split at hr
    · next x y z =>
      obtain ⟨u, hu, hr⟩ := Option.bind_eq_some_iff.mp hr
      obtain ⟨v, hv, hr⟩ := Option.bind_eq_some_iff.mp hr
      obtain ⟨w, hw, hr⟩ := Option.bind_eq_some_iff.mp hr
      have hx := (h x (depth_lt_of_fields? hvs (.head _)) u).mp hu
      have hy := (h' y (depth_lt_of_fields? hvs (.tail _ (.head _))) v).mp hv
      have hz := (h'' z (depth_lt_of_fields? hvs (.tail _ (.tail _ (.head _)))) w).mp hw
      exact ⟨u, v, w, Option.some.inj hr, _, hvs, _, _, ⟨x, rfl, hx⟩,
        ⟨_, _, ⟨y, rfl, hy⟩, ⟨_, _, ⟨z, rfl, hz⟩, rfl, rfl⟩, rfl⟩, rfl⟩
    · cases hr
  · rintro ⟨u, v, w, rfl, vs, hvs, _, _, ⟨x, rfl, hx⟩,
      ⟨_, _, ⟨y, rfl, hy⟩, ⟨_, _, ⟨z, rfl, hz⟩, rfl, rfl⟩, rfl⟩, rfl⟩
    have hu := (h x (depth_lt_of_fields? hvs (.head _)) u).mpr hx
    have hv := (h' y (depth_lt_of_fields? hvs (.tail _ (.head _))) v).mpr hy
    have hw := (h'' z (depth_lt_of_fields? hvs (.tail _ (.tail _ (.head _)))) w).mpr hz
    exact ⟨_, hvs, by simp [hu, hv, hw]⟩

end Records

end Json

end ScriptTree
