import ScriptTree.Proofs.Outcome
import ScriptTree.Proofs.Text.Digits
import ScriptTree.Value.OfJson

/-!
# JSON data and its tree

JSON data is taken over as it stands or not at all. Its leaves, in the order in which they are
written, settle which: nulls, floats and integers of more than 64 bits are not supported, and the
first leaf that is not is the error. Otherwise the tree of the value that is made of the data mirrors
it, node by node and in the same order. Since a tree mirrors one piece of data at most, nothing is
lost, merged or moved. Whether an object names a member twice makes no difference here.
-/
namespace ScriptTree

open Outcome (bind_eq_ok_iff pure_eq_ok_iff mapM_eq_ok_iff fault? fault?_bind_pure fault?_mapM
  findSome?_congr_of_mem forall₂_congr_of_mem forall₂_and_iff exists_forall₂_map_iff eq_of_forall₂)

namespace Json

@[elab_as_elim, induction_eliminator]
theorem induct {motive : Json → Prop}
    (null : motive .null)
    (bool : ∀ b, motive (.bool b))
    (number : ∀ n, motive (.number n))
    (string : ∀ s, motive (.string s))
    (array : ∀ js, (∀ j ∈ js, motive j) → motive (.array js))
    (object : ∀ ms, (∀ m ∈ ms, motive m.2) → motive (.object ms))
    (j : Json) : motive j :=
  @Json.rec motive (fun js => ∀ j ∈ js, motive j) (fun ms => ∀ m ∈ ms, motive m.2)
    (fun m => motive m.2) null bool number string array object
    (fun _ h => nomatch h) (fun _ _ hj hjs => List.forall_mem_cons.mpr ⟨hj, hjs⟩)
    (fun _ h => nomatch h) (fun _ _ hm hms => List.forall_mem_cons.mpr ⟨hm, hms⟩)
    (fun _ _ hj => hj) j

/-! ## Leaves -/

mutual

/-- The values in a value at every depth that are no arrays or objects, in the order in which they
are written. -/
def leaves : Json → List Json
  | .array items => leavesAll items
  | .object members => leavesOf members
  | j => [j]
termination_by structural j => j

def leavesAll : List Json → List Json
  | [] => []
  | j :: js => j.leaves ++ leavesAll js
termination_by structural js => js

def leavesOf : List (String × Json) → List Json
  | [] => []
  | (_, j) :: ms => j.leaves ++ leavesOf ms
termination_by structural ms => ms

end

/-- The kind of a leaf for which scripts have no literal. -/
def unsupported? : Json → Option String
  | .null => some "null"
  | .number (.float _) => some "float"
  | .number (.integer n) =>
    if -9223372036854775808 ≤ n ∧ n ≤ 9223372036854775807 then none
    else some "integer out of range"
  | _ => none

/-- The error that a leaf brings up, if it is not supported. It shows the leaf as it is written. -/
def refusal? (j : Json) : Option Error :=
  j.unsupported?.map fun kind => .unsupportedValue (String.ofList j.compact) kind

theorem refusal?_eq_none_iff {j : Json} : j.refusal? = none ↔ j.unsupported? = none :=
  Option.map_eq_none_iff

theorem refusal?_eq_some_iff {j : Json} {e : Error} :
    j.refusal? = some e ↔
      ∃ kind, j.unsupported? = some kind ∧ .unsupportedValue (String.ofList j.compact) kind = e :=
  Option.map_eq_some_iff

theorem findSome?_leavesAll {α : Type} (f : Json → Option α) (js : List Json) :
    (leavesAll js).findSome? f = js.findSome? fun j => j.leaves.findSome? f := by
  induction js with
  | nil => rfl
  | cons j js ih =>
    rw [leavesAll, List.findSome?_append, ih, List.findSome?_cons]
    cases j.leaves.findSome? f <;> rfl

theorem findSome?_leavesOf {α : Type} (f : Json → Option α) (ms : List (String × Json)) :
    (leavesOf ms).findSome? f = ms.findSome? fun m => m.2.leaves.findSome? f := by
  induction ms with
  | nil => rfl
  | cons m ms ih =>
    rw [leavesOf, List.findSome?_append, ih, List.findSome?_cons]
    cases m.2.leaves.findSome? f <;> rfl

/-! ## Mirrored data -/

/-- A tree with the structure of JSON data: arrays as lists of the same length and order, objects as
dictionaries with the same keys in the same order, everything else as the equal literal. -/
inductive MirroredBy : Json → Expr → Prop
  | bool (b : Bool) : MirroredBy (.bool b) (.bool b)
  | integer (n : Int64) : MirroredBy (.integer n.toInt) (.int n)
  | string (s : String) : MirroredBy (.string s) (.string s)
  | array {js : List Json} {es : List Expr} (h : List.Forall₂ MirroredBy js es) :
      MirroredBy (.array js) (.list es)
  | object {ms : List (String × Json)} {xs : List (Entry Expr)}
      (hkeys : List.Forall₂ (fun m x => x.key = .string m.1) ms xs)
      (h : List.Forall₂ MirroredBy (ms.map Prod.snd) (xs.map Entry.value)) :
      MirroredBy (.object ms) (.dict xs)

theorem mirroredBy_array_iff {js : List Json} {e : Expr} :
    MirroredBy (.array js) e ↔ ∃ es, List.Forall₂ MirroredBy js es ∧ .list es = e := by
  constructor
  · intro h
    cases h with
    | array h => exact ⟨_, h, rfl⟩
  · intro h
    obtain ⟨es, h, rfl⟩ := h
    exact .array h

theorem mirroredBy_object_iff {ms : List (String × Json)} {e : Expr} :
    MirroredBy (.object ms) e ↔
      ∃ xs, List.Forall₂ (fun m x => x.key = .string m.1 ∧ MirroredBy m.2 x.value) ms xs ∧
        .dict xs = e := by
  constructor
  · intro h
    cases h with
    | object hkeys h =>
      rw [List.forall₂_map_left_iff, List.forall₂_map_right_iff] at h
      exact ⟨_, forall₂_and_iff.mpr ⟨hkeys, h⟩, rfl⟩
  · intro h
    obtain ⟨xs, h, rfl⟩ := h
    obtain ⟨hkeys, hvalues⟩ := forall₂_and_iff.mp h
    refine .object hkeys ?_
    rw [List.forall₂_map_left_iff, List.forall₂_map_right_iff]
    exact hvalues

/-- A tree mirrors no two pieces of data. -/
theorem MirroredBy.inj {j j' : Json} {e : Expr} (h : MirroredBy j e) (h' : MirroredBy j' e) :
    j = j' := by
  induction j generalizing j' e with
  | null => cases h
  | bool b =>
    cases h
    cases h'
    rfl
  | number n =>
    cases h
    cases h'
    rfl
  | string s =>
    cases h
    cases h'
    rfl
  | array js ih =>
    obtain ⟨es, hes, rfl⟩ := mirroredBy_array_iff.mp h
    cases h' with
    | array hes' => rw [eq_of_forall₂ hes hes' fun j hj _ _ h h' => ih j hj h h']
  | object ms ih =>
    obtain ⟨xs, hxs, rfl⟩ := mirroredBy_object_iff.mp h
    cases h' with
    | object hkeys hvalues =>
      rw [List.forall₂_map_left_iff, List.forall₂_map_right_iff] at hvalues
      have hxs' := forall₂_and_iff.mpr ⟨hkeys, hvalues⟩
      refine congrArg Json.object (eq_of_forall₂ hxs hxs' fun m hm m' x hx hx' => ?_)
      have hname : m.1 = m'.1 := by
        have hkey := hx.1.symm.trans hx'.1
        simpa only [Expr.string, Expr.literal.injEq, Literal.string.injEq] using hkey
      exact Prod.ext hname (ih m hm hx.2 hx'.2)

end Json

namespace Value

theorem ofItems_eq_mapM (js : List Json) : ofItems js = js.mapM ofJson := by
  induction js with
  | nil => rfl
  | cons j js ih => rw [ofItems, ih, List.mapM_cons]

theorem ofMembers_eq_mapM (ms : List (String × Json)) :
    ofMembers ms = ms.mapM fun m => ofJson m.2 >>= fun v => pure (m.1, v) := by
  induction ms with
  | nil => rfl
  | cons m ms ih =>
    rw [ofMembers, ih, List.mapM_cons]
    cases ofJson m.2 <;> rfl

/-! ## What is not taken over -/

theorem fault?_ofNumber (n : JsonNumber) : fault? (ofNumber n) = (Json.number n).refusal? := by
  cases n with
  | float x => rfl
  | integer n =>
    rw [ofNumber, Text.int64?, Json.refusal?, Json.unsupported?]
    by_cases hrange : -9223372036854775808 ≤ n ∧ n ≤ 9223372036854775807
    · rw [if_pos hrange, if_pos hrange]
      rfl
    · rw [if_neg hrange, if_neg hrange]
      rfl

/-- The error is that of the first leaf that has one. -/
theorem fault?_ofJson (j : Json) : fault? (ofJson j) = j.leaves.findSome? Json.refusal? := by
  induction j with
  | null => rfl
  | bool b => rfl
  | number n =>
    show fault? (ofNumber n) = [Json.number n].findSome? Json.refusal?
    rw [List.findSome?_singleton, fault?_ofNumber]
  | string s => rfl
  | array js ih =>
    rw [ofJson, fault?_bind_pure, ofItems_eq_mapM, fault?_mapM, Json.leaves,
      Json.findSome?_leavesAll]
    exact findSome?_congr_of_mem ih
  | object ms ih =>
    rw [ofJson, fault?_bind_pure, ofMembers_eq_mapM, fault?_mapM, Json.leaves,
      Json.findSome?_leavesOf]
    simp only [fault?_bind_pure]
    exact findSome?_congr_of_mem ih

/-! ## What is taken over -/

theorem ofNumber_mirrored_iff {n : JsonNumber} {e : Expr} :
    (∃ v, ofNumber n = .ok v ∧ v.resolve = e) ↔ (Json.number n).MirroredBy e := by
  constructor
  · intro h
    obtain ⟨v, hv, rfl⟩ := h
    cases n with
    | float x => cases hv
    | integer n =>
      rw [ofNumber] at hv
      cases hi : Text.int64? n with
      | none =>
        rw [hi] at hv
        cases hv
      | some i =>
        rw [hi] at hv
        cases hv
        rw [Text.int64?_eq_some_iff.mp hi]
        exact .integer i
  · intro h
    cases h with
    | integer i =>
      refine ⟨.int i, ?_, rfl⟩
      rw [ofNumber, Text.int64?_toInt]

/-- The tree of the value that is made of JSON data is the one that mirrors the data. -/
theorem ofJson_mirrored_iff {j : Json} {e : Expr} :
    (∃ v, ofJson j = .ok v ∧ v.resolve = e) ↔ j.MirroredBy e := by
  induction j generalizing e with
  | null =>
    constructor
    · intro h
      obtain ⟨v, hv, -⟩ := h
      cases hv
    · intro h
      cases h
  | bool b =>
    constructor
    · intro h
      obtain ⟨v, hv, rfl⟩ := h
      cases hv
      exact .bool b
    · intro h
      cases h
      exact ⟨.bool b, rfl, rfl⟩
  | number n => exact ofNumber_mirrored_iff
  | string s =>
    constructor
    · intro h
      obtain ⟨v, hv, rfl⟩ := h
      cases hv
      exact .string s
    · intro h
      cases h
      exact ⟨.string s, rfl, rfl⟩
  | array js ih =>
    -- The values in between are made of the items one by one, and so are their trees.
    have hitems (es : List Expr) :
        (∃ vs, js.mapM ofJson = .ok vs ∧ vs.map resolve = es) ↔
          List.Forall₂ Json.MirroredBy js es := by
      simp only [mapM_eq_ok_iff, exists_forall₂_map_iff]
      exact forall₂_congr_of_mem fun j hj e => ih j hj
    rw [Json.mirroredBy_array_iff, ofJson, ofItems_eq_mapM]
    simp only [bind_eq_ok_iff, pure_eq_ok_iff, ← hitems]
    constructor
    · intro h
      obtain ⟨_, ⟨vs, hvs, rfl⟩, rfl⟩ := h
      exact ⟨_, ⟨vs, hvs, rfl⟩, congrArg Expr.list (resolveAll_eq_map vs).symm⟩
    · intro h
      obtain ⟨_, ⟨vs, hvs, rfl⟩, rfl⟩ := h
      exact ⟨_, ⟨vs, hvs, rfl⟩, congrArg Expr.list (resolveAll_eq_map vs)⟩
  | object ms ih =>
    have hmembers (xs : List (Entry Expr)) :
        (∃ es, ms.mapM (fun m => ofJson m.2 >>= fun v => pure (m.1, v)) = .ok es ∧
            es.map (fun e => ⟨.string e.1, e.2.resolve⟩) = xs) ↔
          List.Forall₂ (fun m x => x.key = .string m.1 ∧ m.2.MirroredBy x.value) ms xs := by
      simp only [mapM_eq_ok_iff, exists_forall₂_map_iff]
      refine forall₂_congr_of_mem fun m hm x => ?_
      rw [← ih m hm]
      simp only [bind_eq_ok_iff, pure_eq_ok_iff]
      constructor
      · intro h
        obtain ⟨_, ⟨v, hv, rfl⟩, rfl⟩ := h
        exact ⟨rfl, v, hv, rfl⟩
      · intro h
        obtain ⟨hkey, v, hv, hvalue⟩ := h
        refine ⟨(m.1, v), ⟨v, hv, rfl⟩, ?_⟩
        rw [← hkey, hvalue]
    rw [Json.mirroredBy_object_iff, ofJson, ofMembers_eq_mapM]
    simp only [bind_eq_ok_iff, pure_eq_ok_iff, ← hmembers]
    constructor
    · intro h
      obtain ⟨_, ⟨es, hes, rfl⟩, rfl⟩ := h
      exact ⟨_, ⟨es, hes, rfl⟩, congrArg Expr.dict (resolveEntries_eq_map es).symm⟩
    · intro h
      obtain ⟨_, ⟨es, hes, rfl⟩, rfl⟩ := h
      exact ⟨_, ⟨es, hes, rfl⟩, congrArg Expr.dict (resolveEntries_eq_map es)⟩

theorem ofJson_eq_error_iff {j : Json} {e : Error} :
    ofJson j = .error e ↔
      ∃ before leaf after, j.leaves = before ++ leaf :: after ∧ leaf.refusal? = some e ∧
        ∀ l ∈ before, l.refusal? = none := by
  rw [← List.findSome?_eq_some_iff, ← fault?_ofJson]
  cases ofJson j with
  | error e' => rw [fault?, Except.error.injEq, Option.some.injEq]
  | ok v => rw [fault?]; simp

theorem exists_ofJson_eq_ok_iff {j : Json} :
    (∃ v, ofJson j = .ok v) ↔ ∀ leaf ∈ j.leaves, leaf.refusal? = none := by
  rw [← List.findSome?_eq_none_iff, ← fault?_ofJson]
  cases ofJson j with
  | error e => simp [fault?]
  | ok v => simp [fault?]

/-- JSON data is taken over if all its leaves are supported, and refused with the first leaf that is
not. What is taken over has the tree that mirrors it, so that no two pieces of data are taken over
as the same tree. -/
theorem ofJson_mirrored (j : Json) :
    ((∃ v, ofJson j = .ok v) ↔ ∀ leaf ∈ j.leaves, leaf.unsupported? = none) ∧
    (∀ e, ofJson j = .error e ↔
      ∃ before leaf after kind, j.leaves = before ++ leaf :: after ∧
        (∀ l ∈ before, l.unsupported? = none) ∧ leaf.unsupported? = some kind ∧
        e = .unsupportedValue (String.ofList leaf.compact) kind) ∧
    (∀ e, (∃ v, ofJson j = .ok v ∧ v.resolve = e) ↔ j.MirroredBy e) ∧
    ∀ j' v v', ofJson j = .ok v → ofJson j' = .ok v' → v.resolve = v'.resolve → j = j' := by
  refine ⟨?_, fun e => ?_, fun e => ofJson_mirrored_iff, fun j' v v' hv hv' heq => ?_⟩
  · simp only [exists_ofJson_eq_ok_iff, Json.refusal?_eq_none_iff]
  · simp only [ofJson_eq_error_iff, Json.refusal?_eq_none_iff, Json.refusal?_eq_some_iff]
    constructor
    · intro h
      obtain ⟨before, leaf, after, hleaves, ⟨kind, hkind, he⟩, hbefore⟩ := h
      exact ⟨before, leaf, after, kind, hleaves, hbefore, hkind, he.symm⟩
    · intro h
      obtain ⟨before, leaf, after, kind, hleaves, hbefore, hkind, he⟩ := h
      exact ⟨before, leaf, after, hleaves, ⟨kind, hkind, he.symm⟩, hbefore⟩
  · have hj : j.MirroredBy v.resolve := ofJson_mirrored_iff.mp ⟨v, hv, rfl⟩
    have hj' : j'.MirroredBy v.resolve := ofJson_mirrored_iff.mp ⟨v', hv', heq.symm⟩
    exact hj.inj hj'

theorem ofJson_mirrored_nested :
    (∃ v, ofJson (.object [("z", .integer 1), ("a", .array [.bool true, .string "x"])]) = .ok v ∧
      v.resolve =
        .dict [⟨.string "z", .int 1⟩, ⟨.string "a", .list [.bool true, .string "x"]⟩]) ∧
    ofJson (.object [("k", .array [.integer 1, .number (.float (.zero false))]), ("n", .null)]) =
      .error (.unsupportedValue "0.0" "float") ∧
    Value.resolve (.map [("z", .int 1), ("a", .bool true)]) ≠
      Value.resolve (.map [("a", .bool true), ("z", .int 1)]) := by
  refine ⟨?_, ?_, fun h => ?_⟩
  · refine ((ofJson_mirrored _).2.2.1 _).mpr (.object ?_ ?_)
    · exact .cons rfl (.cons rfl .nil)
    · exact .cons (.integer 1) (.cons (.array (.cons (.bool true) (.cons (.string "x") .nil))) .nil)
  · refine ((ofJson_mirrored _).2.1 _).mpr
      ⟨[.integer 1], .number (.float (.zero false)), [.null], "float", rfl, ?_, rfl, by decide⟩
    intro l hl
    cases List.mem_singleton.mp hl
    rfl
  · have hsame := (ofJson_mirrored (.object [("z", .integer 1), ("a", .bool true)])).2.2.2
      (.object [("a", .bool true), ("z", .integer 1)]) _ _ rfl rfl h
    simp at hsame

end Value

end ScriptTree
