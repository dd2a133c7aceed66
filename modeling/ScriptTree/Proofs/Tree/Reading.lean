import ScriptTree.Proofs.Text.Digits
import ScriptTree.Proofs.Tree.Spelled

/-!
# Reading accepts the spellings of trees

Reading a value yields a tree exactly if the value spells that tree, and fails exactly if it spells
none. Inside expressions and statements the reader is bounded by the depth of the value, which is
never reached, so the induction is on that bound: each step needs the reader of the parts only below
the depth of the whole.
-/
namespace ScriptTree

open Json (IsRecord IsVariant IsList ReadsBelow record₁_eq_some_iff record₂_eq_some_iff
  record₃_eq_some_iff readsBelow_listOf? variant?_eq_some_iff)

/-! ## Scalars and identifiers -/

theorem Json.string?_eq_some_iff {j : Json} {s : String} : j.string? = some s ↔ j = .string s := by
  cases j <;> simp [string?]

theorem Json.bool?_eq_some_iff {j : Json} {b : Bool} : j.bool? = some b ↔ j = .bool b := by
  cases j <;> simp [bool?]

/-- A number without fraction and exponent in the range of the integers, and nothing else. -/
theorem Json.int64?_eq_some_iff {j : Json} {i : Int64} :
    j.int64? = some i ↔ j = .integer i.toInt := by
  unfold int64?
  split
  · next n => rw [Text.int64?_eq_some_iff, integer, number.injEq, JsonNumber.integer.injEq]
  · next hne =>
    simp only [reduceCtorEq, false_iff]
    exact hne i.toInt

theorem Ident.ofJson?_eq_some_iff (j : Json) (i : Ident) :
    Ident.ofJson? j = some i ↔ i.Spelled j := by
  have hname : ReadsBelow j.depth Json.string? fun s j => j = .string s :=
    fun _ _ _ => Json.string?_eq_some_iff
  refine (record₁_eq_some_iff Ident.mk hname).trans ?_
  constructor
  · rintro ⟨name, rfl, h⟩
    exact h
  · exact fun h => ⟨i.name, rfl, h⟩

theorem Ident.readsBelow (d : Nat) : ReadsBelow d Ident.ofJson? Ident.Spelled :=
  fun j _ => Ident.ofJson?_eq_some_iff j

theorem Ident.optionOfJson?_eq_some_iff (name : String) (v : Option Json) (k : Option Ident) :
    Ident.optionOfJson? v = some k ↔
      Json.Field.FoundAs
        { name := name, spelled := Ident.OptionSpelled k, optional := k = none } v := by
  have hnull (i : Ident) : ¬ i.Spelled .null := fun h => h
  rcases v with _ | j
  · exact ⟨fun h => (Option.some.inj h).symm, fun h => congrArg some h.symm⟩
  show _ ↔ Ident.OptionSpelled k j
  by_cases hj : j = .null
  · rw [hj]
    cases k with
    | none => exact ⟨fun _ => rfl, fun _ => rfl⟩
    | some i => exact ⟨fun h => (nomatch h), fun h => (hnull i h).elim⟩
  · have hread : Ident.optionOfJson? (some j) = (Ident.ofJson? j).map some := by
      unfold Ident.optionOfJson?
      split
      · next h => cases h
      · next h => exact absurd (Option.some.inj h) hj
      · next h => rw [Option.some.inj h]
    rw [hread, Option.map_eq_some_iff]
    cases k with
    | none => exact ⟨fun ⟨_, _, h⟩ => (nomatch h), fun h => absurd h hj⟩
    | some i => simp [Ident.ofJson?_eq_some_iff, Ident.OptionSpelled]

/-- A variant is read by what its tag selects. -/
theorem Json.bind_variant?_eq_some_iff {α : Type} {j : Json} {f : String × Json → Option α}
    {a : α} : j.variant?.bind f = some a ↔ ∃ tag c, j = .object [(tag, c)] ∧ f (tag, c) = some a := by
  rw [Option.bind_eq_some_iff]
  constructor
  · rintro ⟨⟨tag, c⟩, hj, ha⟩
    exact ⟨tag, c, variant?_eq_some_iff.mp hj, ha⟩
  · rintro ⟨tag, c, hj, ha⟩
    exact ⟨(tag, c), variant?_eq_some_iff.mpr hj, ha⟩

/-- The only member of a variant lies below it. -/
theorem Json.depth_lt_variant (tag : String) (c : Json) : c.depth < (Json.object [(tag, c)]).depth :=
  Nat.lt_succ_of_le (depth_le_depthMembers (List.mem_singleton_self (tag, c)))

/-- A reader that is right below a variant is right below its content. -/
theorem Json.ReadsBelow.content {α : Type} {read : Json → Option α} {spelled : α → Json → Prop}
    {j c : Json} {tag : String} (h : ReadsBelow j.depth read spelled)
    (hj : j = .object [(tag, c)]) : ReadsBelow c.depth read spelled :=
  h.mono (Nat.le_of_lt (hj ▸ depth_lt_variant tag c))

theorem Literal.ofJson?_eq_some_iff (j : Json) (l : Literal) :
    Literal.ofJson? j = some l ↔ l.Spelled j := by
  refine Json.bind_variant?_eq_some_iff.trans ?_
  constructor
  · rintro ⟨tag, c, rfl, h⟩
    split at h
    · next heq =>
      cases heq
      obtain ⟨s, hs, h⟩ := Option.bind_eq_some_iff.mp h
      cases h
      exact ⟨c, rfl, Json.string?_eq_some_iff.mp hs⟩
    · next heq =>
      cases heq
      obtain ⟨n, hn, h⟩ := Option.bind_eq_some_iff.mp h
      cases h
      exact ⟨c, rfl, Json.int64?_eq_some_iff.mp hn⟩
    · next heq =>
      cases heq
      obtain ⟨b, hb, h⟩ := Option.bind_eq_some_iff.mp h
      cases h
      exact ⟨c, rfl, Json.bool?_eq_some_iff.mp hb⟩
    · cases h
  · intro h
    cases l with
    | string s =>
      obtain ⟨c, rfl, rfl⟩ := h
      exact ⟨_, _, rfl, rfl⟩
    | int n =>
      obtain ⟨c, rfl, rfl⟩ := h
      refine ⟨_, _, rfl, ?_⟩
      exact Option.bind_eq_some_iff.mpr ⟨n, Json.int64?_eq_some_iff.mpr rfl, rfl⟩
    | bool b =>
      obtain ⟨c, rfl, rfl⟩ := h
      exact ⟨_, _, rfl, rfl⟩

/-! ## Expressions -/

section Expressions

variable {read : Json → Option Expr} {d : Nat}

theorem Entry.readsBelow (h : ReadsBelow d read Expr.Spelled) :
    ReadsBelow d (Entry.ofJson? read) Entry.Spelled := by
  intro j hj x
  have hread := h.mono (Nat.le_of_lt hj)
  refine (record₂_eq_some_iff Entry.mk hread hread).trans ?_
  constructor
  · rintro ⟨k, v, rfl, h⟩
    exact h
  · exact fun h => ⟨x.key, x.value, rfl, h⟩

theorem Argument.readsBelow (h : ReadsBelow d read Expr.Spelled) :
    ReadsBelow d (Argument.ofJson? read) Argument.Spelled := by
  intro j hj x
  have hread := h.mono (Nat.le_of_lt hj)
  rw [Argument.Spelled, Json.isRecord_iff]
  simp only [Argument.ofJson?, List.map_cons, List.map_nil, List.forall₂_cons_left_iff,
    List.forall₂_nil_left_iff, ← Ident.optionOfJson?_eq_some_iff, Json.Field.foundAs_iff,
    Option.bind_eq_bind, Option.bind_eq_some_iff]
  constructor
  · rintro ⟨vs, hvs, hx⟩
    split at hx
    · next keyword value =>
      obtain ⟨k, hk, hx⟩ := Option.bind_eq_some_iff.mp hx
      obtain ⟨v, hv, hx⟩ := Option.bind_eq_some_iff.mp hx
      cases hx
      have hvalue := (hread value (Json.depth_lt_of_fields? hvs (.tail _ (.head _))) v).mp hv
      exact ⟨_, hvs, _, _, hk, ⟨_, _, ⟨value, rfl, hvalue⟩, rfl, rfl⟩, rfl⟩
    · cases hx
  · rintro ⟨vs, hvs, keyword, _, hk, ⟨_, _, ⟨value, rfl, hvalue⟩, rfl, rfl⟩, rfl⟩
    have hv := (hread value (Json.depth_lt_of_fields? hvs (.tail _ (.head _))) x.value).mpr hvalue
    exact ⟨_, hvs, by simp [hk, hv]⟩

/-- One step of the reading, given a reader that is right below the value. -/
theorem Expr.ofVariant?_eq_some_iff {j : Json} (h : ReadsBelow j.depth read Expr.Spelled) (e : Expr) :
    j.variant?.bind (Expr.ofVariant? read) = some e ↔ e.Spelled j := by
  rw [Json.bind_variant?_eq_some_iff]
  constructor
  · rintro ⟨tag, c, hj, he⟩
    have hc := h.content hj
    unfold Expr.ofVariant? at he
    split at he <;> try cases ‹(tag, c) = _›
    · obtain ⟨l, hl, rfl⟩ := Option.map_eq_some_iff.mp he
      exact ⟨c, hj, (Literal.ofJson?_eq_some_iff c l).mp hl⟩
    · obtain ⟨i, hi, rfl⟩ := Option.map_eq_some_iff.mp he
      exact ⟨c, hj, (Ident.ofJson?_eq_some_iff c i).mp hi⟩
    · obtain ⟨v, i, rfl, hrecord⟩ := (record₂_eq_some_iff Expr.attr hc (Ident.readsBelow _)).mp he
      exact ⟨c, hj, hrecord⟩
    · obtain ⟨v, i, rfl, hrecord⟩ := (record₂_eq_some_iff Expr.subscript hc hc).mp he
      exact ⟨c, hj, hrecord⟩
    · obtain ⟨l, r, rfl, hrecord⟩ := (record₂_eq_some_iff Expr.bitOr hc hc).mp he
      exact ⟨c, hj, hrecord⟩
    · obtain ⟨es, rfl, hrecord⟩ := (record₁_eq_some_iff Expr.list (readsBelow_listOf? hc)).mp he
      rw [Expr.Spelled, Expr.spelledAll_eq_map]
      exact ⟨c, hj, hrecord⟩
    · obtain ⟨es, rfl, hrecord⟩ :=
        (record₁_eq_some_iff Expr.dict (readsBelow_listOf? (Entry.readsBelow hc))).mp he
      rw [Expr.Spelled, Expr.spelledEntries_eq_map]
      exact ⟨c, hj, hrecord⟩
    · obtain ⟨f, xs, rfl, hrecord⟩ :=
        (record₂_eq_some_iff Expr.call hc (readsBelow_listOf? (Argument.readsBelow hc))).mp he
      rw [Expr.Spelled, Expr.spelledArguments_eq_map]
      exact ⟨c, hj, hrecord⟩
    · cases he
  · intro he
    cases e with
    | literal l =>
      obtain ⟨c, hj, hl⟩ := he
      exact ⟨_, c, hj, Option.map_eq_some_iff.mpr ⟨l, (Literal.ofJson?_eq_some_iff c l).mpr hl, rfl⟩⟩
    | name i =>
      obtain ⟨c, hj, hi⟩ := he
      exact ⟨_, c, hj, Option.map_eq_some_iff.mpr ⟨i, (Ident.ofJson?_eq_some_iff c i).mpr hi, rfl⟩⟩
    | attr v i =>
      obtain ⟨c, hj, hrecord⟩ := he
      exact ⟨_, c, hj,
        (record₂_eq_some_iff Expr.attr (h.content hj) (Ident.readsBelow _)).mpr ⟨v, i, rfl, hrecord⟩⟩
    | subscript v i =>
      obtain ⟨c, hj, hrecord⟩ := he
      exact ⟨_, c, hj,
        (record₂_eq_some_iff Expr.subscript (h.content hj) (h.content hj)).mpr ⟨v, i, rfl, hrecord⟩⟩
    | bitOr l r =>
      obtain ⟨c, hj, hrecord⟩ := he
      exact ⟨_, c, hj,
        (record₂_eq_some_iff Expr.bitOr (h.content hj) (h.content hj)).mpr ⟨l, r, rfl, hrecord⟩⟩
    | list es =>
      rw [Expr.Spelled, Expr.spelledAll_eq_map] at he
      obtain ⟨c, hj, hrecord⟩ := he
      exact ⟨_, c, hj,
        (record₁_eq_some_iff Expr.list (readsBelow_listOf? (h.content hj))).mpr ⟨es, rfl, hrecord⟩⟩
    | dict es =>
      rw [Expr.Spelled, Expr.spelledEntries_eq_map] at he
      obtain ⟨c, hj, hrecord⟩ := he
      have hentries := readsBelow_listOf? (Entry.readsBelow (h.content hj))
      exact ⟨_, c, hj, (record₁_eq_some_iff Expr.dict hentries).mpr ⟨es, rfl, hrecord⟩⟩
    | call f xs =>
      rw [Expr.Spelled, Expr.spelledArguments_eq_map] at he
      obtain ⟨c, hj, hrecord⟩ := he
      have harguments := readsBelow_listOf? (Argument.readsBelow (h.content hj))
      exact ⟨_, c, hj,
        (record₂_eq_some_iff Expr.call (h.content hj) harguments).mpr ⟨f, xs, rfl, hrecord⟩⟩

end Expressions

theorem Expr.readsBelow_ofJsonWithin? (fuel : Nat) :
    ReadsBelow fuel (Expr.ofJsonWithin? fuel) Expr.Spelled := by
  induction fuel with
  | zero => exact fun j hj => absurd hj (Nat.not_lt_zero _)
  | succ fuel ih =>
    intro j hj e
    exact Expr.ofVariant?_eq_some_iff (ih.mono (Nat.le_of_lt_succ hj)) e

theorem Expr.ofJson?_eq_some_iff (j : Json) (e : Expr) : Expr.ofJson? j = some e ↔ e.Spelled j :=
  Expr.readsBelow_ofJsonWithin? (j.depth + 1) j (Nat.lt_succ_self _) e

theorem Expr.readsBelow (d : Nat) : ReadsBelow d Expr.ofJson? Expr.Spelled :=
  fun j _ => Expr.ofJson?_eq_some_iff j

/-! ## Statements -/

/-- A declaration is read through two records, one inside the other: both are taken apart before
anything in them is read. -/
theorem Stmt.declaration_eq_some_iff {j : Json} {s : Stmt} :
    (do
      let [some target, some type] ← j.fields? ["target", "annotation"] | none
      let [some value] ← type.fields? ["value"] | none
      return .annAssign (← Ident.ofJson? target) (← Expr.ofJson? value)) = some s ↔
    ∃ x t, .annAssign x t = s ∧ j.IsRecord
      [{ name := "target", spelled := x.Spelled },
        { name := "annotation",
          spelled := IsRecord [{ name := "value", spelled := t.Spelled }] }] := by
  simp only [Json.isRecord_iff, List.map_cons, List.map_nil, List.forall₂_cons_left_iff,
    List.forall₂_nil_left_iff, Json.Field.foundAs_iff, Option.bind_eq_bind,
    Option.bind_eq_some_iff, ← Ident.ofJson?_eq_some_iff, ← Expr.ofJson?_eq_some_iff]
  constructor
  · rintro ⟨vs, hvs, hs⟩
    split at hs
    · next target type =>
      obtain ⟨ws, hws, hs⟩ := Option.bind_eq_some_iff.mp hs
      split at hs
      · next value =>
        obtain ⟨x, hx, hs⟩ := Option.bind_eq_some_iff.mp hs
        obtain ⟨t, ht, hs⟩ := Option.bind_eq_some_iff.mp hs
        exact ⟨x, t, Option.some.inj hs, _, hvs, _, _, ⟨target, rfl, hx⟩,
          ⟨_, _, ⟨type, rfl, _, hws, _, _, ⟨value, rfl, ht⟩, rfl, rfl⟩, rfl, rfl⟩, rfl⟩
      · cases hs
    · cases hs
  · rintro ⟨x, t, rfl, vs, hvs, _, _, ⟨target, rfl, hx⟩,
      ⟨_, _, ⟨type, rfl, _, hws, _, _, ⟨value, rfl, ht⟩, rfl, rfl⟩, rfl, rfl⟩, rfl⟩
    exact ⟨_, hvs, by simp [hws, hx, ht]⟩

/-- One step of the reading of the statements that have a content. -/
theorem Stmt.ofVariant?_eq_some_iff {read : Json → Option Stmt} {j : Json}
    (h : ReadsBelow j.depth read Stmt.Spelled) (s : Stmt) :
    j.variant?.bind (Stmt.ofVariant? read) = some s ↔ s.Spelled j ∧ j ≠ .string "Pass" := by
  rw [Json.bind_variant?_eq_some_iff]
  constructor
  · rintro ⟨tag, c, hj, hs⟩
    refine ⟨?_, by rw [hj]; exact fun h => (nomatch h)⟩
    have hc := h.content hj
    unfold Stmt.ofVariant? at hs
    split at hs <;> try cases ‹(tag, c) = _›
    · obtain ⟨source, names, rfl, hrecord⟩ :=
        (record₂_eq_some_iff Stmt.importFrom (Expr.readsBelow _) (readsBelow_listOf? (Ident.readsBelow _))).mp hs
      exact ⟨c, hj, hrecord⟩
    · obtain ⟨name, bases, body, rfl, hrecord⟩ :=
        (record₃_eq_some_iff Stmt.classDef (Ident.readsBelow _) (readsBelow_listOf? (Expr.readsBelow _))
          (readsBelow_listOf? hc)).mp hs
      rw [Stmt.Spelled, Stmt.spelledAll_eq_map]
      exact ⟨c, hj, hrecord⟩
    · obtain ⟨x, v, rfl, hrecord⟩ :=
        (record₂_eq_some_iff Stmt.assign (Ident.readsBelow _) (Expr.readsBelow _)).mp hs
      exact ⟨c, hj, hrecord⟩
    · obtain ⟨x, t, rfl, hrecord⟩ := Stmt.declaration_eq_some_iff.mp hs
      exact ⟨c, hj, hrecord⟩
    · obtain ⟨e, he, rfl⟩ := Option.map_eq_some_iff.mp hs
      exact ⟨c, hj, (Expr.ofJson?_eq_some_iff c e).mp he⟩
    · cases hs
      exact .inr ⟨.null, hj, rfl⟩
    · cases hs
  · rintro ⟨hs, hne⟩
    cases s with
    | importFrom source names =>
      obtain ⟨c, hj, hrecord⟩ := hs
      exact ⟨_, c, hj,
        (record₂_eq_some_iff Stmt.importFrom (Expr.readsBelow _) (readsBelow_listOf? (Ident.readsBelow _))).mpr
          ⟨source, names, rfl, hrecord⟩⟩
    | classDef name bases body =>
      rw [Stmt.Spelled, Stmt.spelledAll_eq_map] at hs
      obtain ⟨c, hj, hrecord⟩ := hs
      exact ⟨_, c, hj,
        (record₃_eq_some_iff Stmt.classDef (Ident.readsBelow _) (readsBelow_listOf? (Expr.readsBelow _))
          (readsBelow_listOf? (h.content hj))).mpr ⟨name, bases, body, rfl, hrecord⟩⟩
    | assign x v =>
      obtain ⟨c, hj, hrecord⟩ := hs
      exact ⟨_, c, hj,
        (record₂_eq_some_iff Stmt.assign (Ident.readsBelow _) (Expr.readsBelow _)).mpr ⟨x, v, rfl, hrecord⟩⟩
    | annAssign x t =>
      obtain ⟨c, hj, hrecord⟩ := hs
      exact ⟨_, c, hj, Stmt.declaration_eq_some_iff.mpr ⟨x, t, rfl, hrecord⟩⟩
    | expr e =>
      obtain ⟨c, hj, he⟩ := hs
      exact ⟨_, c, hj, Option.map_eq_some_iff.mpr ⟨e, (Expr.ofJson?_eq_some_iff c e).mpr he, rfl⟩⟩
    | pass =>
      obtain rfl | ⟨c, hj, rfl⟩ := hs
      · exact absurd rfl hne
      · exact ⟨_, _, hj, rfl⟩

/-- A bare text spells the statement without content and no other. -/
theorem Stmt.spelled_string_iff {s : Stmt} {text : String} :
    s.Spelled (.string text) ↔ text = "Pass" ∧ s = .pass := by
  cases s <;> simp [Stmt.Spelled, Json.IsVariant]

theorem Stmt.readsBelow_ofJsonWithin? (fuel : Nat) :
    ReadsBelow fuel (Stmt.ofJsonWithin? fuel) Stmt.Spelled := by
  induction fuel with
  | zero => exact fun j hj => absurd hj (Nat.not_lt_zero _)
  | succ fuel ih =>
    intro j hj s
    cases j with
    | string text =>
      rw [Stmt.spelled_string_iff, Stmt.ofJsonWithin?]
      split
      · next htext => simp [htext, eq_comm]
      · next htext => simp [htext]
    | _ =>
      refine (Stmt.ofVariant?_eq_some_iff (ih.mono (Nat.le_of_lt_succ hj)) s).trans ?_
      exact and_iff_left fun h => (nomatch h)

theorem Stmt.ofJson?_eq_some_iff (j : Json) (s : Stmt) : Stmt.ofJson? j = some s ↔ s.Spelled j :=
  Stmt.readsBelow_ofJsonWithin? (j.depth + 1) j (Nat.lt_succ_self _) s

/-! ## Modules and nodes -/

theorem Module.ofJson?_eq_some_iff (j : Json) (m : Module) :
    Module.ofJson? j = some m ↔ m.Spelled j := by
  have hbody : ReadsBelow j.depth (Json.listOf? Stmt.ofJson?) fun ss =>
      IsList (ss.map Stmt.Spelled) :=
    readsBelow_listOf? fun i _ => Stmt.ofJson?_eq_some_iff i
  refine (record₁_eq_some_iff Module.mk hbody).trans ?_
  constructor
  · rintro ⟨body, rfl, h⟩
    exact h
  · exact fun h => ⟨m.body, rfl, h⟩

theorem Node.ofJson?_eq_some_iff (j : Json) (n : Node) : Node.ofJson? j = some n ↔ n.Spelled j := by
  refine Json.bind_variant?_eq_some_iff.trans ?_
  constructor
  · rintro ⟨tag, c, hj, hn⟩
    split at hn
    · next heq =>
      cases heq
      obtain ⟨m, hm, hn⟩ := Option.bind_eq_some_iff.mp hn
      cases hn
      exact ⟨c, hj, (Module.ofJson?_eq_some_iff c m).mp hm⟩
    · next heq =>
      cases heq
      obtain ⟨s, hs, hn⟩ := Option.bind_eq_some_iff.mp hn
      cases hn
      exact ⟨c, hj, (Stmt.ofJson?_eq_some_iff c s).mp hs⟩
    · next heq =>
      cases heq
      obtain ⟨e, he, hn⟩ := Option.bind_eq_some_iff.mp hn
      cases hn
      exact ⟨c, hj, (Expr.ofJson?_eq_some_iff c e).mp he⟩
    · cases hn
  · intro hn
    cases n with
    | module m =>
      obtain ⟨c, hj, hm⟩ := hn
      exact ⟨_, c, hj, Option.bind_eq_some_iff.mpr ⟨m, (Module.ofJson?_eq_some_iff c m).mpr hm, rfl⟩⟩
    | stmt s =>
      obtain ⟨c, hj, hs⟩ := hn
      exact ⟨_, c, hj, Option.bind_eq_some_iff.mpr ⟨s, (Stmt.ofJson?_eq_some_iff c s).mpr hs, rfl⟩⟩
    | expr e =>
      obtain ⟨c, hj, he⟩ := hn
      exact ⟨_, c, hj, Option.bind_eq_some_iff.mpr ⟨e, (Expr.ofJson?_eq_some_iff c e).mpr he, rfl⟩⟩

/-- Reading yields a tree exactly if the value spells it, and fails exactly if it spells none. -/
theorem Node.ofJson?_accepts_spellings (j : Json) :
    (∀ n, Node.ofJson? j = some n ↔ n.Spelled j) ∧
      (Node.ofJson? j = none ↔ ∀ n : Node, ¬ n.Spelled j) := by
  refine ⟨Node.ofJson?_eq_some_iff j, ?_⟩
  simp only [Option.eq_none_iff_forall_ne_some, ne_eq, Node.ofJson?_eq_some_iff]

end ScriptTree
