import ScriptTree.Draft.Run
import ScriptTree.Proofs.Draft.Agreement

/-!
# What a class collects

A step of a class adds one base, adds one field or fails, and which of these it does depends on the
step alone. So two lists describe a run: the bases and the fields that its successful steps add, each
in the order of the steps. The statement of the class has the first list as its bases and one line
for each member of the second; without fields it has the line `pass`, which no field prints as. The
failures leave no trace.
-/
namespace ScriptTree.Draft

open Outcome (bind_eq_ok_iff pure_eq_ok_iff)

/-- The identifier that a field declares. -/
def Field.target : Field → Ident
  | assigned target _ => target
  | typed target _ => target

/-- A field under a name, if the name is an identifier. -/
def Field.named? (name : String) (make : Ident → Field) : Option Field :=
  if isIdentifier name.toList then some (make ⟨name⟩) else none

theorem Field.named?_eq_some_iff {name : String} {make : Ident → Field} {f : Field} :
    named? name make = some f ↔ isIdentifier name.toList = true ∧ make ⟨name⟩ = f := by
  rw [named?]
  split
  · next h => simp [h]
  · next h => simp [h]

namespace Class

/-! ## Steps -/

namespace Step

/-- The cases of a step in which a declaration has a form, and the one in which it has none. -/
@[elab_as_elim]
theorem cases_form {motive : Step → Prop}
    (base : ∀ path, motive (.base path))
    (field : ∀ name value, motive (.field name value))
    (typedField : ∀ name type, motive (.typedField name type))
    (declareValue : ∀ name value, motive (.declare name (some value) none))
    (declareType : ∀ name type, motive (.declare name none (some type)))
    (declareNeither : ∀ name, motive (.declare name none none))
    (declareBoth : ∀ name value type, motive (.declare name (some value) (some type)))
    (t : Step) : motive t := by
  cases t with
  | base path => exact base path
  | field name value => exact field name value
  | typedField name type => exact typedField name type
  | declare name value type =>
    cases value with
    | none =>
      cases type with
      | none => exact declareNeither name
      | some type => exact declareType name type
    | some value =>
      cases type with
      | none => exact declareValue name value
      | some type => exact declareBoth name value type

/-- The base that a step adds: the tree of its path, if the path has one. -/
def base? : Step → Option Expr
  | .base path => (Path.expr path).toOption
  | .field _ _ => none
  | .typedField _ _ => none
  | .declare _ _ _ => none

/-- The field that a step adds. A declaration with a value or a type and not both adds what the step
for that form adds. -/
def field? : Step → Option Field
  | .base _ => none
  | .field name value => Field.named? name fun i => .assigned i value.resolve
  | .typedField name type => Field.named? name fun i => .typed i type.toExpr
  | .declare name (some value) none => Field.named? name fun i => .assigned i value.resolve
  | .declare name none (some type) => Field.named? name fun i => .typed i type.toExpr
  | .declare _ none none => none
  | .declare _ (some _) (some _) => none

end Step

/-- The class with what a step adds to it. -/
def grown (c : Class) (t : Step) : Class :=
  ⟨c.name, c.bases ++ t.base?.toList, c.fields ++ t.field?.toList⟩

section Steps

variable {c c' : Class} {t : Step}

theorem addBase_eq_ok_iff {path : String} :
    c.addBase path = .ok c' ↔ (Step.base path).base? ≠ none ∧ c.grown (.base path) = c' := by
  rw [addBase, grown, Step.base?, Step.field?]
  cases Path.expr path with
  | error e => simp [Except.toOption, bind, Except.bind]
  | ok e => simp [Except.toOption, bind, Except.bind, pure, Except.pure]

/-- The two forms of a field are added in the same way. -/
theorem append_eq_ok_iff {name : String} {make : Ident → Field} :
    (Ident.check name >>= fun i => pure { c with fields := c.fields ++ [make i] }) = .ok c' ↔
      Field.named? name make ≠ none ∧
        ⟨c.name, c.bases, c.fields ++ (Field.named? name make).toList⟩ = c' := by
  rw [Ident.check, Field.named?]
  split
  · simp [bind, Except.bind, pure, Except.pure]
  · simp [bind, Except.bind]

/-- A step succeeds exactly if it has something to add, and then adds it. -/
theorem step_eq_ok_iff :
    step c t = .ok c' ↔ (t.base? ≠ none ∨ t.field? ≠ none) ∧ c.grown t = c' := by
  have hfield {name : String} {make : Ident → Field} (hbase : t.base? = none)
      (hfield : t.field? = Field.named? name make) :
      (Ident.check name >>= fun i => pure { c with fields := c.fields ++ [make i] }) = .ok c' ↔
        (t.base? ≠ none ∨ t.field? ≠ none) ∧ c.grown t = c' := by
    rw [append_eq_ok_iff, grown, hbase, hfield]
    simp
  cases t using Step.cases_form with
  | base path =>
    rw [step, addBase_eq_ok_iff]
    simp [Step.field?]
  | field name value => exact hfield rfl rfl
  | typedField name type => exact hfield rfl rfl
  | declareValue name value => exact hfield rfl rfl
  | declareType name type => exact hfield rfl rfl
  | declareNeither name => simp [step, declare, Step.base?, Step.field?]
  | declareBoth name value type => simp [step, declare, Step.base?, Step.field?]

/-- A step of a run adds what it has to add; a step that fails has nothing. -/
theorem settle_eq (c : Class) (t : Step) : settle step c t = c.grown t := by
  rw [settle]
  split
  · next d hd => exact (step_eq_ok_iff.mp hd).2.symm
  · next e he =>
    have hnone : ¬ (t.base? ≠ none ∨ t.field? ≠ none) := by
      intro h
      have hok : step c t = .ok (c.grown t) := step_eq_ok_iff.mpr ⟨h, rfl⟩
      rw [he] at hok
      cases hok
    obtain ⟨hbase, hfield⟩ := not_or.mp hnone
    rw [grown, not_not.mp hbase, not_not.mp hfield, Option.toList_none, Option.toList_none,
      List.append_nil, List.append_nil]

end Steps

/-! ## Runs -/

/-- The bases that a run adds. -/
def addedBases (ts : List Step) : List Expr := ts.filterMap Step.base?

/-- The fields that a run adds. -/
def addedFields (ts : List Step) : List Field := ts.filterMap Step.field?

theorem run_eq (c : Class) (ts : List Step) :
    run step c ts = ⟨c.name, c.bases ++ addedBases ts, c.fields ++ addedFields ts⟩ := by
  induction ts generalizing c with
  | nil => simp [run, addedBases, addedFields]
  | cons t ts ih =>
    rw [run, List.foldl_cons, ← run, ih, settle_eq, grown, addedBases, addedBases, addedFields,
      addedFields]
    cases hb : t.base? <;> cases hf : t.field? <;> simp [hb, hf]

/-- The target of every field that a run adds was checked. -/
theorem isIdentifier_target {ts : List Step} {f : Field} (hf : f ∈ addedFields ts) :
    isIdentifier f.target.name.toList = true := by
  obtain ⟨t, -, ht⟩ := List.mem_filterMap.mp hf
  have hnamed (name : String) (make : Ident → Field) (hfield : t.field? = Field.named? name make)
      (hmake : ∀ i, (make i).target = i) : isIdentifier f.target.name.toList = true := by
    rw [hfield, Field.named?_eq_some_iff] at ht
    obtain ⟨hname, rfl⟩ := ht
    rw [hmake]
    exact hname
  cases t using Step.cases_form with
  | base path => cases ht
  | field name value => exact hnamed name (.assigned · value.resolve) rfl fun i => rfl
  | typedField name type => exact hnamed name (.typed · type.toExpr) rfl fun i => rfl
  | declareValue name value => exact hnamed name (.assigned · value.resolve) rfl fun i => rfl
  | declareType name type => exact hnamed name (.typed · type.toExpr) rfl fun i => rfl
  | declareNeither name => cases ht
  | declareBoth name value type => cases ht

/-- What stands in a class with these fields. -/
def block (fs : List Field) : List Stmt := if fs.isEmpty then [.pass] else fs.map Field.toStmt

theorem block_of_ne_nil {fs : List Field} (h : fs ≠ []) : block fs = fs.map Field.toStmt :=
  if_neg (fun hempty => h (List.isEmpty_iff.mp hempty))

theorem block_eq_pass_iff {fs : List Field} : block fs = [.pass] ↔ fs = [] := by
  constructor
  · exact fun h => @body_injective fs [] h
  · intro h
    rw [h]
    rfl

theorem ofName_eq_ok_iff {name : String} {c : Class} :
    ofName name = .ok c ↔ isIdentifier name.toList = true ∧ ⟨⟨name⟩, [], []⟩ = c := by
  rw [ofName]
  simp only [bind_eq_ok_iff, pure_eq_ok_iff, Ident.check_eq_ok_iff]
  constructor
  · intro h
    obtain ⟨i, ⟨hname, rfl⟩, rfl⟩ := h
    exact ⟨hname, rfl⟩
  · intro h
    obtain ⟨hname, rfl⟩ := h
    exact ⟨⟨name⟩, ⟨hname, rfl⟩, rfl⟩

/-- After any run of an accepted class its statement has the bases and the lines that the successful
steps add, in order, and `pass` exactly if none of them adds a line. Every step does the same in all
states of the class: it succeeds if it has something to add, and a declaration does what the step for
its form does, in success and in failure, or is refused for having no form. -/
theorem toStmt_run (name : String) (c : Class) (h : ofName name = .ok c) (ts : List Step) :
    (∃ body, (run step c ts).toStmt = .classDef ⟨name⟩ (addedBases ts) body ∧
      (addedFields ts ≠ [] → body = (addedFields ts).map Field.toStmt) ∧
      (body = [.pass] ↔ ∀ t ∈ ts, t.field? = none)) ∧
    (∀ f ∈ addedFields ts, isIdentifier f.target.name.toList = true) ∧
    (∀ d d' t, step d t = .ok d' ↔ (t.base? ≠ none ∨ t.field? ≠ none) ∧ d.grown t = d') ∧
    (∀ d x v, step d (.declare x (some v) none) = step d (.field x v)) ∧
    (∀ d x u, step d (.declare x none (some u)) = step d (.typedField x u)) ∧
    (∀ d x, step d (.declare x none none) =
      .error (.unimplementedFeature ("field `" ++ x ++ "` without a value or a type"))) ∧
    ∀ d x v u, step d (.declare x (some v) (some u)) =
      .error (.unimplementedFeature ("field `" ++ x ++ "` with both a value and a type")) := by
  obtain ⟨-, rfl⟩ := ofName_eq_ok_iff.mp h
  refine ⟨⟨block (addedFields ts), ?_, block_of_ne_nil, ?_⟩, fun f => isIdentifier_target,
    fun d d' t => step_eq_ok_iff, fun d x v => rfl, fun d x u => rfl, fun d x => rfl,
    fun d x v u => rfl⟩
  · rw [run_eq, List.nil_append, List.nil_append]
    rfl
  · rw [block_eq_pass_iff, addedFields, List.filterMap_eq_nil_iff]

/-- A run in which a base, a field and a declaration fail. -/
def jobRun : List Step :=
  [.base "core.Base", .base "core..Base", .field "1st" (.int 1), .declare "limit" none none,
    .declare "limit" none (some ((TypeUnion.ofToken (.name "int")).or (.list none))),
    .base "Job", .field "run" (.string "now")]

theorem toStmt_run_job :
    ofName "Job" = .ok ⟨⟨"Job"⟩, [], []⟩ ∧
      (run step ⟨⟨"Job"⟩, [], []⟩ jobRun).toStmt =
        .classDef ⟨"Job"⟩ [.attr (.ofName "core") ⟨"Base"⟩, .ofName "Job"]
          [.annAssign ⟨"limit"⟩ (.bitOr (.ofName "int") (.ofName "list")),
            .assign ⟨"run"⟩ (.string "now")] ∧
      (run step ⟨⟨"Job"⟩, [], []⟩ [.base "Job"]).toStmt =
        .classDef ⟨"Job"⟩ [.ofName "Job"] [.pass] := by
  have hname : ofName "Job" = .ok ⟨⟨"Job"⟩, [], []⟩ := by decide +kernel
  have hbases : addedBases jobRun = [.attr (.ofName "core") ⟨"Base"⟩, .ofName "Job"] := by
    decide +kernel
  have hfields : addedFields jobRun =
      [.typed ⟨"limit"⟩ (.bitOr (.ofName "int") (.ofName "list")),
        .assigned ⟨"run"⟩ (.string "now")] := by
    decide +kernel
  have hbase : addedBases [.base "Job"] = [.ofName "Job"] := by decide +kernel
  obtain ⟨⟨body, htree, hlines, -⟩, -⟩ := toStmt_run "Job" _ hname jobRun
  obtain ⟨⟨rest, hsingle, -, hpass⟩, -⟩ := toStmt_run "Job" _ hname [.base "Job"]
  refine ⟨hname, ?_, ?_⟩
  · rw [htree, hlines (by rw [hfields]; decide), hbases, hfields]
    rfl
  · rw [hsingle, hpass.mpr (List.forall_mem_singleton.mpr rfl), hbase]

end Class

end ScriptTree.Draft
