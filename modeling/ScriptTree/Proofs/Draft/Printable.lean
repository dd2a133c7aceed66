import ScriptTree.Draft
import ScriptTree.Proofs.Draft.Built
import ScriptTree.Proofs.Print.Outline
import ScriptTree.Proofs.Word

/-!
# Built drafts have code

A draft that constructors and successful steps lead to is printed under all options: whatever can
be wrong with it was refused while it was built. The exceptions are the texts and fragments that
nothing checks; these must be non-empty and without empty identifiers. The reason is the same for
every kind of draft. What it holds is named, and no step can make it hold anything else.
-/
namespace ScriptTree

open Outcome (bind_eq_ok_iff)

namespace Draft

/-! ## Named expressions -/

/-- Nothing without a name is given. -/
def Supply.named : Supply where
  name := (· ≠ "")
  keyword := (· ≠ "")
  type := (· ≠ "")
  fragment := Expr.Named

theorem Supply.covers_named : named.Covers fun s => ∀ i ∈ s.idents, i.name ≠ "" where
  literal := fun _ => List.forall_mem_nil _
  name := fun _ h => List.forall_mem_singleton.mpr h
  fragment := fun _ h => h
  path := fun _ h => h.named
  list := fun _ => List.forall_mem_nil _
  mapping := fun _ => List.forall_mem_nil _
  call := by
    intro c h i hi
    obtain ⟨x, hx, hkeyword⟩ := List.mem_filterMap.mp hi
    rcases List.mem_append.mp hx with harg | hkwarg
    · obtain ⟨e, -, rfl⟩ := List.mem_map.mp harg
      cases hkeyword
    · obtain ⟨e, he, rfl⟩ := List.mem_map.mp hkwarg
      cases hkeyword
      exact (h.kwargs e he).1
  merge := fun _ _ _ => List.forall_mem_nil _

section Named

open Supply (covers_named)

theorem named_resolve {v : Value} (h : v.Built .named) : v.resolve.Named :=
  h.everywhere covers_named

theorem named_path {path : String} {e : Expr} (h : Path.expr path = .ok e) : e.Named :=
  (Path.spine_of_expr h).named

theorem Sequence.Built.named {s : Sequence} (h : s.Built .named) : s.toExpr.Named := by
  have helements : ∀ e ∈ s.elements, e.Named := by
    induction h with
    | empty => exact List.forall_mem_nil _
    | ofValues h =>
      rw [Sequence.elements_ofValues]
      exact List.forall_mem_map.mpr fun v hv => named_resolve (h v hv)
    | add _ hv ih =>
      exact List.forall_mem_append.mpr ⟨ih, List.forall_mem_singleton.mpr (named_resolve hv)⟩
  exact covers_named.everywhere_list helements

theorem TypeToken.named_toExpr {t : TypeToken} (h : ∀ s ∈ t.texts, s ≠ "") : t.toExpr.Named := by
  have hname {s : String} (hs : s ≠ "") : (Expr.ofName s).Named :=
    Expr.everywhere_name.mpr (List.forall_mem_singleton.mpr hs)
  cases t with
  | name text => exact hname (h text (.head _))
  | list inner =>
    cases inner with
    | none => exact hname (by decide)
    | some inner =>
      refine Expr.everywhere_subscript.mpr ⟨List.forall_mem_nil _, hname (by decide), ?_⟩
      exact hname (h inner (.head _))

theorem TypeUnion.named_unionExpr {ts : List TypeToken} {t : TypeToken}
    (h : ∀ u ∈ t :: ts, ∀ s ∈ u.texts, s ≠ "") : (unionExpr t ts).Named := by
  induction ts generalizing t with
  | nil => exact TypeToken.named_toExpr (h t (.head _))
  | cons u ts ih =>
    obtain ⟨ht, hrest⟩ := List.forall_mem_cons.mp h
    exact Expr.everywhere_bitOr.mpr
      ⟨List.forall_mem_nil _, TypeToken.named_toExpr ht, ih hrest⟩

theorem TypeUnion.Built.named {u : TypeUnion} (h : u.Built .named) : u.toExpr.Named := by
  have htokens : ∀ t ∈ u.tokens, ∀ s ∈ t.texts, s ≠ "" := by
    induction h with
    | ofToken h => exact List.forall_mem_singleton.mpr h
    | @or u t _ ht ih =>
      have htoken : (u.or t).tokens = u.tokens ++ [t] := rfl
      rw [htoken]
      exact List.forall_mem_append.mpr ⟨ih, List.forall_mem_singleton.mpr ht⟩
  exact named_unionExpr htokens

end Named

/-! ## Named statements -/

theorem ne_empty_of_check {name : String} {i : Ident} (h : Ident.check name = .ok i) :
    i.name ≠ "" := by
  obtain ⟨hcheck, rfl⟩ := (Ident.check_eq_ok_iff name i).mp h
  exact ne_empty_of_isIdentifier hcheck

/-- A line that carries one identifier and one expression is well named if both are. -/
theorem wellNamed_of_single {s : Stmt} {i : Ident} {e : Expr} (hidents : s.idents = [i])
    (hexprs : s.exprs = [e]) (himports : s.importsNothing = false) (hi : i.name ≠ "")
    (he : e.Named) : s.WellNamed (·.name ≠ "") where
  idents := by
    rw [hidents]
    exact List.forall_mem_singleton.mpr hi
  exprs := by
    rw [hexprs]
    exact List.forall_mem_singleton.mpr he
  imports := himports

/-- A request that was refused for neither its path nor its symbol prints as a line. -/
theorem Import.Built.wellNamed {i : Import} (h : i.Built) : i.toStmt.WellNamed (·.name ≠ "") := by
  obtain ⟨hpath⟩ := h
  rw [Import.ofPath] at hpath
  split at hpath
  · cases hpath
  · next source hsource =>
    obtain ⟨s, hs, hi⟩ := bind_eq_ok_iff.mp hpath
    cases hi
    have hnamed : source.Named := named_path (Path.expr_of_moduleExpr hsource)
    exact wellNamed_of_single rfl rfl rfl (ne_empty_of_check hs) hnamed

theorem Assignment.Built.wellNamed {a : Assignment} (h : a.Built .named) :
    a.toStmt.WellNamed (·.name ≠ "") := by
  obtain ⟨hv, htarget⟩ := h
  obtain ⟨i, hi, ha⟩ := bind_eq_ok_iff.mp htarget
  cases ha
  exact wellNamed_of_single rfl rfl rfl (ne_empty_of_check hi) (named_resolve hv)

/-- What a class keeps from step to step. -/
structure Class.Named (c : Class) : Prop where
  name : c.name.name ≠ ""
  bases : ∀ e ∈ c.bases, e.Named
  fields : ∀ f ∈ c.fields, f.toStmt.WellNamed (·.name ≠ "")

namespace Class

variable {c c' : Class}

theorem Named.addBase (hc : c.Named) {path : String} (h : c.addBase path = .ok c') : c'.Named := by
  obtain ⟨e, he, hc'⟩ := bind_eq_ok_iff.mp h
  cases hc'
  exact
    { name := hc.name
      bases := List.forall_mem_append.mpr ⟨hc.bases, List.forall_mem_singleton.mpr (named_path he)⟩
      fields := hc.fields }

theorem Named.append (hc : c.Named) {f : Field} (hf : f.toStmt.WellNamed (·.name ≠ "")) :
    Named { c with fields := c.fields ++ [f] } where
  name := hc.name
  bases := hc.bases
  fields := List.forall_mem_append.mpr ⟨hc.fields, List.forall_mem_singleton.mpr hf⟩

theorem Named.addField (hc : c.Named) {name : String} {v : Value} (hv : v.Built .named)
    (h : c.addField name v = .ok c') : c'.Named := by
  obtain ⟨i, hi, hc'⟩ := bind_eq_ok_iff.mp h
  cases hc'
  exact hc.append (wellNamed_of_single rfl rfl rfl (ne_empty_of_check hi) (named_resolve hv))

theorem Named.addTypedField (hc : c.Named) {name : String} {u : TypeUnion} (hu : u.Built .named)
    (h : c.addTypedField name u = .ok c') : c'.Named := by
  obtain ⟨i, hi, hc'⟩ := bind_eq_ok_iff.mp h
  cases hc'
  exact hc.append (wellNamed_of_single rfl rfl rfl (ne_empty_of_check hi) hu.named)

theorem Named.step (hc : c.Named) {t : Step} (hvalues : ∀ v ∈ t.values, v.Built .named)
    (htypes : ∀ u ∈ t.types, u.Built .named) (h : c.step t = .ok c') : c'.Named := by
  cases t with
  | base path => exact hc.addBase h
  | field name v => exact hc.addField (hvalues v (.head _)) h
  | typedField name u => exact hc.addTypedField (htypes u (.head _)) h
  | declare name value type =>
    -- Without exactly one of the two the step would have failed.
    cases value with
    | none =>
      cases type with
      | none => cases h
      | some u => exact hc.addTypedField (htypes u (.head _)) h
    | some v =>
      cases type with
      | none => exact hc.addField (hvalues v (.head _)) h
      | some u => cases h

theorem Built.named (h : c.Built .named) : c.Named := by
  induction h with
  | ofName h =>
    obtain ⟨i, hi, hc⟩ := bind_eq_ok_iff.mp h
    cases hc
    exact ⟨ne_empty_of_check hi, List.forall_mem_nil _, List.forall_mem_nil _⟩
  | step _ hvalues htypes h ih => exact ih.step hvalues htypes h

theorem Named.toStmt (hc : c.Named) : ∀ t ∈ c.toStmt.preorder, t.WellNamed (·.name ≠ "") := by
  have hheader : c.toStmt.WellNamed (·.name ≠ "") :=
    ⟨List.forall_mem_singleton.mpr hc.name, hc.bases, rfl⟩
  have hpass : Stmt.pass.WellNamed (·.name ≠ "") :=
    ⟨List.forall_mem_nil _, List.forall_mem_nil _, rfl⟩
  refine Stmt.forall_preorder_classDef.mpr ⟨hheader, Stmt.allNamed_iff.mpr ?_⟩
  split
  · exact List.forall_mem_singleton.mpr (List.forall_mem_singleton.mpr hpass)
  · refine List.forall_mem_map.mpr fun f hf => ?_
    have hline : f.toStmt.isClass = false := by
      cases f with
      | assigned target value => rfl
      | typed target type => rfl
    exact (Stmt.forall_preorder_of_not_isClass hline).mpr (hc.fields f hf)

end Class

namespace Module

/-- Every statement of a module is named at every depth, whichever step brought it in. -/
def Named (m : Module) : Prop :=
  (∀ i ∈ m.imports, i.toStmt.WellNamed (·.name ≠ "")) ∧ Stmt.AllNamed (·.name ≠ "") m.statements

variable {m : Module}

theorem named_addable {s : Stmt} (h : Addable .named s) :
    ∀ t ∈ s.preorder, t.WellNamed (·.name ≠ "") := by
  cases h with
  | importFrom h => exact (Stmt.forall_preorder_of_not_isClass rfl).mpr h.wellNamed
  | assignment h => exact (Stmt.forall_preorder_of_not_isClass rfl).mpr h.wellNamed
  | classDef h => exact h.named.toStmt

theorem Named.addImport (hm : m.Named) {i : Import} (hi : i.Built) : (m.addImport i).Named := by
  refine ⟨?_, hm.2⟩
  show ∀ j ∈ i.insert m.imports, _
  rw [Import.insert]
  split
  · exact hm.1
  · exact List.forall_mem_append.mpr ⟨hm.1, List.forall_mem_singleton.mpr hi.wellNamed⟩

theorem Built.named (h : m.Built .named) : m.Named := by
  induction h with
  | empty => exact ⟨List.forall_mem_nil _, List.forall_mem_nil _⟩
  | add _ hs ih =>
    refine ⟨ih.1, Stmt.allNamed_iff.mpr (List.forall_mem_append.mpr ⟨?_, ?_⟩)⟩
    · exact Stmt.allNamed_iff.mp ih.2
    · exact List.forall_mem_singleton.mpr (named_addable hs)
  | addImport _ hi ih => exact ih.addImport hi
  | requireImport _ h ih =>
    obtain ⟨i, hi, hm'⟩ := bind_eq_ok_iff.mp h
    cases hm'
    exact ih.addImport (.ofPath hi)

theorem Named.toModule (hm : m.Named) : Stmt.AllNamed (·.name ≠ "") m.toModule.body := by
  refine Stmt.allNamed_iff.mpr (List.forall_mem_append.mpr ⟨?_, Stmt.allNamed_iff.mp hm.2⟩)
  exact List.forall_mem_map.mpr fun i hi =>
    (Stmt.forall_preorder_of_not_isClass rfl).mpr (hm.1 i hi)

end Module

/-! ## Code -/

/-- The tree of a built draft of any kind is named. -/
theorem Built.named {d : Draft} (h : d.Built .named) : d.toNode.Named := by
  cases h with
  | attr h => exact (h.everywhere Supply.covers_named).1
  | sequence h => exact h.named
  | mapping h => exact Supply.covers_named.everywhere_mapping (h.everywhere Supply.covers_named)
  | call h => exact Supply.covers_named.everywhere_call (h.sound Supply.covers_named)
  | typeUnion h => exact h.named
  | importFrom h => exact (Stmt.forall_preorder_of_not_isClass rfl).mpr h.wellNamed
  | assignment h => exact (Stmt.forall_preorder_of_not_isClass rfl).mpr h.wellNamed
  | classDef h => exact h.named.toStmt
  | module h => exact h.named.toModule

/-- A built draft has code, under the default options and under all others. -/
theorem exists_code {d : Draft} (h : d.Built .named) :
    (∃ s, d.code = .ok s) ∧ ∀ o, ∃ s, d.codeWith o = .ok s :=
  ⟨Node.exists_renderWith h.named {}, fun o => Node.exists_renderWith h.named o⟩

/-! A module that imports `Base` and holds the class

    class Job(core.Base):
        limit: int | list[str]
        run = start([x], key = "k")

whose list is a fragment. -/

def baseImport : Import := ⟨"core", ⟨"Base"⟩, .ofName "core", by decide +kernel⟩

def limitType : TypeUnion := (TypeUnion.ofToken (.name "int")).or (.list (some "str"))

def startCall : Call := ⟨.ofName "start", [], []⟩

def runValue : Value :=
  .call ((startCall.step (.arg (.raw (.list [.ofName "x"])))).step (.kwarg "key" (.string "k")))

def jobClass : Class :=
  ⟨⟨"Job"⟩, [.attr (.ofName "core") ⟨"Base"⟩],
    [.typed ⟨"limit"⟩ limitType.toExpr, .assigned ⟨"run"⟩ runValue.resolve]⟩

def jobModule : Module := (Module.empty.add jobClass.toStmt).addImport baseImport

theorem exists_code_jobModule :
    (Draft.module jobModule).Built .named ∧ (∃ s, (Draft.module jobModule).code = .ok s) ∧
      ∀ o, ∃ s, (Draft.module jobModule).codeWith o = .ok s := by
  have hcallee : Call.ofCallee "start" = .ok startCall := by decide +kernel
  have hfragment : (Expr.list [.ofName "x"]).AllIdents (·.name ≠ "") := by decide
  have hkey : "key" ≠ "" := by decide
  have hint : "int" ≠ "" := by decide
  have hstr : "str" ≠ "" := by decide
  have hrun : runValue.Built .named := by
    refine .call (.step (.step (.ofCallee hcallee) ?_ (List.forall_mem_nil _)) ?_ ?_)
    · exact List.forall_mem_singleton.mpr (.raw hfragment)
    · exact List.forall_mem_singleton.mpr (.string "k")
    · exact List.forall_mem_singleton.mpr hkey
  have hlimit : limitType.Built .named :=
    .or (.ofToken (List.forall_mem_singleton.mpr hint)) (List.forall_mem_singleton.mpr hstr)
  have hname : Class.Built .named ⟨⟨"Job"⟩, [], []⟩ :=
    .ofName (show Class.ofName "Job" = _ by decide +kernel)
  have hbase : Class.Built .named ⟨⟨"Job"⟩, [.attr (.ofName "core") ⟨"Base"⟩], []⟩ :=
    .step (t := .base "core.Base") hname (List.forall_mem_nil _) (List.forall_mem_nil _)
      (by decide +kernel)
  have hfield : Class.Built .named
      ⟨⟨"Job"⟩, [.attr (.ofName "core") ⟨"Base"⟩], [.typed ⟨"limit"⟩ limitType.toExpr]⟩ :=
    .step (t := .typedField "limit" limitType) hbase (List.forall_mem_nil _)
      (List.forall_mem_singleton.mpr hlimit) (by decide +kernel)
  have hclass : jobClass.Built .named :=
    .step (t := .field "run" runValue) hfield (List.forall_mem_singleton.mpr hrun)
      (List.forall_mem_nil _) (by decide +kernel)
  have himport : Import.ofPath "core" "Base" = .ok baseImport := by decide +kernel
  have hbuilt : (Draft.module jobModule).Built .named :=
    .module (.addImport (.add .empty (.classDef hclass)) (.ofPath himport))
  exact ⟨hbuilt, exists_code hbuilt⟩

end Draft

end ScriptTree
