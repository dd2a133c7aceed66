import ScriptTree.Draft
import ScriptTree.Proofs.Draft.Built

/-!
# When drafts agree

Drafts are compared by what they hold and trees node by node. For sequences, mappings, assignments,
classes and imports the two comparisons come out the same, because nothing that a draft holds is
lost in its tree; the tree of an import still shows the whole path. Calls agree also where their
keyword arguments come in another order, and unions of types can differ in a token that names the
type `list` and still have one tree. Attributes and modules are not considered.
-/
namespace ScriptTree

/-- Two calls that differ in the order of their named arguments at most. -/
def Expr.SameCall : Expr → Expr → Prop
  | .call f xs, .call g ys =>
    f = g ∧ xs.filter (·.keyword.isNone) = ys.filter (·.keyword.isNone) ∧
      (xs.filter (·.keyword.isSome)).Perm (ys.filter (·.keyword.isSome))
  | _, _ => False

namespace Draft

/-! ## Calls -/

/-- Anything may be given. -/
def Supply.unrestricted : Supply where
  name := fun _ => True
  keyword := fun _ => True
  type := fun _ => True
  fragment := fun _ => True

theorem Supply.covers_true (S : Supply) : S.Covers fun _ => True where
  literal := fun _ => trivial
  name := fun _ _ => trivial
  fragment := fun _ _ _ _ => trivial
  path := fun _ _ _ _ => trivial
  list := fun _ => trivial
  mapping := fun _ => trivial
  call := fun _ _ => trivial
  merge := fun _ _ _ => trivial

/-- Whatever is given, no step of a call repeats a keyword. -/
theorem Call.Built.nodup {S : Supply} {c : Call} (h : c.Built S) :
    (c.kwargs.map Prod.fst).Nodup :=
  (h.sound S.covers_true).nodup

theorem Call.agrees_iff_perm {a b : Call} (ha : (a.kwargs.map Prod.fst).Nodup)
    (hb : (b.kwargs.map Prod.fst).Nodup) :
    a.agrees b = true ↔ a.func = b.func ∧ a.args = b.args ∧ a.kwargs.Perm b.kwargs := by
  rw [Keyed.perm_iff_lookup ha hb]
  simp only [agrees, Bool.and_eq_true, decide_eq_true_eq, beq_iff_eq, List.all_eq_true, and_assoc]

theorem named_injective :
    Function.Injective fun x : String × Expr => Argument.named x.1 x.2 := by
  intro x y h
  injection h with hkeyword hvalue
  exact Prod.ext (congrArg Ident.name (Option.some.inj hkeyword)) hvalue

theorem Call.filter_positional (c : Call) :
    (c.args.map Argument.positional ++ c.kwargs.map fun x => Argument.named x.1 x.2).filter
      (·.keyword.isNone) = c.args.map Argument.positional := by
  have hargs : ∀ x ∈ c.args.map Argument.positional, x.keyword.isNone = true :=
    List.forall_mem_map.mpr fun _ _ => rfl
  have hkwargs : ∀ x ∈ c.kwargs.map fun x => Argument.named x.1 x.2, ¬ x.keyword.isNone = true :=
    List.forall_mem_map.mpr fun _ _ => Bool.false_ne_true
  rw [List.filter_append, List.filter_eq_self.mpr hargs, List.filter_eq_nil_iff.mpr hkwargs,
    List.append_nil]

theorem Call.filter_named (c : Call) :
    (c.args.map Argument.positional ++ c.kwargs.map fun x => Argument.named x.1 x.2).filter
      (·.keyword.isSome) = c.kwargs.map fun x => Argument.named x.1 x.2 := by
  have hargs : ∀ x ∈ c.args.map Argument.positional, ¬ x.keyword.isSome = true :=
    List.forall_mem_map.mpr fun _ _ => Bool.false_ne_true
  have hkwargs : ∀ x ∈ c.kwargs.map fun x => Argument.named x.1 x.2, x.keyword.isSome = true :=
    List.forall_mem_map.mpr fun _ _ => rfl
  rw [List.filter_append, List.filter_eq_nil_iff.mpr hargs, List.filter_eq_self.mpr hkwargs,
    List.nil_append]

/-- The tree of a call shows its positional and its named arguments apart. -/
theorem Call.sameCall_toExpr_iff (a b : Call) :
    a.toExpr.SameCall b.toExpr ↔
      a.func = b.func ∧ a.args = b.args ∧ a.kwargs.Perm b.kwargs := by
  have hargs : a.args.map Argument.positional = b.args.map Argument.positional ↔ a.args = b.args :=
    (List.map_injective_iff.mpr fun _ _ h => congrArg Argument.value h).eq_iff
  show (_ ∧ _ ∧ _) ↔ _
  rw [a.filter_positional, b.filter_positional, a.filter_named, b.filter_named, hargs,
    List.map_perm_map_iff named_injective]

/-! ## Collections -/

theorem Sequence.toExpr_injective : Function.Injective Sequence.toExpr := by
  intro s t h
  injection h with helements
  exact congrArg Sequence.mk helements

theorem Mapping.toExpr_injective : Function.Injective Mapping.toExpr := by
  have hentry : Function.Injective fun x : String × Expr => Entry.mk (Expr.string x.1) x.2 := by
    intro x y h
    injection h with hkey hvalue
    injection hkey with hliteral
    exact Prod.ext (Literal.string.inj hliteral) hvalue
  intro m n h
  injection h with hentries
  exact congrArg Mapping.mk (List.map_injective_iff.mpr hentry hentries)

/-! ## Statements -/

theorem Assignment.toStmt_injective : Function.Injective Assignment.toStmt := by
  intro a b h
  injection h with htarget hvalue
  exact congr (congrArg Assignment.mk htarget) hvalue

theorem Import.toStmt_injective : Function.Injective Import.toStmt := by
  intro i j h
  injection h with hsource hnames
  have hpath : i.path = j.path := Path.moduleExpr_injective i.source_eq (hsource ▸ j.source_eq)
  rw [← agrees_iff, agrees, Bool.and_eq_true, decide_eq_true_eq, decide_eq_true_eq]
  exact ⟨hpath, List.head_eq_of_cons_eq hnames⟩

theorem Field.toStmt_injective : Function.Injective Field.toStmt := by
  intro f g h
  cases f with
  | assigned x v =>
    cases g with
    | assigned y w =>
      injection h with hx hv
      rw [hx, hv]
    | typed y t => cases h
  | typed x t =>
    cases g with
    | assigned y w => cases h
    | typed y u =>
      injection h with hx ht
      rw [hx, ht]

/-- No field is the statement that stands for an empty body. -/
theorem Field.toStmt_ne_pass (f : Field) : f.toStmt ≠ .pass := by
  cases f with
  | assigned x v => exact fun h => nomatch h
  | typed x t => exact fun h => nomatch h

theorem Class.body_injective {fs gs : List Field}
    (h : (if fs.isEmpty then [Stmt.pass] else fs.map Field.toStmt) =
      if gs.isEmpty then [Stmt.pass] else gs.map Field.toStmt) : fs = gs := by
  cases fs with
  | nil =>
    cases gs with
    | nil => rfl
    | cons g gs => exact absurd (List.head_eq_of_cons_eq h).symm g.toStmt_ne_pass
  | cons f fs =>
    cases gs with
    | nil => exact absurd (List.head_eq_of_cons_eq h) f.toStmt_ne_pass
    | cons g gs => exact List.map_injective_iff.mpr Field.toStmt_injective h

theorem Class.toStmt_injective : Function.Injective Class.toStmt := by
  intro c d h
  obtain ⟨name, bases, fields⟩ := c
  obtain ⟨name', bases', fields'⟩ := d
  injection h with hname hbases hbody
  obtain rfl : name = name' := hname
  obtain rfl : bases = bases' := hbases
  obtain rfl : fields = fields' := body_injective hbody
  rfl

/-! ## Unions of types -/

/-- The same token, where a type named `list` is the list that it prints as. -/
def TypeToken.listed : TypeToken → TypeToken
  | .name text => if text = "list" then .list none else .name text
  | .list inner => .list inner

/-- The token of a tree, if the tree is that of a token. -/
def TypeToken.ofExpr : Expr → TypeToken
  | .name i => (TypeToken.name i.name).listed
  | .subscript _ (.name i) => .list (some i.name)
  | _ => .list none

namespace TypeToken

theorem ofExpr_toExpr (t : TypeToken) : ofExpr t.toExpr = t.listed := by
  cases t with
  | name text => rfl
  | list inner =>
    cases inner with
    | none => rfl
    | some inner => rfl

theorem toExpr_listed (t : TypeToken) : t.listed.toExpr = t.toExpr := by
  cases t with
  | list inner => rfl
  | name text =>
    rw [listed]
    split
    · next h => rw [h]; rfl
    · rfl

end TypeToken

namespace TypeUnion

/-- Takes a right-nested union apart. -/
def tokensOf : Expr → List TypeToken
  | .bitOr l r => .ofExpr l :: tokensOf r
  | e => [.ofExpr e]

/-- A token is no union, so that a union of tokens is taken apart at its own bars only. -/
theorem tokensOf_unionExpr (t : TypeToken) (ts : List TypeToken) :
    tokensOf (unionExpr t ts) = (t :: ts).map TypeToken.listed := by
  induction ts generalizing t with
  | cons u us ih =>
    rw [unionExpr, tokensOf, t.ofExpr_toExpr, ih]
    rfl
  | nil =>
    rw [List.map_singleton, ← t.ofExpr_toExpr]
    cases t with
    | name text => rfl
    | list inner =>
      cases inner with
      | none => rfl
      | some inner => rfl

theorem unionExpr_listed (t : TypeToken) (ts : List TypeToken) :
    unionExpr t.listed (ts.map TypeToken.listed) = unionExpr t ts := by
  induction ts generalizing t with
  | nil => exact t.toExpr_listed
  | cons u us ih => rw [List.map_cons, unionExpr, unionExpr, t.toExpr_listed, ih]

theorem toExpr_eq_iff (u v : TypeUnion) :
    u.toExpr = v.toExpr ↔ u.tokens.map TypeToken.listed = v.tokens.map TypeToken.listed := by
  constructor
  · intro h
    have htokens := congrArg tokensOf h
    rwa [toExpr, toExpr, tokensOf_unionExpr, tokensOf_unionExpr] at htokens
  · intro h
    obtain ⟨hfirst, hrest⟩ := List.cons.inj h
    rw [toExpr, ← unionExpr_listed, hfirst, hrest, unionExpr_listed, toExpr]

end TypeUnion

/-! ## All kinds -/

/-- The call `f(a=1, b=2)`. -/
def orderedCall : Call := ⟨.ofName "f", [], [("a", .int 1), ("b", .int 2)]⟩

/-- The call `f(b=2, a=1)`. -/
def reorderedCall : Call := ⟨.ofName "f", [], [("b", .int 2), ("a", .int 1)]⟩

theorem built_orderedCalls :
    orderedCall.Built .unrestricted ∧ reorderedCall.Built .unrestricted := by
  have hcallee : Call.ofCallee "f" = .ok ⟨.ofName "f", [], []⟩ := by decide +kernel
  have hone : (Value.int 1).Built .unrestricted := .int 1
  have htwo : (Value.int 2).Built .unrestricted := .int 2
  constructor
  · refine Call.Built.step (t := .kwargs [("a", .int 1), ("b", .int 2)]) (.ofCallee hcallee) ?_ ?_
    · exact List.forall_mem_cons.mpr ⟨hone, List.forall_mem_singleton.mpr htwo⟩
    · exact fun _ _ => trivial
  · refine Call.Built.step (t := .kwargs [("b", .int 2), ("a", .int 1)]) (.ofCallee hcallee) ?_ ?_
    · exact List.forall_mem_cons.mpr ⟨htwo, List.forall_mem_singleton.mpr hone⟩
    · exact fun _ _ => trivial

/-- Two drafts of one kind agree exactly if they have the same tree, apart from the order of keyword
arguments in calls. For the tree of a union of types a type named `list` is the untyped list. That a
draft was built from a successful constructor matters for calls only, where it makes the keywords
different from each other. -/
theorem agrees_iff_sameTree :
    (∀ a b : Sequence,
      (sequence a).agrees (sequence b) = true ↔ (sequence a).toNode = (sequence b).toNode) ∧
    (∀ a b : Mapping,
      (mapping a).agrees (mapping b) = true ↔ (mapping a).toNode = (mapping b).toNode) ∧
    (∀ a b : Class,
      (classDef a).agrees (classDef b) = true ↔ (classDef a).toNode = (classDef b).toNode) ∧
    (∀ a b : Assignment,
      (assignment a).agrees (assignment b) = true ↔
        (assignment a).toNode = (assignment b).toNode) ∧
    (∀ a b : Import,
      (importFrom a).agrees (importFrom b) = true ↔
        (importFrom a).toNode = (importFrom b).toNode) ∧
    (∀ a b : Call, a.Built .unrestricted → b.Built .unrestricted →
      ((call a).agrees (call b) = true ↔ a.toExpr.SameCall b.toExpr) ∧
        ((call a).toNode = (call b).toNode → (call a).agrees (call b) = true)) ∧
    (∃ a b : Call, a.Built .unrestricted ∧ b.Built .unrestricted ∧
      (call a).agrees (call b) = true ∧ (call a).toNode ≠ (call b).toNode) ∧
    ∀ u v : TypeUnion,
      ((typeUnion u).agrees (typeUnion v) = true ↔ u.tokens = v.tokens) ∧
        ((typeUnion u).toNode = (typeUnion v).toNode ↔
          u.tokens.map TypeToken.listed = v.tokens.map TypeToken.listed) := by
  simp only [agrees, toNode, decide_eq_true_eq, Node.expr.injEq, Node.stmt.injEq]
  refine ⟨?_, ?_, ?_, ?_, ?_, ?_, ?_, ?_⟩
  · exact fun a b => Sequence.toExpr_injective.eq_iff.symm
  · exact fun a b => Mapping.toExpr_injective.eq_iff.symm
  · exact fun a b => Class.toStmt_injective.eq_iff.symm
  · exact fun a b => Assignment.toStmt_injective.eq_iff.symm
  · intro a b
    rw [Import.agrees_iff, Import.toStmt_injective.eq_iff]
  · intro a b ha hb
    have hagrees : a.agrees b = true ↔ a.toExpr.SameCall b.toExpr := by
      rw [Call.agrees_iff_perm ha.nodup hb.nodup, Call.sameCall_toExpr_iff]
    refine ⟨hagrees, fun h => hagrees.mpr ?_⟩
    rw [h]
    exact ⟨rfl, rfl, .refl _⟩
  · exact ⟨orderedCall, reorderedCall, built_orderedCalls.1, built_orderedCalls.2, by decide,
      by decide⟩
  · intro u v
    refine ⟨?_, TypeUnion.toExpr_eq_iff u v⟩
    obtain ⟨first, rest⟩ := u
    obtain ⟨first', rest'⟩ := v
    simp [TypeUnion.tokens]

theorem agrees_iff_sameTree_reordered :
    orderedCall.Built .unrestricted ∧ reorderedCall.Built .unrestricted ∧
      (call orderedCall).agrees (call reorderedCall) = true ∧
      orderedCall.toExpr.SameCall reorderedCall.toExpr := by
  obtain ⟨hordered, hreordered⟩ := built_orderedCalls
  obtain ⟨-, -, -, -, -, hcall, -, -⟩ := agrees_iff_sameTree
  have hagrees : (call orderedCall).agrees (call reorderedCall) = true := by decide
  exact ⟨hordered, hreordered, hagrees,
    (hcall orderedCall reorderedCall hordered hreordered).1.mp hagrees⟩

end Draft

end ScriptTree
