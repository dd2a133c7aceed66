import ScriptTree.Proofs.Print.Determined

/-!
# Postfix forms on chains

The printer writes no parentheses. An attribute, a subscript or a call of a chain therefore prints
as the chain with the postfix form on its last operand, and this is the only way in which a postfix
form prints like something else. The regrouped form of a tree has every postfix form where its text
shows it; from there on the text determines the tree up to the bracketing of chains. Nothing but the
names is restricted here, so that trees of every shape are covered.
-/
namespace ScriptTree

open Print (Fault)

variable {q : QuoteStyle}

/-! ## Conditions on names -/

/-- The conditions on the names that one expression carries itself. -/
structure Expr.WordedNode (s : Expr) : Prop where
  checked : ∀ i ∈ s.idents, isIdentifier i.name.toList = true
  notConstant : s ≠ .ofName "True" ∧ s ≠ .ofName "False"

instance (s : Expr) : Decidable s.WordedNode :=
  decidable_of_iff ((∀ i ∈ s.idents, isIdentifier i.name.toList = true) ∧
      s ≠ .ofName "True" ∧ s ≠ .ofName "False")
    ⟨fun h => ⟨h.1, h.2⟩, fun h => ⟨h.checked, h.notConstant⟩⟩

/-- The conditions hold of all names in an expression. Its shape is free. -/
def Expr.Worded (e : Expr) : Prop := e.Everywhere Expr.WordedNode

instance (e : Expr) : Decidable e.Worded := inferInstanceAs (Decidable (e.Everywhere _))

theorem Expr.Worded.named {e : Expr} (h : e.Worded) : e.Named :=
  fun s hs i hi => ne_empty_of_isIdentifier ((h s hs).checked i hi)

theorem Expr.Legible.worded {e : Expr} (h : e.Legible) : e.Worded :=
  fun s hs => ⟨(h s hs).checked, (h s hs).notConstant⟩

namespace Expr

/-! ## Regrouping -/

/-- Applies a form to the last operand of a chain, or to the expression if it is no chain. -/
def onLast (form : Expr → Expr) : Expr → Expr
  | .bitOr l r => .bitOr l (r.onLast form)
  | e => form e

/-- Moves the postfix form at the top of an expression to where its text shows it. -/
def regroup : Expr → Expr
  | .attr v i => v.onLast fun e => .attr e i
  | .subscript v i => v.onLast fun e => .subscript e i
  | .call f xs => f.onLast fun e => .call e xs
  | e => e

/-- The same tree with all postfix forms where the text shows them. -/
def regrouped (e : Expr) : Expr := e.rebuild regroup

/-- What is left of an expression without the postfix forms around it. -/
def stem : Expr → Expr
  | .attr v _ => v.stem
  | .subscript v _ => v.stem
  | .call f _ => f.stem
  | e => e

/-- Puts the postfix forms that are around the stem of an expression, regrouped inside, around
another one. -/
def rewrap : Expr → Expr → Expr
  | .attr v i, d => .attr (v.rewrap d) i
  | .subscript v i, d => .subscript (v.rewrap d) i.regrouped
  | .call f xs, d => .call (f.rewrap d) (rebuildArguments regroup xs)
  | _, d => d

section OnLast

variable {form : Expr → Expr}

theorem onLast_id (e : Expr) : (e.onLast fun d => d) = e := by
  induction e with
  | bitOr l r _ hr => exact congrArg (Expr.bitOr l) hr
  | _ => rfl

theorem onLast_of_not_isUnion {e : Expr} (h : e.isUnion = false) : e.onLast form = form e := by
  cases e with
  | bitOr l r => cases h
  | _ => rfl

/-- A second form goes to the same operand, if the first one leaves it an operand. -/
theorem onLast_onLast (hform : ∀ d, d.isUnion = false → (form d).isUnion = false)
    (outer : Expr → Expr) (e : Expr) :
    (e.onLast form).onLast outer = e.onLast fun d => outer (form d) := by
  induction e with
  | bitOr l r _ hr => exact congrArg (Expr.bitOr l) hr
  | _ => exact onLast_of_not_isUnion (hform _ rfl)

theorem isUnion_onLast (hform : ∀ e, (form e).isUnion = false) (e : Expr) :
    (e.onLast form).isUnion = e.isUnion := by
  cases e with
  | bitOr l r => rfl
  | _ => exact hform _

/-- A form that adds something at the end of the text adds it to the last operand. -/
theorem text_onLast (suffix : Except Fault (List Char))
    (hform : ∀ e, (form e).text q = do
      let text ← e.text q
      let last ← suffix
      return text ++ last) (e : Expr) :
    (e.onLast form).text q = (form e).text q := by
  induction e with
  | bitOr l r _ hr =>
    rw [onLast, hform, Expr.text, Expr.text, hr, hform]
    simp only [bind_assoc, pure_bind, List.append_assoc, List.cons_append]
  | _ => rfl

theorem legible_bitOr {l r : Expr} : (Expr.bitOr l r).Legible ↔ l.Legible ∧ r.Legible := by
  refine everywhere_bitOr.trans (and_iff_right ?_)
  exact ⟨List.forall_mem_nil _, ⟨nofun, nofun⟩, nofun⟩

theorem legible_onLast (hform : ∀ e, e.isUnion = false → e.Legible → (form e).Legible) {e : Expr}
    (h : e.Legible) : (e.onLast form).Legible := by
  induction e with
  | bitOr l r _ hr =>
    obtain ⟨hl, hlr⟩ := legible_bitOr.mp h
    exact legible_bitOr.mpr ⟨hl, hr hlr⟩
  | _ => exact hform _ rfl h

end OnLast

theorem text_regroup (e : Expr) : e.regroup.text q = e.text q := by
  cases e with
  | attr v i =>
    refine text_onLast (do return '.' :: (← i.text)) (fun e => ?_) v
    simp only [Expr.text, bind_assoc, pure_bind]
  | subscript v i =>
    refine text_onLast (do return '[' :: ((← i.text q) ++ [']'])) (fun e => ?_) v
    simp only [Expr.text, bind_assoc, pure_bind]
  | call f xs =>
    refine text_onLast (do return '(' :: (Print.commaJoin (← argumentTexts q xs) ++ [')']))
      (fun e => ?_) f
    simp only [Expr.text, bind_assoc, pure_bind]
  | _ => rfl

/-- Regrouping leaves the text as it is. -/
theorem text_regrouped (e : Expr) : e.regrouped.text q = e.text q := text_rebuild text_regroup e

/-- A regrouped tree is a chain if one stands inside its postfix forms. -/
theorem isUnion_regrouped (e : Expr) : e.regrouped.isUnion = e.stem.isUnion := by
  induction e with
  | attr v i hv => exact (isUnion_onLast (fun _ => rfl) _).trans hv
  | subscript v i hv _ => exact (isUnion_onLast (fun _ => rfl) _).trans hv
  | call f xs hf _ => exact (isUnion_onLast (fun _ => rfl) _).trans hf
  | _ => rfl

theorem isUnion_rewrap (e : Expr) {d : Expr} (h : d.isUnion = false) :
    (e.rewrap d).isUnion = false := by
  cases e with
  | attr v i => rfl
  | subscript v i => rfl
  | call f xs => rfl
  | _ => exact h

/-- The regrouped form is the chain inside the postfix forms, with all of them on its last
operand. -/
theorem regrouped_eq_onLast (e : Expr) : e.regrouped = e.stem.regrouped.onLast e.rewrap := by
  induction e with
  | bitOr l r => exact (onLast_id _).symm
  | attr v i hv =>
    show v.regrouped.onLast (fun d => .attr d i) = _
    rw [hv]
    exact onLast_onLast (fun _ => v.isUnion_rewrap) _ _
  | subscript v i hv _ =>
    show v.regrouped.onLast (fun d => .subscript d i.regrouped) = _
    rw [hv]
    exact onLast_onLast (fun _ => v.isUnion_rewrap) _ _
  | call f xs hf _ =>
    show f.regrouped.onLast (fun d => .call d (rebuildArguments regroup xs)) = _
    rw [hf]
    exact onLast_onLast (fun _ => f.isUnion_rewrap) _ _
  | _ => rfl

/-- A postfix form on an operand that is not a chain is legible if its names are. -/
theorem legibleNode_of_operand {s v : Expr} (hs : ∀ i ∈ s.idents, isIdentifier i.name.toList = true)
    (hv : s.operand? = some v) (hu : v.isUnion = false) : s.LegibleNode := by
  refine ⟨hs, ⟨?_, ?_⟩, fun o ho => ?_⟩
  · rintro rfl
    cases hv
  · rintro rfl
    cases hv
  · rw [hv] at ho
    cases ho
    exact hu

/-- The regrouped form puts postfix forms on operands only. -/
theorem legible_regrouped {e : Expr} (h : e.Worded) : e.regrouped.Legible := by
  induction e with
  | literal l =>
    have hself := h.self
    exact everywhere_literal.mpr ⟨hself.checked, hself.notConstant, nofun⟩
  | name i =>
    have hself := h.self
    exact everywhere_name.mpr ⟨hself.checked, hself.notConstant, nofun⟩
  | attr v i hv =>
    obtain ⟨hself, hwv⟩ := everywhere_attr.mp h
    refine legible_onLast (fun e hu he => everywhere_attr.mpr ⟨?_, he⟩) (hv hwv)
    exact legibleNode_of_operand hself.checked rfl hu
  | subscript v i hv hi =>
    obtain ⟨-, hwv, hwi⟩ := everywhere_subscript.mp h
    refine legible_onLast (fun e hu he => everywhere_subscript.mpr ⟨?_, he, hi hwi⟩) (hv hwv)
    exact legibleNode_of_operand (List.forall_mem_nil _) rfl hu
  | bitOr l r hl hr =>
    obtain ⟨-, hwl, hwr⟩ := everywhere_bitOr.mp h
    exact legible_bitOr.mpr ⟨hl hwl, hr hwr⟩
  | list es hes =>
    obtain ⟨-, hwes⟩ := everywhere_list.mp h
    show (Expr.list (rebuildAll regroup es)).Legible
    rw [rebuildAll_eq_map]
    refine everywhere_list.mpr ⟨⟨List.forall_mem_nil _, ⟨nofun, nofun⟩, nofun⟩, ?_⟩
    exact List.forall_mem_map.mpr fun e he => hes e he (hwes e he)
  | dict es hes =>
    obtain ⟨-, hwes⟩ := everywhere_dict.mp h
    show (Expr.dict (rebuildEntries regroup es)).Legible
    rw [rebuildEntries_eq_map]
    refine everywhere_dict.mpr ⟨⟨List.forall_mem_nil _, ⟨nofun, nofun⟩, nofun⟩, ?_⟩
    exact List.forall_mem_map.mpr fun x hx =>
      ⟨(hes x hx).1 (hwes x hx).1, (hes x hx).2 (hwes x hx).2⟩
  | call f xs hf hxs =>
    obtain ⟨hself, hwf, hwxs⟩ := everywhere_call.mp h
    have hvalues : ∀ x ∈ rebuildArguments regroup xs, x.value.Legible := by
      rw [rebuildArguments_eq_map]
      exact List.forall_mem_map.mpr fun x hx => hxs x hx (hwxs x hx)
    have hkeywords : (rebuildArguments regroup xs).filterMap (·.keyword) =
        xs.filterMap (·.keyword) := by
      rw [rebuildArguments_eq_map, List.filterMap_map]
      rfl
    refine legible_onLast (fun e hu he => everywhere_call.mpr ⟨?_, he, hvalues⟩) (hf hwf)
    refine legibleNode_of_operand ?_ rfl hu
    show ∀ i ∈ (rebuildArguments regroup xs).filterMap (·.keyword), _
    rw [hkeywords]
    exact hself.checked

/-! ## What a text shows -/

/-- The text of an expression determines its regrouped form up to the bracketing of chains, and is
determined by it. -/
theorem text_eq_iff {e e' : Expr} (h : e.Worded) (h' : e'.Worded) :
    e.text q = e'.text q ↔ e.regrouped.rightNested = e'.regrouped.rightNested := by
  constructor
  · intro heq
    obtain ⟨t, ht⟩ := (exists_text_iff (q := q)).mpr h.named
    have hread := readExpr?_text (legible_regrouped h) ((text_regrouped e).trans ht)
    have hread' := readExpr?_text (legible_regrouped h') ((text_regrouped e').trans (heq ▸ ht))
    rw [hread] at hread'
    exact Option.some.inj hread'
  · intro heq
    rw [← text_regrouped e, ← text_regrouped e', ← text_rightNested, heq, text_rightNested]

theorem isUnion_iff {e : Expr} : e.isUnion = true ↔ ∃ l r, e = .bitOr l r := by
  cases e <;> simp [isUnion]

end Expr

theorem Node.print_eq_ok_iff_regrouped {o : PrintOptions} {e e' : Expr} {s : String}
    (h : e.Worded) (h' : e'.Worded) (hs : (Node.expr e).print o = .ok s) :
    (Node.expr e').print o = .ok s ↔ e'.regrouped.rightNested = e.regrouped.rightNested := by
  rw [print_expr_iff_text] at hs ⊢
  rw [← Expr.text_eq_iff (q := o.quote) h' h, hs]

/-- An expression prints like a chain exactly if a chain stands inside the postfix forms that are
around it. What prints like it has the same regrouped form up to bracketing, and that form has the
bar of this chain and those that its operands show, with the postfix forms on the last operand. -/
theorem Node.print_like_union_iff (o : PrintOptions) (e : Expr) (h : e.Worded) :
    ∃ s, (Node.expr e).print o = .ok s ∧
      ((∃ l r, (Expr.bitOr l r).Worded ∧ (Node.expr (.bitOr l r)).print o = .ok s) ↔
        ∃ l r, e.stem = .bitOr l r) ∧
      (∀ e' : Expr, e'.Worded → ((Node.expr e').print o = .ok s ↔
        e'.regrouped.rightNested = e.regrouped.rightNested)) ∧
      ∀ l r, e.stem = .bitOr l r →
        e.regrouped = .bitOr l.regrouped (r.regrouped.onLast e.rewrap) := by
  obtain ⟨t, ht⟩ := (Expr.exists_text_iff (q := o.quote)).mpr h.named
  have hs := Node.print_expr_eq_ok_iff.mpr ⟨t, ht, rfl⟩
  refine ⟨String.ofList t, hs, ?_, fun e' h' => print_eq_ok_iff_regrouped h h' hs, ?_⟩
  · rw [← Expr.isUnion_iff, ← Expr.isUnion_regrouped]
    constructor
    · intro hunion
      obtain ⟨l, r, hworded, hprint⟩ := hunion
      -- A regrouped chain is a chain, and the bracketing to the right keeps it one.
      have hsame := (print_eq_ok_iff_regrouped h hworded hs).mp hprint
      rw [← Expr.isUnion_rightNested, ← hsame, Expr.isUnion_rightNested]
      rfl
    · intro hunion
      obtain ⟨l, r, hlr⟩ := Expr.isUnion_iff.mp hunion
      have hlegible := Expr.legible_regrouped h
      have htext := (Expr.text_regrouped e).trans ht
      rw [hlr] at hlegible htext
      exact ⟨l, r, hlegible.worded, Node.print_expr_eq_ok_iff.mpr ⟨t, htext, rfl⟩⟩
  · intro l r hstem
    rw [e.regrouped_eq_onLast, hstem]
    rfl

/-- An attribute of a chain, as in `(a | b).c`. -/
def unionMember : Expr := .attr (.bitOr (.ofName "a") (.ofName "b")) ⟨"c"⟩

/-- A subscript by a chain, as in `a[b | c]`. -/
def unionIndex : Expr := .subscript (.ofName "a") (.bitOr (.ofName "b") (.ofName "c"))

theorem print_like_union_iff_operands :
    unionMember.Worded ∧ unionIndex.Worded ∧
      (∃ s, (Node.expr unionMember).print {} = .ok s ∧
        (∃ l r, (Expr.bitOr l r).Worded ∧ (Node.expr (.bitOr l r)).print {} = .ok s) ∧
        (∀ e' : Expr, e'.Worded → ((Node.expr e').print {} = .ok s ↔
          e'.regrouped.rightNested = .bitOr (.ofName "a") (.attr (.ofName "b") ⟨"c"⟩))) ∧
        unionMember.regrouped = .bitOr (.ofName "a") (.attr (.ofName "b") ⟨"c"⟩)) ∧
      ∃ s, (Node.expr unionIndex).print { quote := .single } = .ok s ∧
        ¬ ∃ l r, (Expr.bitOr l r).Worded ∧
          (Node.expr (.bitOr l r)).print { quote := .single } = .ok s := by
  have hmember : unionMember.Worded := by decide
  have hindex : unionIndex.Worded := by decide
  obtain ⟨s, hs, hlike, halike, hbar⟩ := Node.print_like_union_iff {} unionMember hmember
  obtain ⟨s', hs', hlike', -⟩ := Node.print_like_union_iff { quote := .single } unionIndex hindex
  refine ⟨hmember, hindex, ⟨s, hs, hlike.mpr ⟨_, _, rfl⟩, halike, hbar _ _ rfl⟩, s', hs',
    fun hunion => ?_⟩
  obtain ⟨l, r, hstem⟩ := hlike'.mp hunion
  cases hstem

/-- The bar of the operand is seen from outside: `(a | b).c` and `a | (b.c)` print alike. -/
theorem print_unionMember_as_union :
    unionMember.Worded ∧ unionMember.operand? = some (.bitOr (.ofName "a") (.ofName "b")) ∧
      (Expr.bitOr (.ofName "a") (.attr (.ofName "b") ⟨"c"⟩)).Worded ∧
      (Node.expr unionMember).print {} = .ok "a | b.c" ∧
      (Node.expr (.bitOr (.ofName "a") (.attr (.ofName "b") ⟨"c"⟩))).print {} = .ok "a | b.c" :=
  ⟨by decide, rfl, by decide, rfl, rfl⟩

end ScriptTree
