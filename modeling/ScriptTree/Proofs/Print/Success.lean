import ScriptTree.Print.Expr
import ScriptTree.Proofs.Outcome
import ScriptTree.Proofs.Tree.Subexpression

/-!
# Expressions that have a text

One equivalence for each kind of expression says when it is printed and as what, in terms of the
texts of its parts. An expression has a text if none of the identifiers in it is empty.
-/
namespace ScriptTree

open Print (Fault commaJoin)
open Outcome (bind_eq_ok_iff bind₂_eq_ok_iff pure_eq_ok_iff mapM_eq_ok_iff exists_mapM_eq_ok_iff)

variable {q : QuoteStyle} {t : List Char}

theorem Ident.text_eq_ok_iff {i : Ident} :
    i.text = .ok t ↔ i.name ≠ "" ∧ i.name.toList = t := by
  rw [Ident.text]
  split
  · next h => simp [h]
  · next h => simp [h]

/-- The text of one entry of a dictionary display. -/
def Entry.text (q : QuoteStyle) (x : Entry Expr) : Except Fault (List Char) := do
  let key ← x.key.text q
  let value ← x.value.text q
  return key ++ ':' :: ' ' :: value

/-- The text of one argument of a call. -/
def Argument.text (q : QuoteStyle) (x : Argument Expr) : Except Fault (List Char) :=
  match x.keyword with
  | none => x.value.text q
  | some k => do
    let keyword ← k.text
    let value ← x.value.text q
    return keyword ++ ' ' :: '=' :: ' ' :: value

namespace Expr

theorem textAll_eq_mapM (q : QuoteStyle) (es : List Expr) :
    Expr.textAll q es = es.mapM (Expr.text q) := by
  induction es with
  | nil => rfl
  | cons e es ih => rw [Expr.textAll, List.mapM_cons, ih]

theorem entryTexts_eq_mapM (q : QuoteStyle) (xs : List (Entry Expr)) :
    Expr.entryTexts q xs = xs.mapM (Entry.text q) := by
  induction xs with
  | nil => rfl
  | cons x xs ih =>
    rw [Expr.entryTexts, List.mapM_cons, ih, Entry.text]
    simp only [bind_assoc, pure_bind]

theorem argumentTexts_eq_mapM (q : QuoteStyle) (xs : List (Argument Expr)) :
    Expr.argumentTexts q xs = xs.mapM (Argument.text q) := by
  induction xs with
  | nil => rfl
  | cons x xs ih =>
    obtain ⟨keyword, value⟩ := x
    cases keyword with
    | none => rw [Expr.argumentTexts, List.mapM_cons, ih, Argument.text]
    | some k =>
      rw [Expr.argumentTexts, List.mapM_cons, ih, Argument.text]
      simp only [bind_assoc, pure_bind]

/-! ## The text of each kind of expression -/

theorem text_attr_eq_ok_iff {v : Expr} {i : Ident} :
    (Expr.attr v i).text q = .ok t ↔
      ∃ tv, v.text q = .ok tv ∧ i.name ≠ "" ∧ tv ++ '.' :: i.name.toList = t := by
  simp only [Expr.text, bind_eq_ok_iff, pure_eq_ok_iff, Ident.text_eq_ok_iff]
  constructor
  · intro h
    obtain ⟨tv, hv, _, ⟨hi, rfl⟩, rfl⟩ := h
    exact ⟨tv, hv, hi, rfl⟩
  · intro h
    obtain ⟨tv, hv, hi, rfl⟩ := h
    exact ⟨tv, hv, _, ⟨hi, rfl⟩, rfl⟩

theorem text_subscript_eq_ok_iff {v i : Expr} :
    (Expr.subscript v i).text q = .ok t ↔
      ∃ tv ti, v.text q = .ok tv ∧ i.text q = .ok ti ∧ tv ++ '[' :: (ti ++ [']']) = t := by
  simp only [Expr.text, bind₂_eq_ok_iff, pure_eq_ok_iff]

theorem text_bitOr_eq_ok_iff {l r : Expr} :
    (Expr.bitOr l r).text q = .ok t ↔
      ∃ tl tr, l.text q = .ok tl ∧ r.text q = .ok tr ∧ tl ++ ' ' :: '|' :: ' ' :: tr = t := by
  simp only [Expr.text, bind₂_eq_ok_iff, pure_eq_ok_iff]

theorem text_list_eq_ok_iff {es : List Expr} :
    (Expr.list es).text q = .ok t ↔
      ∃ ts, List.Forall₂ (fun e t => e.text q = .ok t) es ts ∧ '[' :: (commaJoin ts ++ [']']) = t := by
  simp only [Expr.text, textAll_eq_mapM, bind_eq_ok_iff, pure_eq_ok_iff, mapM_eq_ok_iff]

theorem text_dict_eq_ok_iff {es : List (Entry Expr)} :
    (Expr.dict es).text q = .ok t ↔
      ∃ ts, List.Forall₂ (fun x t => x.text q = .ok t) es ts ∧ '{' :: (commaJoin ts ++ ['}']) = t := by
  simp only [Expr.text, entryTexts_eq_mapM, bind_eq_ok_iff, pure_eq_ok_iff, mapM_eq_ok_iff]

theorem text_call_eq_ok_iff {f : Expr} {xs : List (Argument Expr)} :
    (Expr.call f xs).text q = .ok t ↔
      ∃ tf ts, f.text q = .ok tf ∧ List.Forall₂ (fun x t => x.text q = .ok t) xs ts ∧
        tf ++ '(' :: (commaJoin ts ++ [')']) = t := by
  simp only [Expr.text, argumentTexts_eq_mapM, bind₂_eq_ok_iff, pure_eq_ok_iff, mapM_eq_ok_iff]

end Expr

theorem Entry.text_eq_ok_iff {x : Entry Expr} :
    x.text q = .ok t ↔
      ∃ tk tv, x.key.text q = .ok tk ∧ x.value.text q = .ok tv ∧ tk ++ ':' :: ' ' :: tv = t := by
  simp only [Entry.text, bind₂_eq_ok_iff, pure_eq_ok_iff]

theorem Argument.text_positional {v : Expr} : Argument.text q ⟨none, v⟩ = v.text q := rfl

theorem Argument.text_named_eq_ok_iff {k : Ident} {v : Expr} :
    Argument.text q ⟨some k, v⟩ = .ok t ↔
      ∃ tv, k.name ≠ "" ∧ v.text q = .ok tv ∧ k.name.toList ++ ' ' :: '=' :: ' ' :: tv = t := by
  simp only [Argument.text, bind_eq_ok_iff, pure_eq_ok_iff, Ident.text_eq_ok_iff]
  constructor
  · intro h
    obtain ⟨_, ⟨hk, rfl⟩, tv, hv, ht⟩ := h
    exact ⟨tv, hk, hv, ht⟩
  · intro h
    obtain ⟨tv, hk, hv, ht⟩ := h
    exact ⟨_, ⟨hk, rfl⟩, tv, hv, ht⟩

/-! ## When there is a text -/

/-- No identifier in the expression is empty. -/
def Expr.Named (e : Expr) : Prop := e.Everywhere fun s => ∀ i ∈ s.idents, i.name ≠ ""

theorem Argument.exists_text_iff {x : Argument Expr} :
    (∃ t, x.text q = .ok t) ↔ (∀ k ∈ x.keyword, k.name ≠ "") ∧ ∃ t, x.value.text q = .ok t := by
  obtain ⟨keyword, v⟩ := x
  cases keyword with
  | none => simp [Argument.text_positional]
  | some k => simp [Argument.text_named_eq_ok_iff]

/-- An expression has a text exactly if every identifier in it is non-empty. -/
theorem Expr.exists_text_iff {e : Expr} : (∃ t, e.text q = .ok t) ↔ e.Named := by
  induction e with
  | literal l => simp [Expr.text, Expr.Named, Expr.idents]
  | name i => simp [Expr.text, Expr.Named, Expr.idents, Ident.text_eq_ok_iff]
  | attr v i hv =>
    rw [Expr.Named, everywhere_attr, ← Expr.Named, ← hv]
    simp [text_attr_eq_ok_iff, Expr.idents, and_comm]
  | subscript v i hv hi =>
    rw [Expr.Named, everywhere_subscript, ← Expr.Named, ← Expr.Named, ← hv, ← hi]
    simp [text_subscript_eq_ok_iff, Expr.idents]
  | bitOr l r hl hr =>
    rw [Expr.Named, everywhere_bitOr, ← Expr.Named, ← Expr.Named, ← hl, ← hr]
    simp [text_bitOr_eq_ok_iff, Expr.idents]
  | list es hes =>
    have hall : (∀ e ∈ es, e.Named) ↔ ∀ e ∈ es, ∃ t, e.text q = .ok t :=
      forall₂_congr fun e he => (hes e he).symm
    rw [Expr.Named, everywhere_list]
    change _ ↔ _ ∧ ∀ e ∈ es, e.Named
    rw [hall, ← exists_mapM_eq_ok_iff]
    simp [text_list_eq_ok_iff, Expr.idents, mapM_eq_ok_iff]
  | dict es hes =>
    have hall : (∀ x ∈ es, x.key.Named ∧ x.value.Named) ↔ ∀ x ∈ es, ∃ t, x.text q = .ok t := by
      apply forall₂_congr
      intro x hx
      rw [← (hes x hx).1, ← (hes x hx).2]
      simp [Entry.text_eq_ok_iff]
    rw [Expr.Named, everywhere_dict]
    change _ ↔ _ ∧ ∀ x ∈ es, x.key.Named ∧ x.value.Named
    rw [hall, ← exists_mapM_eq_ok_iff]
    simp [text_dict_eq_ok_iff, Expr.idents, mapM_eq_ok_iff]
  | call f xs hf hxs =>
    have hall : (∀ i ∈ (Expr.call f xs).idents, i.name ≠ "") ∧ (∀ x ∈ xs, x.value.Named) ↔
        ∀ x ∈ xs, ∃ t, x.text q = .ok t := by
      simp only [Expr.idents, List.mem_filterMap]
      constructor
      · intro h x hx
        obtain ⟨hk, hv⟩ := h
        exact Argument.exists_text_iff.mpr
          ⟨fun k hkx => hk k ⟨x, hx, hkx⟩, (hxs x hx).mpr (hv x hx)⟩
      · intro h
        constructor
        · rintro k ⟨x, hx, hkx⟩
          exact (Argument.exists_text_iff.mp (h x hx)).1 k hkx
        · intro x hx
          exact (hxs x hx).mp (Argument.exists_text_iff.mp (h x hx)).2
    rw [Expr.Named, everywhere_call]
    change _ ↔ _ ∧ f.Named ∧ ∀ x ∈ xs, x.value.Named
    rw [and_left_comm, hall, ← exists_mapM_eq_ok_iff, ← hf]
    simp [text_call_eq_ok_iff, mapM_eq_ok_iff]

end ScriptTree
