import ScriptTree.Proofs.Print.Literal
import ScriptTree.Proofs.Print.Success
import ScriptTree.Proofs.Text.Digits
import ScriptTree.Proofs.Text.Join
import ScriptTree.Proofs.Tree.Statement
import ScriptTree.Proofs.Word

/-!
# Expressions stay on their line

A printed expression over checked identifiers begins with no blank and holds no line break, whatever
the strings in it hold. If a word and a blank stand at its front, no second word follows: the blanks
that the printer writes outside brackets stand before a bar. This keeps an expression apart from the
header of a class, although `class` is an identifier like any other.
-/
namespace ScriptTree.Print

open Text (EndsRow endsRow_cons)
open Outcome (forall_mem_of_forall₂)

/-- A text without line breaks that begins with no blank. -/
structure SingleLine (t : List Char) : Prop where
  begins : ∃ c ∈ t.head?, c ≠ ' '
  unbroken : '\n' ∉ t

/-- A line on which no word follows a word at the front. -/
structure PlainLine (t : List Char) : Prop extends SingleLine t where
  oneWord : ∀ word more, t = word ++ ' ' :: more → (∀ c ∈ word, isIdentifierPart c = true) →
    EndsRow isIdentifierStart more

theorem SingleLine.append {t u : List Char} (h : SingleLine t) (hu : '\n' ∉ u) :
    SingleLine (t ++ u) where
  begins := by
    obtain ⟨c, hc, hne⟩ := h.begins
    refine ⟨c, ?_, hne⟩
    rw [List.head?_append, Option.mem_def.mp hc]
    rfl
  unbroken := by
    rw [List.mem_append]
    exact fun hmem => hmem.elim h.unbroken hu

theorem plainLine_of_unspaced {t : List Char} (hne : t ≠ []) (h : ∀ c ∈ t, c ≠ ' ' ∧ c ≠ '\n') :
    PlainLine t where
  begins := by
    obtain ⟨c, cs, rfl⟩ := List.exists_cons_of_ne_nil hne
    exact ⟨c, rfl, (h c (.head _)).1⟩
  unbroken := fun hmem => (h '\n' hmem).2 rfl
  oneWord := by
    intro word more ht _
    have hblank : ' ' ∈ t := by
      rw [ht]
      exact List.mem_append_right _ (.head _)
    exact absurd rfl (h ' ' hblank).1

theorem plainLine_word {word : List Char} (h : isIdentifier word = true) : PlainLine word := by
  refine plainLine_of_unspaced ?_ fun c hc =>
    ne_space_of_isIdentifierPart (all_part_of_isIdentifier h c hc)
  rintro rfl
  cases h

/-- What begins with a bracket or a quote does not begin with a word. -/
theorem plainLine_cons {c : Char} {rest : List Char} (hc : isIdentifierPart c = false)
    (hblank : c ≠ ' ') (hbreak : c ≠ '\n') (hrest : '\n' ∉ rest) : PlainLine (c :: rest) where
  begins := ⟨c, rfl, hblank⟩
  unbroken := by
    rw [List.mem_cons]
    exact fun hmem => hmem.elim (fun heq => hbreak heq.symm) hrest
  oneWord := by
    intro word more ht hword
    cases word with
    | nil => exact absurd (List.cons.inj ht).1 hblank
    | cons d word =>
      obtain rfl := (List.cons.inj ht).1
      rw [hword c (.head _)] at hc
      cases hc

/-- A plain line may go on with a character that no word holds. If that is a blank, no word may
follow it. -/
theorem PlainLine.append_cons {t rest : List Char} {c : Char} (h : PlainLine t)
    (hc : isIdentifierPart c = false) (hbreak : c ≠ '\n') (hrest : '\n' ∉ rest)
    (hblank : c = ' ' → EndsRow isIdentifierStart rest) : PlainLine (t ++ c :: rest) where
  toSingleLine := h.toSingleLine.append <| by
    rw [List.mem_cons]
    exact fun hmem => hmem.elim (fun heq => hbreak heq.symm) hrest
  oneWord := by
    intro word more ht hword
    rcases List.append_eq_append_iff.mp ht with ⟨more', hmore, heq⟩ | ⟨more', hmore, heq⟩
    · -- The blank does not stand in the line that went on.
      cases more' with
      | nil =>
        obtain ⟨rfl, rfl⟩ := List.cons.inj heq
        exact hblank rfl
      | cons d more' =>
        obtain rfl := (List.cons.inj heq).1
        have hpart : isIdentifierPart c = true := by
          apply hword
          rw [hmore]
          exact List.mem_append_right _ (.head _)
        rw [hpart] at hc
        cases hc
    · cases more' with
      | nil =>
        obtain ⟨rfl, rfl⟩ := List.cons.inj heq
        exact hblank rfl
      | cons d more' =>
        obtain ⟨rfl, rfl⟩ := List.cons.inj heq
        have hends := h.oneWord word more' hmore hword
        cases more' with
        | nil => exact endsRow_cons (isIdentifierStart_of_not_part hc) rest
        | cons e more' => exact hends

theorem unbroken_commaJoin {ts : List (List Char)} (h : ∀ t ∈ ts, '\n' ∉ t) :
    '\n' ∉ commaJoin ts := by
  intro hmem
  rcases Text.mem_intercalate hmem with hsep | ⟨t, ht, hmem⟩
  · exact absurd hsep (by decide)
  · exact h t ht hmem

variable {q : QuoteStyle}

theorem plainLine_literal (l : Literal) : PlainLine (l.text q) := by
  cases l with
  | string s =>
    have hunbroken : '\n' ∉ quoted q.delimiter s.toList := by
      intro hmem
      exact absurd (isControl_of_mem_quoted q hmem) (by decide)
    rw [quoted] at hunbroken
    exact plainLine_cons (by cases q <;> decide) (by cases q <;> decide) (by cases q <;> decide)
      fun hmem => hunbroken (.tail _ hmem)
  | int n =>
    obtain ⟨c, ds, hdecimal, hc, hds⟩ := Text.exists_decimal n.toInt
    rw [Literal.text, hdecimal]
    refine plainLine_of_unspaced (List.cons_ne_nil _ _) (List.forall_mem_cons.mpr ⟨?_, ?_⟩)
    · rcases hc with rfl | hc
      · decide
      · exact ne_space_of_isIdentifierPart (isIdentifierPart_of_isDigit hc)
    · exact fun d hd => ne_space_of_isIdentifierPart (isIdentifierPart_of_isDigit (hds d hd))
  | bool b =>
    cases b with
    | true =>
      have hword : isIdentifier ['T', 'r', 'u', 'e'] = true := by decide
      exact plainLine_word hword
    | false =>
      have hword : isIdentifier ['F', 'a', 'l', 's', 'e'] = true := by decide
      exact plainLine_word hword

/-- Joined texts and the bracket that closes them. -/
theorem unbroken_bracketed {closing : Char} (hclosing : closing ≠ '\n') {ts : List (List Char)}
    (h : ∀ t ∈ ts, '\n' ∉ t) : '\n' ∉ commaJoin ts ++ [closing] := by
  rw [List.mem_append, List.mem_singleton]
  exact fun hmem => hmem.elim (unbroken_commaJoin h) fun heq => hclosing heq.symm

/-- An expression over checked identifiers is printed as a plain line. -/
theorem plainLine_expr {e : Expr} (he : e.AllIdents Ident.Checked) {t : List Char}
    (ht : e.text q = .ok t) : PlainLine t := by
  induction e generalizing t with
  | literal l =>
    cases ht
    exact plainLine_literal l
  | name i =>
    obtain ⟨-, rfl⟩ := Ident.text_eq_ok_iff.mp ht
    exact plainLine_word (he.self i (.head _))
  | attr v i hv =>
    obtain ⟨hself, hev⟩ := Expr.everywhere_attr.mp he
    obtain ⟨tv, htv, -, rfl⟩ := Expr.text_attr_eq_ok_iff.mp ht
    have hname := plainLine_word (hself i (.head _))
    exact (hv hev htv).append_cons (by decide) (by decide) hname.unbroken (fun h => by cases h)
  | subscript v i hv hi =>
    obtain ⟨-, hev, hei⟩ := Expr.everywhere_subscript.mp he
    obtain ⟨tv, ti, htv, hti, rfl⟩ := Expr.text_subscript_eq_ok_iff.mp ht
    refine (hv hev htv).append_cons (by decide) (by decide) ?_ (fun h => by cases h)
    exact ((hi hei hti).toSingleLine.append (u := [']']) (by decide)).unbroken
  | bitOr l r hl hr =>
    obtain ⟨-, hel, her⟩ := Expr.everywhere_bitOr.mp he
    obtain ⟨tl, tr, htl, htr, rfl⟩ := Expr.text_bitOr_eq_ok_iff.mp ht
    have hright := (hr her htr).unbroken
    refine (hl hel htl).append_cons (by decide) (by decide) ?_ fun _ => endsRow_cons (by decide) _
    simpa using hright
  | list es hes =>
    obtain ⟨-, hees⟩ := Expr.everywhere_list.mp he
    obtain ⟨ts, hts, rfl⟩ := Expr.text_list_eq_ok_iff.mp ht
    refine plainLine_cons (by decide) (by decide) (by decide) (unbroken_bracketed (by decide) ?_)
    exact forall_mem_of_forall₂ hts fun e he t ht => (hes e he (hees e he) ht).unbroken
  | dict es hes =>
    obtain ⟨-, hees⟩ := Expr.everywhere_dict.mp he
    obtain ⟨ts, hts, rfl⟩ := Expr.text_dict_eq_ok_iff.mp ht
    refine plainLine_cons (by decide) (by decide) (by decide) (unbroken_bracketed (by decide) ?_)
    refine forall_mem_of_forall₂ hts ?_
    intro x hx t ht
    obtain ⟨tk, tv, htk, htv, rfl⟩ := Entry.text_eq_ok_iff.mp ht
    have hkey := ((hes x hx).1 (hees x hx).1 htk).toSingleLine
    have hvalue := ((hes x hx).2 (hees x hx).2 htv).unbroken
    exact (hkey.append (u := ':' :: ' ' :: tv) (by simpa using hvalue)).unbroken
  | call f xs hf hxs =>
    obtain ⟨hself, hef, hexs⟩ := Expr.everywhere_call.mp he
    obtain ⟨tf, ts, htf, hts, rfl⟩ := Expr.text_call_eq_ok_iff.mp ht
    refine (hf hef htf).append_cons (by decide) (by decide) (unbroken_bracketed (by decide) ?_)
      (fun h => by cases h)
    refine forall_mem_of_forall₂ hts ?_
    intro x hx t ht
    obtain ⟨keyword, value⟩ := x
    cases keyword with
    | none => exact (hxs _ hx (hexs _ hx) ht).unbroken
    | some k =>
      obtain ⟨tv, -, htv, rfl⟩ := Argument.text_named_eq_ok_iff.mp ht
      have hkeyword := plainLine_word (hself k (List.mem_filterMap.mpr ⟨_, hx, rfl⟩))
      have hvalue := (hxs _ hx (hexs _ hx) htv).unbroken
      exact (hkeyword.append (u := ' ' :: '=' :: ' ' :: tv) (by simpa using hvalue)).unbroken

end ScriptTree.Print
