import Mathlib.Data.List.Basic
import ScriptTree.Path.Segment
import ScriptTree.Proofs.Text.Trim

/-!
# Balanced texts

What may stand inside the brackets of a subscript: a text in which every bracket has its partner
and every quote is closed, where brackets inside a quoted stretch do not count. The relation below
says this without a scanner. `takeSubscript_eq_some_iff` says that the scanner cuts a subscript at
the bracket before which the text is balanced, and there is at most one such bracket.
-/
namespace ScriptTree.Path

open Text (isBlank Blanks consFirst consFirst_eq_some_iff)

/-- A text that begins with `depth` brackets open and ends with none. -/
inductive Balanced : Nat → List Char → Prop
  | nil : Balanced 0 []
  | plain {depth : Nat} {c : Char} {cs : List Char} (hq : isQuote c = false) (ho : c ≠ '[')
      (hc : c ≠ ']') (h : Balanced depth cs) : Balanced depth (c :: cs)
  | opening {depth : Nat} {cs : List Char} (h : Balanced (depth + 1) cs) :
      Balanced depth ('[' :: cs)
  | closing {depth : Nat} {cs : List Char} (h : Balanced depth cs) :
      Balanced (depth + 1) (']' :: cs)
  | quoted {depth : Nat} {q : Char} {hidden cs : List Char} (hq : isQuote q = true)
      (hh : q ∉ hidden) (h : Balanced depth cs) : Balanced depth (q :: (hidden ++ q :: cs))

theorem isQuote_eq_false_of_isBlank {c : Char} (h : isBlank c = true) : isQuote c = false := by
  cases hq : isQuote c with
  | false => rfl
  | true =>
    simp only [isQuote, Bool.or_eq_true, beq_iff_eq] at hq
    rcases hq with rfl | rfl <;> exact absurd h (by decide)

theorem ne_opening_of_isBlank {c : Char} (h : isBlank c = true) : c ≠ '[' := by
  rintro rfl
  exact absurd h (by decide)

theorem ne_closing_of_isBlank {c : Char} (h : isBlank c = true) : c ≠ ']' := by
  rintro rfl
  exact absurd h (by decide)

/-! ## Blanks do not matter -/

theorem balanced_blank_cons {depth : Nat} {c : Char} {cs : List Char} (hc : isBlank c = true) :
    Balanced depth (c :: cs) ↔ Balanced depth cs := by
  have hquote := isQuote_eq_false_of_isBlank hc
  constructor
  · intro h
    cases h with
    | plain _ _ _ h => exact h
    | opening _ => exact absurd rfl (ne_opening_of_isBlank hc)
    | closing _ => exact absurd rfl (ne_closing_of_isBlank hc)
    | quoted hq _ _ => rw [hq] at hquote; cases hquote
  · exact .plain hquote (ne_opening_of_isBlank hc) (ne_closing_of_isBlank hc)

theorem balanced_blanks_append {depth : Nat} {pre cs : List Char} (hpre : Blanks pre) :
    Balanced depth (pre ++ cs) ↔ Balanced depth cs := by
  induction pre with
  | nil => rfl
  | cons c pre ih =>
    rw [List.cons_append, balanced_blank_cons (hpre c (.head _)),
      ih fun d hd => hpre d (.tail _ hd)]

theorem balanced_append_blank {depth : Nat} {c : Char} {cs : List Char} (hc : isBlank c = true) :
    Balanced depth (cs ++ [c]) ↔ Balanced depth cs := by
  have hquote := isQuote_eq_false_of_isBlank hc
  constructor
  · intro h
    generalize htext : cs ++ [c] = text at h
    induction h generalizing cs with
    | nil => simp at htext
    | @plain depth d ds hq ho hb h ih =>
      rcases List.append_eq_cons_iff.mp htext with ⟨rfl, hone⟩ | ⟨cs', rfl, hrest⟩
      · cases hone
        exact h
      · exact .plain hq ho hb (ih hrest.symm)
    | opening _ ih =>
      rcases List.append_eq_cons_iff.mp htext with ⟨rfl, hone⟩ | ⟨cs', rfl, hrest⟩
      · cases hone
        exact absurd rfl (ne_opening_of_isBlank hc)
      · exact .opening (ih hrest.symm)
    | closing _ ih =>
      rcases List.append_eq_cons_iff.mp htext with ⟨rfl, hone⟩ | ⟨cs', rfl, hrest⟩
      · cases hone
        exact absurd rfl (ne_closing_of_isBlank hc)
      · exact .closing (ih hrest.symm)
    | @quoted depth q hidden ds hq hh h ih =>
      -- The last character is a blank, hence not the quote that closes the stretch.
      have hne : ds ≠ [] := by
        rintro rfl
        have hlast := congrArg List.getLast? htext
        rw [← List.cons_append, List.getLast?_append, List.getLast?_append] at hlast
        cases hlast
        rw [hq] at hquote
        cases hquote
      obtain ⟨ds', d, rfl⟩ := List.eq_nil_or_concat' ds |>.resolve_left hne
      have hsplit : cs ++ [c] = (q :: (hidden ++ q :: ds')) ++ [d] := by
        rw [htext]
        simp only [List.cons_append, List.append_assoc]
      obtain ⟨rfl, hlast⟩ := List.append_inj' hsplit rfl
      cases hlast
      exact .quoted hq hh (ih rfl)
  · intro h
    induction h with
    | nil => exact .plain hquote (ne_opening_of_isBlank hc) (ne_closing_of_isBlank hc) .nil
    | plain hq ho hb _ ih => exact .plain hq ho hb ih
    | opening _ ih => exact .opening ih
    | closing _ ih => exact .closing ih
    | quoted hq hh _ ih =>
      rw [List.cons_append, List.append_assoc, List.cons_append]
      exact .quoted hq hh ih

theorem balanced_append_blanks {depth : Nat} {cs post : List Char} (hpost : Blanks post) :
    Balanced depth (cs ++ post) ↔ Balanced depth cs := by
  induction post generalizing cs with
  | nil => rw [List.append_nil]
  | cons c post ih =>
    have hc : isBlank c = true := hpost c (.head _)
    rw [List.append_cons, ih fun d hd => hpost d (.tail _ hd), balanced_append_blank hc]

/-! ## The scanner of a subscript -/

theorem takeSubscript_hidden {q : Char} {hidden : List Char} (hh : q ∉ hidden) (depth : Nat)
    (cs : List Char) :
    takeSubscript depth (some q) (hidden ++ q :: cs) =
      (takeSubscript depth none cs).map fun cut => (hidden ++ q :: cut.1, cut.2) := by
  induction hidden with
  | nil =>
    rw [List.nil_append, takeSubscript, if_pos rfl]
    cases takeSubscript depth none cs <;> rfl
  | cons c hidden ih =>
    have hc : c ≠ q := fun h => hh (h ▸ .head _)
    rw [List.cons_append, takeSubscript, if_neg hc, ih fun h => hh (.tail _ h)]
    cases takeSubscript depth none cs <;> rfl

/-- Before a closing bracket a balanced text is taken whole. -/
theorem takeSubscript_balanced {depth : Nat} {inside : List Char} (h : Balanced depth inside)
    (rest : List Char) :
    takeSubscript depth none (inside ++ ']' :: rest) = some (inside, rest) := by
  induction h with
  | nil => simp [takeSubscript, isQuote]
  | plain hq ho hc _ ih =>
    rw [List.cons_append, takeSubscript, if_neg (by simp [hq]), if_neg ho, if_neg hc, ih]
    rfl
  | opening _ ih =>
    rw [List.cons_append, takeSubscript, if_neg (by decide), if_pos rfl, ih]
    rfl
  | closing _ ih =>
    rw [List.cons_append, takeSubscript, if_neg (by decide), if_neg (by decide), if_pos rfl,
      if_neg (Nat.succ_ne_zero _), Nat.add_sub_cancel, ih]
    rfl
  | quoted hq hh _ ih =>
    rw [List.cons_append, takeSubscript, if_pos hq, List.append_assoc, List.cons_append,
      takeSubscript_hidden hh, ih]
    rfl

/-- An open quote is closed by the next occurrence of its character. -/
theorem exists_hidden {depth : Nat} {q : Char} {cs inside rest : List Char}
    (h : takeSubscript depth (some q) cs = some (inside, rest)) :
    ∃ hidden cs' inside', cs = hidden ++ q :: cs' ∧ q ∉ hidden ∧ inside = hidden ++ q :: inside' ∧
      takeSubscript depth none cs' = some (inside', rest) := by
  induction cs generalizing inside with
  | nil => simp [takeSubscript] at h
  | cons c cs ih =>
    rw [takeSubscript] at h
    obtain ⟨inside', htake, rfl⟩ := consFirst_eq_some_iff.mp h
    by_cases hc : c = q
    · rw [if_pos hc] at htake
      exact ⟨[], cs, inside', by rw [hc]; rfl, List.not_mem_nil, by rw [hc]; rfl, htake⟩
    · rw [if_neg hc] at htake
      obtain ⟨hidden, cs', inside'', rfl, hh, rfl, hafter⟩ := ih htake
      refine ⟨c :: hidden, cs', inside'', rfl, ?_, rfl, hafter⟩
      rintro (_ | ⟨_, hmem⟩)
      · exact hc rfl
      · exact hh hmem

theorem balanced_of_takeSubscript {depth : Nat} {cs inside rest : List Char}
    (h : takeSubscript depth none cs = some (inside, rest)) : Balanced depth inside := by
  -- A quoted stretch is passed in one go, so the induction is on the length.
  induction hlen : cs.length using Nat.strongRecOn generalizing depth cs inside with
  | ind n ih =>
    subst hlen
    cases cs with
    | nil => simp [takeSubscript] at h
    | cons c cs =>
      rw [takeSubscript] at h
      by_cases hq : isQuote c = true
      · rw [if_pos hq] at h
        obtain ⟨inside', htake, rfl⟩ := consFirst_eq_some_iff.mp h
        obtain ⟨hidden, cs', inside'', rfl, hh, rfl, hafter⟩ := exists_hidden htake
        refine .quoted hq hh (ih cs'.length ?_ hafter rfl)
        simp only [List.length_cons, List.length_append]
        omega
      rw [if_neg hq] at h
      by_cases ho : c = '['
      · rw [if_pos ho] at h
        obtain ⟨inside', htake, rfl⟩ := consFirst_eq_some_iff.mp h
        rw [ho]
        exact .opening (ih cs.length (Nat.lt_succ_self _) htake rfl)
      rw [if_neg ho] at h
      by_cases hc : c = ']'
      · rw [if_pos hc] at h
        cases depth with
        | zero =>
          cases h
          exact .nil
        | succ depth =>
          rw [if_neg (Nat.succ_ne_zero _)] at h
          obtain ⟨inside', htake, rfl⟩ := consFirst_eq_some_iff.mp h
          rw [hc]
          exact .closing (ih cs.length (Nat.lt_succ_self _) htake rfl)
      · rw [if_neg hc] at h
        obtain ⟨inside', htake, rfl⟩ := consFirst_eq_some_iff.mp h
        exact .plain (by simpa using hq) ho hc (ih cs.length (Nat.lt_succ_self _) htake rfl)

/-- A subscript ends at the bracket before which its text is balanced. -/
theorem takeSubscript_eq_some_iff {depth : Nat} {cs inside rest : List Char} :
    takeSubscript depth none cs = some (inside, rest) ↔
      cs = inside ++ ']' :: rest ∧ Balanced depth inside := by
  constructor
  · intro h
    exact ⟨takeSubscript_eq h, balanced_of_takeSubscript h⟩
  · intro h
    obtain ⟨rfl, h⟩ := h
    exact takeSubscript_balanced h rest

end ScriptTree.Path
