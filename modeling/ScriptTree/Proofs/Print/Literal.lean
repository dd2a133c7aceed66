import Mathlib.Data.List.Basic
import ScriptTree.Print.Expr
import ScriptTree.Text.Cut

/-!
# Reading string literals

A reader of the inside of a string literal, written from the escapes that a literal may hold and
not from the printer. It stops at the first delimiter that no backslash announces, whatever comes
after it, and it refuses a control character that stands as it is. It reads back what the printer
writes, and so printed literals stop by themselves; they hold no control character at all.
-/
namespace ScriptTree.Print

open Text (consFirst hexDigit? hexPair)

/-- The character that a backslash and one more character stand for. -/
def shortEscape? (delimiter e : Char) : Option Char :=
  if e = '\\' then some '\\'
  else if e = 'n' then some '\n'
  else if e = 'r' then some '\r'
  else if e = 't' then some '\t'
  else if e = delimiter then some delimiter
  else none

/-- The inside of a literal up to its closing delimiter, and the text after that. -/
def literalBody (delimiter : Char) : List Char → Option (List Char × List Char)
  | [] => none
  | c :: cs =>
    if c = delimiter then some ([], cs)
    else if c = '\\' then
      match cs with
      | [] => none
      | e :: cs =>
        if e = 'x' then
          match cs with
          | a :: b :: cs =>
            match hexDigit? a, hexDigit? b with
            | some high, some low =>
              consFirst (Char.ofNat (16 * high + low)) (literalBody delimiter cs)
            | _, _ => none
          | _ => none
        else
          match shortEscape? delimiter e with
          | some c => consFirst c (literalBody delimiter cs)
          | none => none
    else if isControl c then none
    else consFirst c (literalBody delimiter cs)

/-- A literal from the front of a text: its value and the text after it. -/
def readLiteral? (delimiter : Char) : List Char → Option (List Char × List Char)
  | [] => none
  | c :: cs => if c = delimiter then literalBody delimiter cs else none

variable (q : QuoteStyle)

theorem literalBody_plain {c : Char} (hd : c ≠ q.delimiter) (hb : c ≠ '\\')
    (hc : isControl c = false) (cs : List Char) :
    literalBody q.delimiter (c :: cs) = consFirst c (literalBody q.delimiter cs) := by
  rw [literalBody.eq_def]
  simp only [if_neg hd, if_neg hb, hc, Bool.false_eq_true, if_false]

theorem literalBody_short {e c : Char} (hx : e ≠ 'x') (he : shortEscape? q.delimiter e = some c)
    (cs : List Char) :
    literalBody q.delimiter ('\\' :: e :: cs) = consFirst c (literalBody q.delimiter cs) := by
  have hd : '\\' ≠ q.delimiter := by cases q <;> decide
  rw [literalBody.eq_def]
  simp only [if_neg hd, if_pos, if_neg hx, he]

theorem literalBody_hex {n : Nat} (hn : n < 256) (cs : List Char) :
    literalBody q.delimiter ('\\' :: 'x' :: (hexPair n ++ cs)) =
      consFirst (Char.ofNat n) (literalBody q.delimiter cs) := by
  have hd : '\\' ≠ q.delimiter := by cases q <;> decide
  have hhigh := Text.hexDigit?_digitChar (n := n / 16) (by omega)
  have hlow := Text.hexDigit?_digitChar (n := n % 16) (by omega)
  have hsum : 16 * (n / 16) + n % 16 = n := Nat.div_add_mod n 16
  change literalBody q.delimiter
    ('\\' :: 'x' :: Nat.digitChar (n / 16) :: Nat.digitChar (n % 16) :: cs) = _
  rw [literalBody.eq_def]
  simp only [if_neg hd, if_pos, hhigh, hlow, hsum]

/-- What is printed for a character is read back as that character. -/
theorem literalBody_escape (c : Char) (cs : List Char) :
    literalBody q.delimiter (escape q.delimiter c ++ cs) =
      consFirst c (literalBody q.delimiter cs) := by
  rw [escape]
  by_cases hb : c = '\\'
  · rw [if_pos hb, hb]
    exact literalBody_short q (by decide) rfl cs
  rw [if_neg hb]
  by_cases hn : c = '\n'
  · rw [if_pos hn, hn]
    exact literalBody_short q (by decide) rfl cs
  rw [if_neg hn]
  by_cases hr : c = '\r'
  · rw [if_pos hr, hr]
    exact literalBody_short q (by decide) rfl cs
  rw [if_neg hr]
  by_cases ht : c = '\t'
  · rw [if_pos ht, ht]
    exact literalBody_short q (by decide) rfl cs
  rw [if_neg ht]
  by_cases hd : c = q.delimiter
  · rw [if_pos hd, hd]
    exact literalBody_short q (by cases q <;> decide) (by cases q <;> rfl) cs
  rw [if_neg hd]
  by_cases hc : isControl c = true
  · have hlt : c.toNat < 256 := by
      simp only [isControl, Bool.or_eq_true, Bool.and_eq_true, decide_eq_true_eq] at hc
      omega
    have h := literalBody_hex q hlt cs
    rw [Char.ofNat_toNat] at h
    rw [if_pos hc]
    exact h
  · rw [if_neg hc, List.singleton_append]
    exact literalBody_plain q hd hb (by simpa using hc) cs

theorem literalBody_flatMap (s rest : List Char) :
    literalBody q.delimiter (s.flatMap (escape q.delimiter) ++ q.delimiter :: rest) =
      some (s, rest) := by
  induction s with
  | nil =>
    rw [List.flatMap_nil, List.nil_append, literalBody.eq_def]
    simp only [if_pos]
  | cons c s ih => rw [List.flatMap_cons, List.append_assoc, literalBody_escape, ih]; rfl

/-- A printed literal is read back whole, and the text after it is left. -/
theorem readLiteral?_quoted_append (s rest : List Char) :
    readLiteral? q.delimiter (quoted q.delimiter s ++ rest) = some (s, rest) := by
  rw [quoted, List.cons_append, readLiteral?, if_pos rfl, List.append_assoc]
  exact literalBody_flatMap q s rest

/-! ## No control characters -/

theorem isControl_delimiter : isControl q.delimiter = false := by cases q <;> decide

theorem isControl_of_mem_hexPair {n : Nat} (hn : n < 256) {c : Char} (h : c ∈ hexPair n) :
    isControl c = false := by
  have hdigit : ∀ m : Fin 16, isControl (Nat.digitChar m.val) = false := by decide
  simp only [hexPair, List.mem_cons, List.not_mem_nil, or_false] at h
  rcases h with rfl | rfl
  · exact hdigit ⟨n / 16, by omega⟩
  · exact hdigit ⟨n % 16, by omega⟩

theorem isControl_of_mem_escape {c d : Char} (h : d ∈ escape q.delimiter c) :
    isControl d = false := by
  have hshort {e : Char} (he : isControl e = false) (h : d ∈ ['\\', e]) : isControl d = false := by
    simp only [List.mem_cons, List.not_mem_nil, or_false] at h
    rcases h with rfl | rfl
    · decide
    · exact he
  rw [escape] at h
  split at h
  · exact hshort (by decide) h
  split at h
  · exact hshort (by decide) h
  split at h
  · exact hshort (by decide) h
  split at h
  · exact hshort (by decide) h
  split at h
  · exact hshort (isControl_delimiter q) h
  split at h
  · next hc =>
    have hlt : c.toNat < 256 := by
      simp only [isControl, Bool.or_eq_true, Bool.and_eq_true, decide_eq_true_eq] at hc
      omega
    rcases List.mem_cons.mp h with rfl | h
    · decide
    rcases List.mem_cons.mp h with rfl | h
    · decide
    · exact isControl_of_mem_hexPair hlt h
  · next hc =>
    obtain rfl := List.mem_singleton.mp h
    simpa using hc

/-- A printed literal holds no control character, so that it never spans lines. -/
theorem isControl_of_mem_quoted {s : List Char} {c : Char} (h : c ∈ quoted q.delimiter s) :
    isControl c = false := by
  rw [quoted, List.mem_cons, List.mem_append, List.mem_singleton, List.mem_flatMap] at h
  rcases h with rfl | ⟨d, -, h⟩ | rfl
  · exact isControl_delimiter q
  · exact isControl_of_mem_escape q h
  · exact isControl_delimiter q

/-! ## Literals that stop by themselves -/

/-- Where a printed literal ends and what it stands for can be told from any text that it begins. -/
theorem quoted_append_inj {s s' rest rest' : List Char} :
    quoted q.delimiter s ++ rest = quoted q.delimiter s' ++ rest' ↔ s = s' ∧ rest = rest' := by
  constructor
  · intro h
    have hread := readLiteral?_quoted_append q s rest
    rw [h, readLiteral?_quoted_append] at hread
    obtain ⟨hs, hrest⟩ := Prod.mk.inj (Option.some.inj hread)
    exact ⟨hs.symm, hrest.symm⟩
  · rintro ⟨rfl, rfl⟩
    rfl

theorem code_of_not_isControl {c : Char} (h : isControl c = false) :
    32 ≤ c.toNat ∧ (c.toNat < 127 ∨ 160 ≤ c.toNat) := by
  simp only [isControl, Bool.or_eq_false_iff, Bool.and_eq_false_iff, decide_eq_false_iff_not] at h
  omega

/-- The literal of a text, whatever text follows, reads as the first text and leaves the second; no
other pair of texts looks the same, and no character of the literal is a control character. -/
theorem quoted_selfDelimiting (s : String) (rest : List Char) :
    (Expr.string s).text q = .ok (quoted q.delimiter s.toList) ∧
      readLiteral? q.delimiter (quoted q.delimiter s.toList ++ rest) = some (s.toList, rest) ∧
      (∀ (s' : String) (rest' : List Char),
        quoted q.delimiter s.toList ++ rest = quoted q.delimiter s'.toList ++ rest' ↔
          s = s' ∧ rest = rest') ∧
      ∀ c ∈ quoted q.delimiter s.toList, 32 ≤ c.toNat ∧ (c.toNat < 127 ∨ 160 ≤ c.toNat) := by
  refine ⟨rfl, readLiteral?_quoted_append q s.toList rest, ?_, ?_⟩
  · intro s' rest'
    rw [quoted_append_inj, String.toList_inj]
  · exact fun c hc => code_of_not_isControl (isControl_of_mem_quoted q hc)

/-- Both quotes, a backslash, a line break, NUL, DEL and the last of the C1 controls. -/
def mixedText : String := "\"it's\" \n\u0000\u007f\u009f\\"

theorem quoted_selfDelimiting_mixed :
    readLiteral? '\'' (quoted '\'' mixedText.toList ++ ['\'', 'n']) =
        some (mixedText.toList, ['\'', 'n']) ∧
      'x' ∈ quoted '\'' mixedText.toList ∧
      32 ≤ 'x'.toNat ∧ ('x'.toNat < 127 ∨ 160 ≤ 'x'.toNat) := by
  obtain ⟨-, hread, -, hcodes⟩ := quoted_selfDelimiting .single mixedText ['\'', 'n']
  have hmem : 'x' ∈ quoted '\'' mixedText.toList := by decide +kernel
  exact ⟨hread, hmem, hcodes 'x' hmem⟩

end ScriptTree.Print
