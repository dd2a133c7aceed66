import ScriptTree.Identifier
import ScriptTree.Proofs.Text.Span

/-!
# Words in a text

Where an identifier begins and ends in a text. An identifier begins with no character that begins
any other token, ASCII digits may stand in it but not at its front, and it goes on up to the first
character that cannot stand in one.
-/
namespace ScriptTree

/-- No identifier goes on into this text. -/
abbrev WordEnds (rest : List Char) : Prop := Text.EndsRow isIdentifierPart rest

theorem isIdentifierPart_of_start {c : Char} (h : isIdentifierStart c = true) :
    isIdentifierPart c = true := by
  rw [isIdentifierPart, ← isIdentifierStart, h, Bool.true_or]

theorem digit_code {c : Char} (h : c.isDigit = true) : 48 ≤ c.toNat ∧ c.toNat ≤ 57 := by
  simp only [Char.isDigit, Bool.and_eq_true, decide_eq_true_eq, ge_iff_le, UInt32.le_iff_toNat_le]
    at h
  exact h

theorem isIdentifierPart_of_isDigit {c : Char} (h : c.isDigit = true) :
    isIdentifierPart c = true := by
  have hn : Text.isNumeral c = true :=
    (Text.isNumeral_iff c).mpr ⟨(48, 57), .head _, digit_code h⟩
  rw [isIdentifierPart, hn, Bool.or_true]

/-- Below the capital letters there are no letters. -/
theorem isLetter_of_lt {c : Char} (h : c.toNat < 65) : Text.isLetter c = false := by
  rw [Text.isLetter, Text.letterRanges, Text.inRanges, if_pos h]

theorem isIdentifierStart_of_isDigit {c : Char} (h : c.isDigit = true) :
    isIdentifierStart c = false := by
  have hcode := digit_code h
  have hne : c ≠ '_' := by
    rintro rfl
    exact absurd hcode.2 (by decide)
  rw [isIdentifierStart, isLetter_of_lt (by omega), Bool.or_false]
  exact beq_false_of_ne hne

theorem isIdentifier_iff {cs : List Char} :
    isIdentifier cs = true ↔
      ∃ c rest, cs = c :: rest ∧ isIdentifierStart c = true ∧ ∀ d ∈ rest, isIdentifierPart d = true := by
  cases cs with
  | nil => simp [isIdentifier]
  | cons c cs => simp [isIdentifier]

theorem all_part_of_isIdentifier {cs : List Char} (h : isIdentifier cs = true) :
    ∀ c ∈ cs, isIdentifierPart c = true := by
  obtain ⟨c, rest, rfl, hc, hrest⟩ := isIdentifier_iff.mp h
  exact List.forall_mem_cons.mpr ⟨isIdentifierPart_of_start hc, hrest⟩

/-- Blanks and line breaks stand in no identifier. -/
theorem ne_space_of_isIdentifierPart {c : Char} (h : isIdentifierPart c = true) :
    c ≠ ' ' ∧ c ≠ '\n' := by
  constructor
  · rintro rfl
    exact absurd h (by decide)
  · rintro rfl
    exact absurd h (by decide)

theorem isIdentifierStart_of_not_part {c : Char} (h : isIdentifierPart c = false) :
    isIdentifierStart c = false := by
  cases hstart : isIdentifierStart c with
  | false => rfl
  | true =>
    rw [isIdentifierPart_of_start hstart] at h
    cases h

theorem ne_empty_of_isIdentifier {name : String} (h : isIdentifier name.toList = true) :
    name ≠ "" := by
  rintro rfl
  exact absurd h (by decide)

/-- The check of the drafts, as a property of identifiers. -/
abbrev Ident.Checked (i : Ident) : Prop := isIdentifier i.name.toList = true

theorem Ident.Checked.ne_empty {i : Ident} (h : i.Checked) : i.name ≠ "" :=
  ne_empty_of_isIdentifier h

end ScriptTree
