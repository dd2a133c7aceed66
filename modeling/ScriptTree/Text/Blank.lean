import ScriptTree.Text.Range

/-!
# Blanks

A blank is a character with the Unicode property White_Space. The no-break spaces and the line and
paragraph separators have it; the zero width space, the byte order mark and the separators U+001C
to U+001F do not. `trim` removes the blanks at both ends of a text.
-/
namespace ScriptTree.Text

/-- The code points with the property White_Space. -/
def blankRanges : Ranges :=
  [(9, 13), (32, 32), (133, 133), (160, 160), (5760, 5760), (8192, 8202), (8232, 8233),
   (8239, 8239), (8287, 8287), (12288, 12288)]

theorem ascending_blankRanges : ascending blankRanges = true := by decide

/-- Whether a character is white space. -/
def isBlank (c : Char) : Bool := inRanges c.toNat blankRanges

theorem isBlank_iff (c : Char) :
    isBlank c = true ↔ ∃ r ∈ blankRanges, r.1 ≤ c.toNat ∧ c.toNat ≤ r.2 :=
  inRanges_iff ascending_blankRanges c.toNat

/-- The text without the blanks at its end. -/
def trimEnd (cs : List Char) : List Char := (cs.reverse.dropWhile isBlank).reverse

/-- The text without the blanks at its two ends. -/
def trim (cs : List Char) : List Char := trimEnd (cs.dropWhile isBlank)

end ScriptTree.Text
