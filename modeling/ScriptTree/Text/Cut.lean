/-!
# Cut texts

A reader that takes a stretch from the front of a text answers with the stretch and the rest.
`consFirst` puts one more character in front of the stretch.
-/
namespace ScriptTree.Text

/-- Puts a character in front of the first part of a cut text, if there is one. -/
def consFirst (c : Char) : Option (List Char × List Char) → Option (List Char × List Char)
  | some (taken, rest) => some (c :: taken, rest)
  | none => none

@[simp] theorem consFirst_none (c : Char) : consFirst c none = none := rfl

@[simp] theorem consFirst_some (c : Char) (taken rest : List Char) :
    consFirst c (some (taken, rest)) = some (c :: taken, rest) := rfl

theorem consFirst_eq_some_iff {c : Char} {cut : Option (List Char × List Char)}
    {taken rest : List Char} :
    consFirst c cut = some (taken, rest) ↔
      ∃ taken', cut = some (taken', rest) ∧ taken = c :: taken' := by
  cases cut with
  | none => simp
  | some p =>
    obtain ⟨taken', rest'⟩ := p
    simp only [consFirst_some, Option.some.injEq, Prod.mk.injEq]
    constructor
    · rintro ⟨rfl, rfl⟩; exact ⟨taken', ⟨rfl, rfl⟩, rfl⟩
    · rintro ⟨_, ⟨rfl, rfl⟩, rfl⟩; exact ⟨rfl, rfl⟩

end ScriptTree.Text
