import Mathlib.Data.List.Basic

/-!
# The row at the front of a text

A reader that takes all characters of a class from the front of a text takes exactly a row of that
class, if the text after the row begins with a character outside it. A reader that looks for a fixed
word finds it or leaves the text alone.
-/
namespace ScriptTree.Text

/-- What follows a row of characters begins outside their class. -/
def EndsRow (p : Char → Bool) (rest : List Char) : Prop := ∀ c ∈ rest.head?, p c = false

theorem endsRow_nil (p : Char → Bool) : EndsRow p [] := fun _ h => nomatch h

theorem endsRow_cons {p : Char → Bool} {c : Char} (h : p c = false) (cs : List Char) :
    EndsRow p (c :: cs) := by
  intro d hd
  cases hd
  exact h

theorem dropWhile_row {p : Char → Bool} {row rest : List Char} (hrow : ∀ c ∈ row, p c = true)
    (hrest : EndsRow p rest) : (row ++ rest).dropWhile p = rest := by
  rw [List.dropWhile_append_of_pos hrow]
  cases rest with
  | nil => rfl
  | cons c rest =>
    have hc : ¬ p c = true := by simp [hrest c rfl]
    exact List.dropWhile_cons_of_neg hc

theorem takeWhile_row {p : Char → Bool} {row rest : List Char} (hrow : ∀ c ∈ row, p c = true)
    (hrest : EndsRow p rest) : (row ++ rest).takeWhile p = row := by
  rw [List.takeWhile_append_of_pos hrow]
  cases rest with
  | nil => exact List.append_nil row
  | cons c rest =>
    have hc : ¬ p c = true := by simp [hrest c rfl]
    rw [List.takeWhile_cons_of_neg hc, List.append_nil]

/-- The text after a word, if the text begins with the word. -/
def after? : List Char → List Char → Option (List Char)
  | [], cs => some cs
  | _ :: _, [] => none
  | w :: word, c :: cs => if w = c then after? word cs else none

theorem after?_eq_some {word cs rest : List Char} (h : after? word cs = some rest) :
    cs = word ++ rest := by
  induction word generalizing cs with
  | nil => exact Option.some.inj h
  | cons w word ih =>
    cases cs with
    | nil => cases h
    | cons c cs =>
      rw [after?] at h
      split at h
      · next hw => rw [hw, ih h]; rfl
      · cases h

theorem after?_of_ne {w c : Char} (h : w ≠ c) (word cs : List Char) :
    after? (w :: word) (c :: cs) = none := if_neg h

end ScriptTree.Text
