import Mathlib.Data.List.Basic
import ScriptTree.Text.Integer

/-!
# Integer texts

Which texts read as an integer, and as which: ASCII digits, with a minus sign in front or not. The
decimal text of a number is one of them and has no other characters. An integer fits 64 bits if it is
the value of a 64-bit integer.
-/
namespace ScriptTree.Text

/-- One or more ASCII digits. -/
def Digits (cs : List Char) : Prop := cs ≠ [] ∧ ∀ c ∈ cs, c.isDigit = true

theorem readDigits?_eq_some_iff {cs : List Char} {n : Nat} :
    readDigits? cs = some n ↔ Digits cs ∧ Nat.ofDigitChars 10 cs 0 = n := by
  rw [readDigits?]
  split
  · next h =>
    have hd : Digits cs := ⟨h.1, List.all_eq_true.mp h.2⟩
    simp [hd]
  · next h =>
    have hnot : ¬ Digits cs := fun hd => h ⟨hd.1, List.all_eq_true.mpr hd.2⟩
    simp [hnot]

theorem Digits.ne_minus {cs ds : List Char} (h : Digits cs) : cs ≠ '-' :: ds := by
  rintro rfl
  exact absurd (h.2 '-' (.head _)) (by decide)

/-- An integer text is a row of digits or a minus sign before one. -/
theorem readInteger?_eq_some_iff {cs : List Char} {n : Int} :
    readInteger? cs = some n ↔
      (Digits cs ∧ (Nat.ofDigitChars 10 cs 0 : Int) = n) ∨
        ∃ ds, cs = '-' :: ds ∧ Digits ds ∧ -(Nat.ofDigitChars 10 ds 0 : Int) = n := by
  unfold readInteger?
  split
  · next ds =>
    have hnot : ¬ Digits ('-' :: ds) := fun h => h.ne_minus rfl
    simp [hnot, readDigits?_eq_some_iff, and_assoc]
  · next hplain =>
    have hnot : ∀ ds, cs ≠ '-' :: ds := hplain
    simp [hnot, readDigits?_eq_some_iff, and_assoc]

theorem digits_toDigits (n : Nat) : Digits (Nat.toDigits 10 n) :=
  (readDigits?_eq_some_iff.mp (readDigits?_toDigits n)).1

/-- A decimal text is a minus sign or a digit and then digits only. -/
theorem exists_decimal (n : Int) :
    ∃ c ds, decimal n = c :: ds ∧ (c = '-' ∨ c.isDigit = true) ∧ ∀ d ∈ ds, d.isDigit = true := by
  obtain ⟨hne, hall⟩ := digits_toDigits n.natAbs
  rw [decimal]
  split
  · exact ⟨'-', _, rfl, .inl rfl, hall⟩
  · obtain ⟨c, ds, hds⟩ := List.exists_cons_of_ne_nil hne
    rw [hds] at hall ⊢
    exact ⟨c, ds, rfl, .inr (hall c (.head _)), fun d hd => hall d (.tail _ hd)⟩

/-- What begins a decimal text is no other character. -/
theorem ne_of_begins_decimal {c d : Char} (hc : c = '-' ∨ c.isDigit = true)
    (hd : ¬ (d = '-' ∨ d.isDigit = true)) : c ≠ d := by
  rintro rfl
  exact hd hc

theorem int64?_eq_some_iff {n : Int} {i : Int64} : int64? n = some i ↔ n = i.toInt := by
  constructor
  · intro h
    rw [int64?] at h
    split at h
    · next hrange =>
      cases h
      rw [Int64.toInt_ofInt_of_le hrange.1 (by omega)]
    · cases h
  · rintro rfl
    exact int64?_toInt i

end ScriptTree.Text
