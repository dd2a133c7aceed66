import Mathlib.Tactic.Ring
import ScriptTree.Proofs.Text.Digits
import ScriptTree.Proofs.Text.Trim
import ScriptTree.Proofs.Word

/-!
# Counts in text

A row of digits denotes the sum of the digits, each times the power of ten of its place. The readers
get there from the left, by ten times what they have and one digit more, and zeros at the front are
lost on the way. A count is such a row, maybe after a plus sign, for a number below 2^64.
-/
namespace ScriptTree.Text

/-- The sum of the digits, each times the power of ten of its place. -/
def placeValue : List Char → Nat
  | [] => 0
  | c :: cs => (c.toNat - '0'.toNat) * 10 ^ cs.length + placeValue cs

/-- Digits after a number move it up by their places. -/
theorem ofDigitChars_eq (cs : List Char) (n : Nat) :
    Nat.ofDigitChars 10 cs n = n * 10 ^ cs.length + placeValue cs := by
  induction cs generalizing n with
  | nil => simp [placeValue]
  | cons c cs ih =>
    rw [Nat.ofDigitChars_cons, ih, placeValue, List.length_cons, pow_succ]
    ring

theorem ofDigitChars_zero (cs : List Char) : Nat.ofDigitChars 10 cs 0 = placeValue cs := by
  rw [ofDigitChars_eq, Nat.zero_mul, Nat.zero_add]

theorem placeValue_toDigits (n : Nat) : placeValue (Nat.toDigits 10 n) = n := by
  rw [← ofDigitChars_zero, Nat.ofDigitChars_ten_toDigits]

theorem placeValue_zeros {zeros : List Char} (h : ∀ c ∈ zeros, c = '0') (cs : List Char) :
    placeValue (zeros ++ cs) = placeValue cs := by
  induction zeros with
  | nil => rfl
  | cons c zeros ih =>
    obtain ⟨rfl, hzeros⟩ := List.forall_mem_cons.mp h
    rw [List.cons_append, placeValue, Nat.sub_self, Nat.zero_mul, Nat.zero_add, ih hzeros]

/-- The text of a count, and which count it is. -/
inductive SpellsCount : List Char → Nat → Prop
  | bare {digits : List Char} (h : Digits digits) (hfits : placeValue digits < 2 ^ 64) :
      SpellsCount digits (placeValue digits)
  | signed {digits : List Char} (h : Digits digits) (hfits : placeValue digits < 2 ^ 64) :
      SpellsCount ('+' :: digits) (placeValue digits)

theorem Digits.ne_plus {cs ds : List Char} (h : Digits cs) : cs ≠ '+' :: ds := by
  rintro rfl
  exact absurd (h.2 '+' (.head _)) (by decide)

/-- Digits are read as a count unless the number is too large. -/
theorem filter_readDigits?_eq_some_iff {cs : List Char} {n : Nat} :
    (readDigits? cs).filter (· ≤ maxCount) = some n ↔
      Digits cs ∧ placeValue cs = n ∧ n < 2 ^ 64 := by
  have hmax : n ≤ maxCount ↔ n < 2 ^ 64 := by
    rw [maxCount]
    omega
  rw [Option.filter_eq_some_iff, readDigits?_eq_some_iff, ofDigitChars_zero, decide_eq_true_eq, hmax,
    and_assoc]

/-- What is read as a count is the text of that count. -/
theorem readCount?_eq_some_iff {cs : List Char} {n : Nat} :
    readCount? cs = some n ↔ SpellsCount cs n := by
  unfold readCount?
  split
  · next digits =>
    rw [filter_readDigits?_eq_some_iff]
    constructor
    · rintro ⟨hdigits, rfl, hfits⟩
      exact .signed hdigits hfits
    · intro h
      cases h with
      | bare hdigits _ => exact absurd rfl hdigits.ne_plus
      | signed hdigits hfits => exact ⟨hdigits, rfl, hfits⟩
  · next hplus =>
    rw [filter_readDigits?_eq_some_iff]
    constructor
    · rintro ⟨hdigits, rfl, hfits⟩
      exact .bare hdigits hfits
    · intro h
      cases h with
      | bare hdigits hfits => exact ⟨hdigits, rfl, hfits⟩
      | signed _ _ => exact absurd rfl (hplus _)

/-- A count has no blanks in its text. -/
theorem SpellsCount.trimmed {cs : List Char} {n : Nat} (h : SpellsCount cs n) : Trimmed cs := by
  have hdigit {c : Char} (hc : c.isDigit = true) : isBlank c = false := by
    have := digit_code hc
    exact isBlank_eq_false_of_visible (by omega)
  apply trimmed_of_forall
  cases h with
  | bare hdigits _ => exact fun c hc => hdigit (hdigits.2 c hc)
  | signed hdigits _ =>
    exact List.forall_mem_cons.mpr ⟨by decide, fun c hc => hdigit (hdigits.2 c hc)⟩

end ScriptTree.Text
