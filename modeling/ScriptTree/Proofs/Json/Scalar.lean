import Mathlib.Data.List.Basic
import ScriptTree.Json.Printer
import ScriptTree.Json.Reader
import ScriptTree.Proofs.Text.Digits
import ScriptTree.Proofs.Text.Span

/-!
# Strings and integers in JSON text

What the printer writes for a string or an integer is read back as that string or that integer, and
the text after it is left. A string ends with its quote, whatever comes next. An integer has no end
of its own, so the text after it must not go on with a number.
-/
namespace ScriptTree.Json.Reader

open Text (consFirst hexPair hexDigit? EndsRow)

/-! ## Strings -/

theorem stringBody_plain {c : Char} (hquote : c ≠ '"') (hslash : c ≠ '\\') (hcode : ¬ c.toNat < 32)
    (cs : List Char) : stringBody (c :: cs) = consFirst c (stringBody cs) := by
  rw [stringBody.eq_def]
  split
  · next h => cases h
  · next h => exact absurd (List.cons.inj h).1 hquote
  · next h => exact absurd (List.cons.inj h).1 hslash
  · next h => exact absurd (List.cons.inj h).1 hslash
  · next h =>
    cases h
    rw [if_neg]
    rintro (h | h)
    · exact hcode h
    · exact hslash h

theorem stringBody_short {e c : Char} (hunicode : e ≠ 'u') (he : shortEscape? e = some c)
    (cs : List Char) : stringBody ('\\' :: e :: cs) = consFirst c (stringBody cs) := by
  rw [stringBody.eq_def]
  split
  · next h => cases h
  · next h => cases h
  · next h => exact absurd (List.cons.inj (List.cons.inj h).2).1 hunicode
  · next h =>
    cases h
    rw [he]
  · next hnone h =>
    cases h
    exact absurd rfl (hnone _ _ rfl)

theorem stringBody_unicode {n : Nat} (hn : n < 32) (cs : List Char) :
    stringBody ('\\' :: 'u' :: '0' :: '0' :: (hexPair n ++ cs)) =
      consFirst (Char.ofNat n) (stringBody cs) := by
  have hhigh := Text.hexDigit?_digitChar (n := n / 16) (by omega)
  have hlow := Text.hexDigit?_digitChar (n := n % 16) (by omega)
  have hzero : hexDigit? '0' = some 0 := rfl
  have hcode : hex4? '0' '0' (Nat.digitChar (n / 16)) (Nat.digitChar (n % 16)) = some n := by
    have hsum : ((0 * 16 + 0) * 16 + n / 16) * 16 + n % 16 = n := by omega
    unfold hex4?
    rw [hzero, hhigh, hlow]
    exact congrArg some hsum
  show stringBody ('\\' :: 'u' :: '0' :: '0' :: Nat.digitChar (n / 16) :: Nat.digitChar (n % 16) ::
    cs) = _
  rw [stringBody, hcode]
  exact if_pos (.inl (by omega))

/-- What is written for a character is read back as that character. -/
theorem stringBody_escape (c : Char) (cs : List Char) :
    stringBody (escape c ++ cs) = consFirst c (stringBody cs) := by
  rw [escape]
  by_cases hquote : c = '"'
  · rw [if_pos hquote, hquote]
    exact stringBody_short (by decide) rfl cs
  rw [if_neg hquote]
  by_cases hslash : c = '\\'
  · rw [if_pos hslash, hslash]
    exact stringBody_short (by decide) rfl cs
  rw [if_neg hslash]
  by_cases hb : c = '\x08'
  · rw [if_pos hb, hb]
    exact stringBody_short (by decide) rfl cs
  rw [if_neg hb]
  by_cases hf : c = '\x0c'
  · rw [if_pos hf, hf]
    exact stringBody_short (by decide) rfl cs
  rw [if_neg hf]
  by_cases hn : c = '\n'
  · rw [if_pos hn, hn]
    exact stringBody_short (by decide) rfl cs
  rw [if_neg hn]
  by_cases hr : c = '\r'
  · rw [if_pos hr, hr]
    exact stringBody_short (by decide) rfl cs
  rw [if_neg hr]
  by_cases ht : c = '\t'
  · rw [if_pos ht, ht]
    exact stringBody_short (by decide) rfl cs
  rw [if_neg ht]
  by_cases hcode : c.toNat < 32
  · have h := stringBody_unicode hcode cs
    rw [Char.ofNat_toNat] at h
    rw [if_pos hcode]
    exact h
  · rw [if_neg hcode, List.singleton_append]
    exact stringBody_plain hquote hslash hcode cs

theorem stringBody_flatMap (s rest : List Char) :
    stringBody (s.flatMap escape ++ '"' :: rest) = some (s, rest) := by
  induction s with
  | nil => rw [List.flatMap_nil, List.nil_append, stringBody]
  | cons c s ih => rw [List.flatMap_cons, List.append_assoc, stringBody_escape, ih]; rfl

/-! ## Integers -/

/-- Characters that can go on with a number. -/
def isNumberPart (c : Char) : Bool := c.isDigit || c == '.' || c == 'e' || c == 'E'

/-- A number does not begin with a zero unless it is zero. -/
theorem eq_zero_of_head_toDigits {n : Nat} (h : (Nat.toDigits 10 n).head? = some '0') : n = 0 := by
  induction n using Nat.strongRecOn with
  | ind n ih =>
    by_cases hlt : n < 10
    · have digits : ∀ m : Fin 10, Nat.digitChar m.val = '0' → m.val = 0 := by decide
      rw [Nat.toDigits_of_lt_base hlt] at h
      exact digits ⟨n, hlt⟩ (Option.some.inj h)
    · rw [Nat.toDigits_of_base_le (by decide) (by omega), List.head?_append_of_ne_nil _
        Nat.toDigits_ne_nil] at h
      have := ih (n / 10) (by omega) h
      omega

theorem unsigned_toDigits {n : Nat} {rest : List Char} (hrest : EndsRow isNumberPart rest)
    (negative : Bool) :
    unsigned negative (Nat.toDigits 10 n ++ rest) =
      (integerOfDigits? negative (Nat.toDigits 10 n)).map fun m => (m, rest) := by
  obtain ⟨hne, hall⟩ := Text.digits_toDigits n
  have hends : EndsRow Char.isDigit rest := by
    intro c hc
    have hpart := hrest c hc
    simp only [isNumberPart, Bool.or_eq_false_iff] at hpart
    exact hpart.1.1.1
  have hdigits : digits (Nat.toDigits 10 n ++ rest) = some (Nat.toDigits 10 n, rest) := by
    simp only [digits, Text.takeWhile_row hall hends, Text.dropWhile_row hall hends, if_neg hne]
  have hzero : (Nat.toDigits 10 n).head? = some '0' → (Nat.toDigits 10 n).length = 1 := by
    intro h
    rw [eq_zero_of_head_toDigits h]
    rfl
  have hguard : (guard ((Nat.toDigits 10 n).head? = some '0' →
      (Nat.toDigits 10 n).length = 1) : Option Unit) = some () := if_pos hzero
  have hfraction : fraction rest = some (none, rest) := by
    unfold fraction
    split
    · exact absurd (hrest _ rfl) (by decide)
    · rfl
  have hexponent : exponent rest = some (none, rest) := by
    unfold exponent
    split
    · exact absurd (hrest _ rfl) (by decide)
    · exact absurd (hrest _ rfl) (by decide)
    · rfl
  unfold unsigned
  rw [hdigits, Option.bind_eq_bind, Option.bind_some]
  dsimp only
  rw [hguard]
  simp only [Option.bind_eq_bind, Option.bind_some, hfraction, hexponent]
  cases integerOfDigits? negative (Nat.toDigits 10 n) <;> rfl

/-- Integers from -2^63 to 2^64 - 1 stay integers. -/
theorem number_decimal {n : Int} (hlo : -9223372036854775808 ≤ n) (hhi : n ≤ 18446744073709551615)
    {rest : List Char} (hrest : EndsRow isNumberPart rest) :
    number (Text.decimal n ++ rest) = some (.integer n, rest) := by
  obtain ⟨hne, hall⟩ := Text.digits_toDigits n.natAbs
  have hvalue : Nat.ofDigitChars 10 (Nat.toDigits 10 n.natAbs) 0 = n.natAbs :=
    Nat.ofDigitChars_ten_toDigits
  rw [Text.decimal]
  by_cases hneg : n < 0
  · have habs : -(n.natAbs : Int) = n := by omega
    have hinteger : integerOfDigits? true (Nat.toDigits 10 n.natAbs) = some (.integer n) := by
      simp only [integerOfDigits?, hvalue, habs]
      rw [if_neg (by simp), if_pos ⟨trivial, by omega, by omega⟩]
    rw [if_pos hneg, List.cons_append, number, unsigned_toDigits hrest, hinteger]
    rfl
  · have habs : (n.natAbs : Int) = n := by omega
    have hinteger : integerOfDigits? false (Nat.toDigits 10 n.natAbs) = some (.integer n) := by
      simp only [integerOfDigits?, hvalue, habs]
      rw [if_pos ⟨trivial, by unfold maxSignificand; omega⟩]
    have hminus : ∀ cs, Nat.toDigits 10 n.natAbs ++ rest ≠ '-' :: cs := by
      intro cs h
      obtain ⟨d, ds, hds⟩ := List.exists_cons_of_ne_nil hne
      rw [hds, List.cons_append] at h
      have hdigit := hall d (by rw [hds]; exact .head _)
      rw [(List.cons.inj h).1] at hdigit
      exact absurd hdigit (by decide)
    rw [if_neg hneg, number.eq_2 _ hminus, unsigned_toDigits hrest, hinteger]
    rfl

/-! ## Values on one line -/

theorem scalar_quoted (s : String) (rest : List Char) :
    scalar (quoted s ++ rest) = some (.string s, rest) := by
  have hbody := stringBody_flatMap s.toList rest
  rw [quoted, List.cons_append, List.append_assoc, List.singleton_append, scalar, hbody]
  simp

theorem scalar_decimal {n : Int} (hlo : -9223372036854775808 ≤ n) (hhi : n ≤ 18446744073709551615)
    {rest : List Char} (hrest : EndsRow isNumberPart rest) :
    scalar (Text.decimal n ++ rest) = some (Json.integer n, rest) := by
  have hnumber := number_decimal hlo hhi hrest
  obtain ⟨c, ds, hdecimal, hc, -⟩ := Text.exists_decimal n
  rw [hdecimal, List.cons_append] at hnumber ⊢
  unfold scalar
  split
  · next h => exact absurd (List.cons.inj h).1 (Text.ne_of_begins_decimal hc (by decide))
  · next h => exact absurd (List.cons.inj h).1 (Text.ne_of_begins_decimal hc (by decide))
  · next h => exact absurd (List.cons.inj h).1 (Text.ne_of_begins_decimal hc (by decide))
  · next h => exact absurd (List.cons.inj h).1 (Text.ne_of_begins_decimal hc (by decide))
  · rw [hnumber]
    rfl

end ScriptTree.Json.Reader
