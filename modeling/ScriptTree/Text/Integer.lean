/-!
# Integers in text

An integer text is an optional minus sign followed by ASCII digits, any number of leading zeros
included; there is no plus sign and no digit separator. `decimal` writes the shortest such text,
and reading it back gives the same number. Counts are read by the laxer rule of settings: blanks
are the caller's business, but a plus sign may stand in front.
-/
namespace ScriptTree.Text

/-- One or more ASCII digits, with the number that they denote. -/
def readDigits? (cs : List Char) : Option Nat :=
  if cs ≠ [] ∧ cs.all Char.isDigit then some (Nat.ofDigitChars 10 cs 0) else none

/-- The number that an integer text denotes. -/
def readInteger? : List Char → Option Int
  | '-' :: digits => (readDigits? digits).map fun (n : Nat) => -(n : Int)
  | digits => (readDigits? digits).map fun (n : Nat) => (n : Int)

/-- The decimal text of an integer, without leading zeros. -/
def decimal (n : Int) : List Char :=
  if n < 0 then '-' :: Nat.toDigits 10 n.natAbs else Nat.toDigits 10 n.natAbs

/-- The signed 64-bit integer equal to `n`, if there is one. -/
def int64? (n : Int) : Option Int64 :=
  if -9223372036854775808 ≤ n ∧ n ≤ 9223372036854775807 then some (Int64.ofInt n) else none

/-- The largest count that a setting can hold, which is 2^64 - 1. -/
def maxCount : Nat := 18446744073709551615

/-- A count: ASCII digits after an optional plus sign, below 2^64. -/
def readCount? (cs : List Char) : Option Nat :=
  let digits := match cs with
    | '+' :: rest => rest
    | _ => cs
  (readDigits? digits).filter (· ≤ maxCount)

theorem readDigits?_toDigits (n : Nat) : readDigits? (Nat.toDigits 10 n) = some n := by
  have hall : (Nat.toDigits 10 n).all Char.isDigit = true :=
    List.all_eq_true.mpr fun _ hc => Nat.isDigit_of_mem_toDigits (by decide) (by decide) hc
  simp [readDigits?, hall, Nat.toDigits_ne_nil, Nat.ofDigitChars_ten_toDigits]

theorem readInteger?_toDigits (n : Nat) : readInteger? (Nat.toDigits 10 n) = some (n : Int) := by
  have hhead : ∀ ds, Nat.toDigits 10 n ≠ '-' :: ds := by
    intro ds h
    have := Nat.isDigit_of_mem_toDigits (b := 10) (n := n) (c := '-') (by decide) (by decide)
      (by rw [h]; exact .head _)
    exact absurd this (by decide)
  unfold readInteger?
  split
  · next ds h => exact absurd h (hhead ds)
  · simp [readDigits?_toDigits]

/-- Writing an integer and reading it back is the identity. -/
theorem readInteger?_decimal (n : Int) : readInteger? (decimal n) = some n := by
  unfold decimal
  split
  · next h =>
    have habs : -(n.natAbs : Int) = n := by omega
    rw [readInteger?, readDigits?_toDigits, Option.map_some, habs]
  · next h =>
    have habs : (n.natAbs : Int) = n := by omega
    rw [readInteger?_toDigits, habs]

/-- Every signed 64-bit integer is in range. -/
theorem int64?_toInt (i : Int64) : int64? i.toInt = some i := by
  have hlo : -9223372036854775808 ≤ i.toInt := Int64.minValue_le_toInt i
  have hhi : i.toInt < 9223372036854775808 := i.toInt_lt
  rw [int64?, if_pos ⟨hlo, by omega⟩, Int64.ofInt_toInt]

end ScriptTree.Text
