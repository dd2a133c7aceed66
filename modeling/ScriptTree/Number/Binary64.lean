/-!
# Finite binary64 numbers

A number of the binary64 format is a sign, a mantissa below 2^53 and an exponent of two, kept in
the one form in which the mantissa is as large as the format allows. Infinities and quiet values
are not numbers here: an operation whose result would be too large has none. All arithmetic is
exact arithmetic on naturals followed by one rounding to the nearest number, halves going to the
even mantissa.
-/
namespace ScriptTree.Number

/-- The quotient rounded to the nearest natural, a half to the even one. -/
def roundDiv (num den : Nat) : Nat :=
  let q := num / den
  let r := num % den
  if 2 * r < den then q else if den < 2 * r then q + 1 else q + q % 2

/-- A power of two; one, if the exponent is negative. -/
def pow2 (k : Int) : Nat := Nat.pow 2 k.toNat

/-- A power of ten; one, if the exponent is negative. -/
def pow10 (k : Int) : Nat := Nat.pow 10 k.toNat

/-- The first mantissa of 53 bits. -/
def hiddenBit : Nat := 4503599627370496

/-- The mantissa has 53 bits, or the exponent is the smallest and the mantissa has fewer. -/
def Canonical (mantissa : Nat) (exponent : Int) : Prop :=
  mantissa < 2 * hiddenBit ∧ -1074 ≤ exponent ∧ exponent ≤ 971 ∧
    (hiddenBit ≤ mantissa ∨ exponent = -1074)

instance (mantissa : Nat) (exponent : Int) : Decidable (Canonical mantissa exponent) :=
  inferInstanceAs (Decidable (_ ∧ _))

/-- The number `± mantissa · 2 ^ exponent`. Zero has a sign. -/
structure Binary64 where
  negative : Bool
  mantissa : Nat
  exponent : Int
  canonical : Canonical mantissa exponent
deriving DecidableEq

namespace Binary64

def zero (negative : Bool) : Binary64 := ⟨negative, 0, -1074, by decide⟩

def isZero (x : Binary64) : Bool := x.mantissa == 0

def negate (x : Binary64) : Binary64 := { x with negative := !x.negative }

/-- The magnitude as a quotient of naturals. -/
def ratio (x : Binary64) : Nat × Nat :=
  (x.mantissa * pow2 x.exponent, pow2 (-x.exponent))

/-- The largest `l` with `2 ^ l` at most the quotient of two positive naturals. -/
def floorLog2 (num den : Nat) : Int :=
  let l : Int := (num.log2 : Int) - den.log2
  if den * pow2 l ≤ num * pow2 (-l) then l else l - 1

/-- The number nearest to a quotient, unless that is too large for the format. -/
def ofRatio? (negative : Bool) (num den : Nat) : Option Binary64 :=
  let e := if num = 0 then -1074 else max (floorLog2 num den - 52) (-1074)
  let m := roundDiv (num * pow2 (-e)) (den * pow2 e)
  let carried := decide (m = 2 * hiddenBit)
  let mantissa := if carried then hiddenBit else m
  let exponent := if carried then e + 1 else e
  if h : Canonical mantissa exponent then some ⟨negative, mantissa, exponent, h⟩ else none

def mul? (x y : Binary64) : Option Binary64 :=
  ofRatio? (x.negative != y.negative) (x.ratio.1 * y.ratio.1) (x.ratio.2 * y.ratio.2)

/-- The quotient; there is none by zero. -/
def div? (x y : Binary64) : Option Binary64 :=
  if y.isZero then none
  else ofRatio? (x.negative != y.negative) (x.ratio.1 * y.ratio.2) (x.ratio.2 * y.ratio.1)

/-- The number nearest to a natural. -/
def ofNat? (n : Nat) : Option Binary64 := ofRatio? false n 1

/-- The number nearest to a power of ten. -/
def tenPow? (k : Nat) : Option Binary64 := ofNat? (pow10 k)

/-- Multiplication by a power of ten, in one step where the power is itself in range and by steps
of 10^-308 where it is smaller. A power above the range fits no number but zero. -/
def scaleByTen? (x : Binary64) (k : Int) : Option Binary64 :=
  if k.natAbs ≤ 308 then
    if 0 ≤ k then (tenPow? k.natAbs).bind x.mul? else (tenPow? k.natAbs).bind x.div?
  else if x.isZero then some x
  else if 0 ≤ k then none
  else ((tenPow? 308).bind x.div?).bind fun y => scaleByTen? y (k + 308)
termination_by k.natAbs
decreasing_by omega

end Binary64

end ScriptTree.Number
