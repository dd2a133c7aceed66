import ScriptTree.Number.Binary64

/-!
# Shortest decimal text of a binary64 number

The decimals that read back as a number are those in its rounding interval: half a gap to either
side, the ends included when the mantissa is even. The printed digits lie on the coarsest decimal
grid, counted in significant digits, that has a point in the interval; of two such points the
nearer one is taken and of two equally near ones the even one. Every comparison is between exact
naturals.

The spelling of the digits is fixed apart from their choice: plain decimal with a fraction from
10^-5 up to below 10^16, scientific with a signed exponent outside.
-/
namespace ScriptTree.Number

namespace Binary64

/-- The magnitude and the ends of its rounding interval over one denominator. Below a power of two
the gap is half as wide as above it. -/
def interval (x : Binary64) : (Nat × Nat × Nat) × Nat :=
  let quarters (n : Nat) := n * pow2 (x.exponent - 2)
  let below := if x.mantissa = hiddenBit ∧ x.exponent ≠ -1074 then 1 else 2
  ((quarters (4 * x.mantissa - below), quarters (4 * x.mantissa), quarters (4 * x.mantissa + 2)),
    pow2 (2 - x.exponent))

/-- The largest `l` with `10 ^ l` at most the quotient of two positive naturals. -/
def floorLog10 (num den : Nat) : Int :=
  let l : Int := ((Nat.toDigits 10 num).length : Int) - (Nat.toDigits 10 den).length
  if den * pow10 l ≤ num * pow10 (-l) then l else l - 1

/-- The point `c · 10 ^ t` of a decimal grid chosen for a number, if the interval holds one. -/
def onGrid? (x : Binary64) (t : Int) : Option Nat :=
  let ((lo, value, hi), den) := x.interval
  let scale (n : Nat) := n * pow10 (-t)
  let unit := den * pow10 t
  let inside (c : Nat) : Bool :=
    if x.mantissa % 2 = 0 then decide (scale lo ≤ c * unit ∧ c * unit ≤ scale hi)
    else decide (scale lo < c * unit ∧ c * unit < scale hi)
  let c := scale value / unit
  match inside c, inside (c + 1) with
  | true, true => some (roundDiv (scale value) unit)
  | true, false => some c
  | false, true => some (c + 1)
  | false, false => none

/-- Seventeen significant digits always suffice. -/
def maxDigits : Nat := 17

/-- The first grid with a hit, counting up to `fuel` more digits from a grid of `n + 1` digits. -/
def searchGrid (x : Binary64) (top : Int) : Nat → Nat → Nat × Int
  | _, 0 => (x.mantissa, x.exponent)
  | n, fuel + 1 =>
    match x.onGrid? (top - n) with
    | some c => (c, top - n)
    | none => searchGrid x top (n + 1) fuel

/-- The digits of a non-zero magnitude without zeros at the end, and the power of ten of the first
of them. -/
def shortestDigits (x : Binary64) : List Char × Int :=
  let top := floorLog10 x.ratio.1 x.ratio.2
  let (c, t) := searchGrid x top 0 maxDigits
  let digits := Nat.toDigits 10 c
  ((digits.reverse.dropWhile (· == '0')).reverse, t + (digits.length - 1 : Nat))

/-- The text of digits `d₁d₂…` standing for `d₁.d₂… · 10 ^ e`. -/
def spell (digits : List Char) (e : Int) : List Char :=
  if -5 ≤ e ∧ e < 16 then
    if e < 0 then '0' :: '.' :: (List.replicate (-e - 1).toNat '0' ++ digits)
    else
      let whole := digits.take (e.toNat + 1)
      let fraction := digits.drop (e.toNat + 1)
      whole ++ List.replicate (e.toNat + 1 - whole.length) '0' ++
        '.' :: (if fraction = [] then ['0'] else fraction)
  else
    let head := digits.take 1
    let rest := digits.drop 1
    let point := if rest = [] then [] else '.' :: rest
    let sign := if e < 0 then '-' else '+'
    head ++ point ++ 'e' :: sign :: Nat.toDigits 10 e.natAbs

/-- The shortest text that reads back as the number. -/
def text (x : Binary64) : List Char :=
  let magnitude :=
    if x.isZero then ['0', '.', '0']
    else
      let (digits, e) := x.shortestDigits
      spell digits e
  if x.negative then '-' :: magnitude else magnitude

end Binary64

end ScriptTree.Number
