import ScriptTree.Json.Basic
import ScriptTree.Keyed
import ScriptTree.Text.Cut
import ScriptTree.Text.Hex

/-!
# Reading JSON text

The texts of RFC 8259 and no others: no comments, no trailing commas, no blanks but the four of the
format, nothing after the value. A repeated member of an object keeps its first place and takes the
last value. Escapes must denote characters, so a surrogate half that stands alone is refused.

Arrays and objects may stand inside each other up to a limit, which is a parameter. The loops over
items and members take the length of the text as their bound, since each round consumes a
character.

A number without fraction and exponent is an integer if it lies between -2^63 and 2^64 - 1 and is
not `-0`; every other number is a float, and one that is too large for a float is refused.
-/
namespace ScriptTree.Json

/-- What a reader takes from the front of a text, and the rest. -/
abbrev Reader (α : Type) := List Char → Option (α × List Char)

namespace Reader

/-- The four blanks of the format. -/
def isSpace (c : Char) : Bool := c == ' ' || c == '\t' || c == '\n' || c == '\r'

def skipSpace (cs : List Char) : List Char := cs.dropWhile isSpace

/-! ## Strings -/

open Text (consFirst hexDigit?)

/-- The number of four hexadecimal digits. -/
def hex4? (a b c d : Char) : Option Nat := do
  return (((← hexDigit? a) * 16 + (← hexDigit? b)) * 16 + (← hexDigit? c)) * 16 + (← hexDigit? d)

/-- The character of a two-character escape. -/
def shortEscape? : Char → Option Char
  | '"' => some '"'
  | '\\' => some '\\'
  | '/' => some '/'
  | 'b' => some '\x08'
  | 'f' => some '\x0c'
  | 'n' => some '\n'
  | 'r' => some '\r'
  | 't' => some '\t'
  | _ => none

/-- The code point of a pair of surrogate halves. -/
def joinSurrogates (high low : Nat) : Nat := 0x10000 + (high - 0xD800) * 0x400 + (low - 0xDC00)

/-- The inside of a string, up to and without the closing quote. -/
def stringBody : Reader (List Char)
  | [] => none
  | '"' :: rest => some ([], rest)
  | '\\' :: 'u' :: a :: b :: c :: d :: rest =>
    match hex4? a b c d with
    | none => none
    | some n =>
      if n < 0xD800 ∨ 0xE000 ≤ n then consFirst (Char.ofNat n) (stringBody rest)
      else if 0xDC00 ≤ n then none
      else
        match rest with
        | '\\' :: 'u' :: e :: f :: g :: h :: rest =>
          match hex4? e f g h with
          | none => none
          | some m =>
            if 0xDC00 ≤ m ∧ m < 0xE000 then
              consFirst (Char.ofNat (joinSurrogates n m)) (stringBody rest)
            else none
        | _ => none
  | '\\' :: e :: rest =>
    match shortEscape? e with
    | some c => consFirst c (stringBody rest)
    | none => none
  | c :: rest => if c.toNat < 32 ∨ c = '\\' then none else consFirst c (stringBody rest)

/-! ## Numbers -/

/-- The largest significand that takes up digits, which is 2^64 - 1. -/
def maxSignificand : Nat := 18446744073709551615

/-- Takes digits into a significand as long as it stays within bounds; the first digit that does
not fit ends this, and the digits from there on are the rest. -/
def absorb (significand : Nat) : List Char → Nat × List Char
  | [] => (significand, [])
  | d :: ds =>
    let next := 10 * significand + (d.toNat - 48)
    if next ≤ maxSignificand then absorb next ds else (significand, d :: ds)

/-- The float of a number given by its digits. Whole digits that do not fit the significand count
as powers of ten, fraction digits that do not fit are dropped. -/
def floatOfDigits? (negative : Bool) (whole fraction : List Char) (exponent : Int) :
    Option Number.Binary64 := do
  let (s, droppedWhole) := absorb 0 whole
  let (s, droppedFraction) := absorb s fraction
  let taken := fraction.length - droppedFraction.length
  let x ← Number.Binary64.ofNat? s
  let x ← x.scaleByTen? (exponent + droppedWhole.length - taken)
  return if negative then x.negate else x

/-- The number of a token without fraction and exponent. -/
def integerOfDigits? (negative : Bool) (whole : List Char) : Option JsonNumber :=
  let n := Nat.ofDigitChars 10 whole 0
  if negative = false ∧ n ≤ maxSignificand then some (.integer n)
  else if negative = true ∧ 0 < n ∧ n ≤ 9223372036854775808 then some (.integer (-n))
  else (floatOfDigits? negative whole [] 0).map .float

/-- One or more digits from the front of a text. -/
def digits : Reader (List Char) := fun cs =>
  let ds := cs.takeWhile Char.isDigit
  if ds = [] then none else some (ds, cs.dropWhile Char.isDigit)

/-- The fraction digits after a point, if there is one. -/
def fraction : Reader (Option (List Char))
  | '.' :: cs => (digits cs).map fun (ds, cs) => (some ds, cs)
  | cs => some (none, cs)

/-- An exponent without its mark. -/
def exponentValue : Reader Int
  | '+' :: cs => (digits cs).map fun (ds, cs) => (Nat.ofDigitChars 10 ds 0, cs)
  | '-' :: cs => (digits cs).map fun (ds, cs) => (-(Nat.ofDigitChars 10 ds 0 : Int), cs)
  | cs => (digits cs).map fun (ds, cs) => (Nat.ofDigitChars 10 ds 0, cs)

/-- The exponent, if there is one. -/
def exponent : Reader (Option Int)
  | 'e' :: cs => (exponentValue cs).map fun (e, cs) => (some e, cs)
  | 'E' :: cs => (exponentValue cs).map fun (e, cs) => (some e, cs)
  | cs => some (none, cs)

/-- A number without its sign. A zero in front stands alone. -/
def unsigned (negative : Bool) : Reader JsonNumber := fun cs => do
  let (whole, cs) ← digits cs
  guard (whole.head? = some '0' → whole.length = 1)
  let (frac, cs) ← fraction cs
  let (exp, cs) ← exponent cs
  match frac, exp with
  | none, none => return (← integerOfDigits? negative whole, cs)
  | _, _ =>
    let x ← floatOfDigits? negative whole (frac.getD []) (exp.getD 0)
    return (.float x, cs)

def number : Reader JsonNumber
  | '-' :: cs => unsigned true cs
  | cs => unsigned false cs

/-! ## Values -/

/-- A value that is neither an array nor an object. -/
def scalar : Reader Json
  | 'n' :: 'u' :: 'l' :: 'l' :: cs => some (.null, cs)
  | 't' :: 'r' :: 'u' :: 'e' :: cs => some (.bool true, cs)
  | 'f' :: 'a' :: 'l' :: 's' :: 'e' :: cs => some (.bool false, cs)
  | '"' :: cs => (stringBody cs).map fun (s, cs) => (.string (String.ofList s), cs)
  | cs => (number cs).map fun (n, cs) => (.number n, cs)

/-- One or more items up to the closing bracket. -/
def items (item : Reader Json) : Nat → Reader (List Json)
  | 0, _ => none
  | fuel + 1, cs => do
    let (v, cs) ← item cs
    match skipSpace cs with
    | ',' :: cs =>
      let (vs, cs) ← items item fuel cs
      return (v :: vs, cs)
    | ']' :: cs => return ([v], cs)
    | _ => none

/-- The key of a member with the colon after it. -/
def memberKey : Reader String := fun cs =>
  match skipSpace cs with
  | '"' :: cs => do
    let (key, cs) ← stringBody cs
    match skipSpace cs with
    | ':' :: cs => return (String.ofList key, cs)
    | _ => none
  | _ => none

/-- One or more members up to the closing brace. -/
def members (item : Reader Json) : Nat → Reader (List (String × Json))
  | 0, _ => none
  | fuel + 1, cs => do
    let (key, cs) ← memberKey cs
    let (v, cs) ← item cs
    match skipSpace cs with
    | ',' :: cs =>
      let (ms, cs) ← members item fuel cs
      return ((key, v) :: ms, cs)
    | '}' :: cs => return ([(key, v)], cs)
    | _ => none

/-- The rest of an array after its opening bracket. -/
def arrayBody (item : Reader Json) (fuel : Nat) : Reader Json := fun cs =>
  match skipSpace cs with
  | ']' :: cs => some (.array [], cs)
  | cs => (items item fuel cs).map fun (vs, cs) => (.array vs, cs)

/-- The rest of an object after its opening brace. -/
def objectBody (item : Reader Json) (fuel : Nat) : Reader Json := fun cs =>
  match skipSpace cs with
  | '}' :: cs => some (.object [], cs)
  | cs => (members item fuel cs).map fun (ms, cs) => (.object (Keyed.ofList ms), cs)

/-- A value with at most `limit` arrays and objects inside each other. -/
def value (fuel : Nat) : Nat → Reader Json
  | 0, cs =>
    match skipSpace cs with
    | '[' :: _ => none
    | '{' :: _ => none
    | cs => scalar cs
  | limit + 1, cs =>
    match skipSpace cs with
    | '[' :: cs => arrayBody (value fuel limit) fuel cs
    | '{' :: cs => objectBody (value fuel limit) fuel cs
    | cs => scalar cs

end Reader

/-- The value that a text denotes, if it nests no deeper than the limit. -/
def read? (limit : Nat) (text : List Char) : Option Json :=
  match Reader.value text.length limit text with
  | some (j, rest) => if Reader.skipSpace rest = [] then some j else none
  | none => none

/-- How many arrays and objects may stand inside each other in a text from outside. -/
def nestingLimit : Nat := 127

/-- The value that a text from outside denotes. -/
def parse? (text : String) : Option Json := read? nestingLimit text.toList

end ScriptTree.Json
