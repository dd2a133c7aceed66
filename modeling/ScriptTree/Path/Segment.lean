import ScriptTree.Path.Piece
import ScriptTree.Text.Blank
import ScriptTree.Text.Cut
import ScriptTree.Text.Integer

/-!
# Segments

A segment is a name and the subscripts that follow it. Its name ends at the first opening bracket,
and from there on the piece must be a row of bracketed subscripts and nothing else. Inside a
subscript brackets may nest and a quoted stretch hides them; the blanks at its two ends do not
count. A subscript that reads as an integer must fit 64 bits.
-/
namespace ScriptTree.Path

open Text (byteLength consFirst consFirst_eq_some_iff)

structure Segment where
  name : String
  indices : List String
deriving DecidableEq

/-- What stands before the bracket that closes a subscript, and what comes after that bracket. The
text begins inside the subscript; the count is of the brackets opened since, and the character is
the quote that is open. -/
def takeSubscript : Nat → Option Char → List Char → Option (List Char × List Char)
  | _, _, [] => none
  | depth, some q, c :: cs =>
    consFirst c (takeSubscript depth (if c = q then none else some q) cs)
  | depth, none, c :: cs =>
    if isQuote c then consFirst c (takeSubscript depth (some c) cs)
    else if c = '[' then consFirst c (takeSubscript (depth + 1) none cs)
    else if c = ']' then
      if depth = 0 then some ([], cs) else consFirst c (takeSubscript (depth - 1) none cs)
    else consFirst c (takeSubscript depth none cs)

/-- Nothing is lost but the closing bracket. -/
theorem takeSubscript_eq {depth : Nat} {quote : Option Char} {cs inside rest : List Char}
    (h : takeSubscript depth quote cs = some (inside, rest)) : cs = inside ++ ']' :: rest := by
  induction cs generalizing depth quote inside with
  | nil => simp [takeSubscript] at h
  | cons c cs ih =>
    have more {depth : Nat} {quote : Option Char}
        (h : consFirst c (takeSubscript depth quote cs) = some (inside, rest)) :
        c :: cs = inside ++ ']' :: rest := by
      obtain ⟨inside', htake, rfl⟩ := consFirst_eq_some_iff.mp h
      exact congrArg (c :: ·) (ih htake)
    cases quote with
    | some q => exact more h
    | none =>
      unfold takeSubscript at h
      split at h
      · exact more h
      split at h
      · exact more h
      split at h
      · next hc =>
        split at h
        · obtain ⟨rfl, rfl⟩ := Prod.mk.inj (Option.some.inj h)
          rw [hc]; rfl
        · exact more h
      · exact more h

/-- The defect of the trimmed text of a subscript, if it has one. -/
def indexDefect? (index : List Char) : Option Defect :=
  if index = [] then some .emptySubscript
  else
    match Text.readInteger? index with
    | some n => if (Text.int64? n).isNone then some .integerOutOfRange else none
    | none => none

/-- The subscripts in what follows the name of a segment, which begins at byte `position`. -/
def subscripts (position : Nat) (cs : List Char) : Except Fault (List String) :=
  match cs with
  | [] => .ok []
  | '[' :: inner =>
    match _h : takeSubscript 0 none inner with
    | none => .error ⟨.unclosedSubscript, ⟨position, byteLength ('[' :: inner)⟩⟩
    | some (inside, rest) =>
      let index := Text.trim inside
      let group : Span := ⟨position, byteLength inside + 2⟩
      match indexDefect? index with
      | some defect => .error ⟨defect, group⟩
      | none => do
        let indices ← subscripts (position + group.length) rest
        return String.ofList index :: indices
  | c :: rest => .error ⟨.textAfterSubscript, ⟨position, byteLength (c :: rest)⟩⟩
termination_by cs.length
decreasing_by
  have := congrArg List.length (takeSubscript_eq _h)
  simp only [List.length_append, List.length_cons] at this ⊢
  omega

/-- The segment that a piece spells. -/
def Segment.ofPiece (p : Piece) : Except Fault Segment :=
  let name := p.text.takeWhile (· ≠ '[')
  if name = [] then .error ⟨.emptySegment, ⟨p.offset, byteLength p.text⟩⟩
  else do
    let indices ← subscripts (p.offset + byteLength name) (p.text.dropWhile (· ≠ '['))
    return ⟨String.ofList name, indices⟩

/-- The segments of a path, or the first fault of the first reading that finds one. -/
def segments (path : List Char) : Except Fault (List Segment) := do
  (← split path).mapM Segment.ofPiece

/-- The segments of a path. -/
def read (path : String) : Except Error (List Segment) :=
  (segments path.toList).mapError (Fault.toError path)

end ScriptTree.Path
