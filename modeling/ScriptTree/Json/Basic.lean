import ScriptTree.Number.Binary64

/-!
# JSON values

Objects keep their members in order. A number is an integer or a binary64 number, and which of the
two is settled when its text is read; the two are never converted into each other.
-/
namespace ScriptTree

inductive JsonNumber where
  | integer (value : Int)
  | float (value : Number.Binary64)
deriving DecidableEq

inductive Json where
  | null
  | bool (value : Bool)
  | number (value : JsonNumber)
  | string (value : String)
  | array (items : List Json)
  | object (members : List (String × Json))

namespace Json

def integer (n : Int) : Json := .number (.integer n)

mutual

/-- How many arrays and objects stand inside each other at most. -/
def depth : Json → Nat
  | .array items => depthItems items + 1
  | .object members => depthMembers members + 1
  | _ => 0
termination_by structural j => j

def depthItems : List Json → Nat
  | [] => 0
  | j :: js => max j.depth (depthItems js)
termination_by structural js => js

def depthMembers : List (String × Json) → Nat
  | [] => 0
  | (_, j) :: ms => max j.depth (depthMembers ms)
termination_by structural ms => ms

end

/-- The value of a member of an object. -/
def member? (name : String) : Json → Option Json
  | .object members => members.lookup name
  | _ => none

end Json

end ScriptTree
