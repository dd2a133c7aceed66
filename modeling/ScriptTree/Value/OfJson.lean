import ScriptTree.Error
import ScriptTree.Json.Printer
import ScriptTree.Value.Basic

/-!
# Values from JSON

JSON data whose kind is known only when it is read becomes a value of the same structure. Nulls,
floats and integers that do not fit 64 bits have none; the first of these in the order of the
document is the error.
-/
namespace ScriptTree.Value

/-- The value of a number. -/
def ofNumber : JsonNumber → Except Error Value
  | .integer n =>
    match Text.int64? n with
    | some i => .ok (.int i)
    | none =>
      .error (.unsupportedValue (String.ofList (Text.decimal n)) "integer out of range")
  | .float x => .error (.unsupportedValue (String.ofList x.text) "float")

mutual

/-- The value with the structure of JSON data. -/
def ofJson : Json → Except Error Value
  | .null => .error (.unsupportedValue "null" "null")
  | .bool b => .ok (.bool b)
  | .number n => ofNumber n
  | .string s => .ok (.string s)
  | .array items => return .seq (← ofItems items)
  | .object members => return .map (← ofMembers members)
termination_by structural j => j

def ofItems : List Json → Except Error (List Value)
  | [] => .ok []
  | j :: js => do
    let value ← ofJson j
    let values ← ofItems js
    return value :: values
termination_by structural js => js

def ofMembers : List (String × Json) → Except Error (List (String × Value))
  | [] => .ok []
  | (key, j) :: ms => do
    let value ← ofJson j
    let entries ← ofMembers ms
    return (key, value) :: entries
termination_by structural ms => ms

end

end ScriptTree.Value
