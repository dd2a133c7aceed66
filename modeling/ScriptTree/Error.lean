/-!
# Errors

Why a draft could not be made or a tree could not be printed. An error carries what it complains
about; the wording is in `Error.message`. The other functions are what a diagnostic display shows
beside the message: a stable code, a hint, and the labelled spans of the quoted text.
-/
namespace ScriptTree

/-- A stretch of a text, counted in bytes. -/
structure Span where
  offset : Nat
  length : Nat
deriving DecidableEq

inductive Error where
  | unsupportedValue (value kind : String)
  | invalidPath (path reason : String) (span : Span)
  | invalidIdentifier (name : String)
  | unimplementedFeature (feature : String)
  | serialize (reason : String)
  | generic (reason : String)
deriving DecidableEq

namespace Error

def message : Error → String
  | unsupportedValue value kind => s!"Unexpected value {value} of kind {kind}"
  | invalidPath path reason _ => s!"Invalid path `{path}`: {reason}"
  | invalidIdentifier name => s!"Invalid identifier `{name}`"
  | unimplementedFeature feature => s!"Not implemented: {feature}"
  | serialize reason => s!"Serialize error: {reason}"
  | generic reason => s!"Generic error: {reason}"

/-- The stable code of the errors that a user can act on. -/
def code : Error → Option String
  | unsupportedValue _ _ => some "fluentcst::unsupported_value"
  | invalidPath _ _ _ => some "fluentcst::invalid_path"
  | invalidIdentifier _ => some "fluentcst::invalid_identifier"
  | unimplementedFeature _ => some "fluentcst::unimplemented"
  | serialize _ | generic _ => none

/-- What to do about an error. -/
def help : Error → Option String
  | unsupportedValue _ _ =>
    some "values must be strings, integers, booleans, mappings, sequences or built expressions"
  | invalidIdentifier _ => some "names start with a letter or `_` followed by letters, digits or `_`"
  | unimplementedFeature _ => some "a field needs exactly one of a value or a type"
  | invalidPath _ _ _ | serialize _ | generic _ => none

/-- The labelled spans of the text that the error is about. -/
def labels : Error → List (String × Span)
  | invalidPath _ _ span => [("here", span)]
  | _ => []

/-- The text that the labels point into. -/
def source : Error → Option String
  | invalidPath path _ _ => some path
  | _ => none

end Error

end ScriptTree
