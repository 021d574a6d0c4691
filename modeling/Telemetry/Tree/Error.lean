import Telemetry.Number.Decimal
import Telemetry.Text.Quoted

/-!
What can go wrong in a tree, with the place it went wrong at.
-/

namespace Telemetry

/-- The text of a place given as concatenated names, the empty one being the root. -/
def placeText (place : String) : String :=
  if place.isEmpty then "/" else place

inductive JsonFault where
  /-- The text is not JSON. What the reader says about it is not part of messages. -/
  | unreadable
  | invalidBase64
  | expectedObject (got : String)
  | expectedArray (got : String)
  | expectedEntry (got : String)
  | missingKey (key : String)
  | differingKey (key : String)
  | unusableKey (kind : String)
deriving DecidableEq, Repr

namespace JsonFault

def message : JsonFault → String
  | unreadable => "<json>"
  | invalidBase64 => "invalid base64"
  | expectedObject got => s!"expected object, got {got}"
  | expectedArray got => s!"expected array, got {got}"
  | expectedEntry got => s!"expected list entry object, got {got}"
  | missingKey key => s!"list entry is missing key {key}"
  | differingKey key => s!"key {key} does not match the path"
  | unusableKey kind => s!"list key cannot be {kind}"

end JsonFault

/-- A rule of the schema that a tree breaks, and where. -/
inductive Violation where
  | unknownChild (path : String)
  | wrongKind (path kind : String)
  | tooManyEntries (path : String) (count : Nat) (max : UInt64)
  | entryKeys (path : String) (keys : List String)
  | entryKind (path : String)
  | wrongType (path type : String)
  | lengthRange (path : String) (length : Nat)
  | notListed (path value : String) (values : List String)
  | intRange (path : String) (value : Int)
  | doubleRange (path : String) (value : Binary64)

namespace Violation

def message : Violation → String
  | unknownChild path => s!"{path}: unknown element"
  | wrongKind path kind => s!"{path}: expected {kind}"
  | tooManyEntries path count max => s!"{path}: {count} entries exceed max-elements {max.toNat}"
  | entryKeys path keys =>
    path ++ ": entry keys do not match list keys " ++ Text.quotedList keys
  | entryKind path => s!"{path}: list entry is not a container"
  | wrongType path type => s!"{path}: expected {type}"
  | lengthRange path count => s!"{path}: length {count} out of range"
  | notListed path value values =>
    path ++ ": " ++ Text.quoted value ++ " is not one of " ++ Text.quotedList values
  | intRange path value => s!"{path}: {value} out of range"
  | doubleRange path value => path ++ ": " ++ Layout.plain.render value ++ " out of range"

end Violation

inductive TreeError where
  | unknownElement (path name : String)
  | keyMismatch (path : String) (expected got : List String)
  | unexpectedKeys (path : String)
  | notTraversable (path : String)
  | kindMismatch (path : String)
  | typeMismatch (path expected got : String)
  | invalidJson (path : String) (fault : JsonFault)
  | missingValue (path : String)
  | nonFinite (path : String) (value : Binary64)
  | validation (violations : List Violation)

namespace TreeError

def message : TreeError → String
  | unknownElement path name => s!"{path}: no schema element named {Text.quoted name}"
  | keyMismatch path expected got =>
    path ++ ": list keys " ++ Text.quotedList got ++ " do not match schema keys "
      ++ Text.quotedList expected
  | unexpectedKeys path => s!"{path}: keys given for non-list element"
  | notTraversable path => s!"{path}: path continues below a leaf or an unkeyed list"
  | kindMismatch path => s!"{path}: tree node does not match its schema kind"
  | typeMismatch path expected got => s!"{path}: expected {expected} value, got {got}"
  | invalidJson path fault => s!"{path}: invalid JSON value: {fault.message}"
  | missingValue path => s!"{path}: missing value"
  | nonFinite path value =>
    path ++ ": double value " ++ Layout.plain.render value ++ " is not finite"
  | validation violations =>
    "validation failed: " ++ "; ".intercalate (violations.map Violation.message)

end TreeError

end Telemetry
