import Telemetry.Schema.Basic
import Telemetry.Tree.Basic
import Telemetry.Tree.Error

/-!
Checking a tree against a schema. Every rule broken anywhere is reported, in the order of the
tree; only below an unknown child or a node of the wrong kind nothing more is looked at.
-/

namespace Telemetry

def keysText (keys : Keys) : String :=
  String.join (keys.map fun (key, value) => s!"[{key}={value}]")

def breaksBound {α : Type} (breaks : α → Bool) : Option α → Bool
  | none => false
  | some bound => breaks bound

namespace LeafType

def violations (type : LeafType) (value : LeafValue) (place : String) : List Violation :=
  match type, value with
  | .string min max, .string s =>
    let n := s.length
    if breaksBound (n < UInt64.toNat ·) min || breaksBound (UInt64.toNat · < n) max then
      [.lengthRange place n]
    else []
  | .enumeration values, .string s =>
    if values.contains s then [] else [.notListed place s values]
  | .bool, .bool _ => []
  | .bytes, .bytes _ => []
  | .int min max, .int i =>
    if breaksBound (i < ·) min || breaksBound (· < i) max then [.intRange place i.toInt] else []
  | .uint min max, .uint u =>
    if breaksBound (u < ·) min || breaksBound (· < u) max then [.intRange place u.toNat] else []
  | .double min max, .double d =>
    if breaksBound d.less min || breaksBound (·.less d) max then [.doubleRange place d] else []
  | type, _ => [.wrongType place type.name]

end LeafType

namespace Node

mutual

def violations : Node → SchemaNode → String → List Violation
  | .container children, schema, place =>
    match schema with
    | .container _ => childViolations children schema place
    | other => [.wrongKind (placeText place) other.kind]
  | .list entries, schema, place =>
    match schema with
    | .list keys max _ =>
      (if breaksBound (UInt64.toNat · < entries.length) max then
        max.toList.map (.tooManyEntries (placeText place) entries.length ·) else [])
        ++ entryViolations entries schema keys place
    | other => [.wrongKind (placeText place) other.kind]
  | .leaf value, schema, place =>
    match schema with
    | .leaf leafSchema => leafSchema.type.violations value place
    | other => [.wrongKind (placeText place) other.kind]

/-- The violations among children, each checked against its namesake in the schema. -/
def childViolations : List (String × Node) → SchemaNode → String → List Violation
  | [], _, _ => []
  | (name, child) :: rest, schema, place =>
    let childPlace := place ++ "/" ++ name
    (match schema.child? name with
      | some childSchema => child.violations childSchema childPlace
      | none => [.unknownChild childPlace])
      ++ childViolations rest schema place

def entryViolations : List (Keys × Node) → SchemaNode → List String → String → List Violation
  | [], _, _, _ => []
  | (keys, entry) :: rest, schema, names, place =>
    let entryPlace := place ++ keysText keys
    (if keys.length = names.length ∧ names.all (SortedMap.contains keys ·) then []
      else [.entryKeys entryPlace names])
      ++ (match entry with
        | .container children => childViolations children schema entryPlace
        | _ => [.entryKind entryPlace])
      ++ entryViolations rest schema names place

end

/-- Requires that a tree breaks no rule of the schema. -/
def validate (schema : SchemaNode) (root : Node) : Except TreeError Unit :=
  match root.violations schema "" with
  | [] => .ok ()
  | violations => .error (.validation violations)

end Node

end Telemetry
