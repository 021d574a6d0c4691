import Telemetry.Schema.Descriptor
import Telemetry.Tree.Defaults
import Telemetry.Tree.Violations

/-!
Checking schemas themselves: a container as root, keyed lists, enumerations with values, ranges
that hold something and defaults that fit their leaf types. The default root of a schema is the
tree that holds nothing but the defaults of the root's own leaves.
-/

namespace Telemetry

inductive SchemaError where
  /-- The descriptor cannot be read from its file. -/
  | unreadable
  /-- The text is not a descriptor. -/
  | malformed
  | rootNotContainer
  | listWithoutKeys (path : String)
  | emptyEnumeration (path : String)
  | invalidRange (path min max : String)
  | invalidDefault (path : String) (reason : TreeError)
  | defaultsInvalid (reason : TreeError)

namespace SchemaError

def message : SchemaError → String
  | unreadable => "failed to read schema descriptor"
  | malformed => "failed to parse schema descriptor"
  | rootNotContainer => "schema root is not a container"
  | listWithoutKeys path => s!"list {path} declares no keys"
  | emptyEnumeration path => s!"enumeration {path} declares no values"
  | invalidRange path min max => s!"leaf {path} has an empty range: min {min} > max {max}"
  | invalidDefault path reason => s!"leaf {path} has an unusable default: {reason.message}"
  | defaultsInvalid reason => s!"default root of schema fails validation: {reason.message}"

end SchemaError

namespace LeafType

/-- The bounds of a type in text, if no value lies between them. -/
def emptyRange? : LeafType → Option (String × String)
  | .string (some min) (some max) => crossed (max < min) (toString min.toNat) (toString max.toNat)
  | .int (some min) (some max) => crossed (max < min) (toString min.toInt) (toString max.toInt)
  | .uint (some min) (some max) => crossed (max < min) (toString min.toNat) (toString max.toNat)
  | .double (some min) (some max) =>
    crossed (max.less min) (Layout.plain.render min) (Layout.plain.render max)
  | _ => none
where
  crossed (isEmpty : Bool) (min max : String) : Option (String × String) :=
    if isEmpty then some (min, max) else none

end LeafType

namespace LeafSchema

def check (leaf : LeafSchema) (place : String) : Except SchemaError Unit :=
  match leaf.type with
  | .enumeration [] => .error (.emptyEnumeration (placeText place))
  | type =>
    match type.emptyRange? with
    | some (min, max) => .error (.invalidRange (placeText place) min max)
    | none =>
      match leaf.default with
      | none => .ok ()
      | some default =>
        match LeafValue.ofJson type default place with
        | .ok _ => .ok ()
        | .error e => .error (.invalidDefault (placeText place) e)

end LeafSchema

namespace SchemaNode

mutual

def check : SchemaNode → String → Except SchemaError Unit
  | .container children, place => checkChildren children place
  | .list [] _ _, place => .error (.listWithoutKeys (placeText place))
  | .list (_ :: _) _ children, place => checkChildren children place
  | .leaf schema, place => schema.check place

def checkChildren : List (String × SchemaNode) → String → Except SchemaError Unit
  | [], _ => .ok ()
  | (name, child) :: rest, place => do
    child.check (place ++ "/" ++ name)
    checkChildren rest place

end

end SchemaNode

namespace Schema

def check (schema : Schema) : Except SchemaError Unit :=
  match schema.root with
  | .container _ => schema.root.check ""
  | _ => .error .rootNotContainer

def load (text : String) : Except SchemaError Schema :=
  match ofText? text with
  | none => .error .malformed
  | some schema => do
    schema.check
    .ok schema

def loadBytes (bytes : List UInt8) : Except SchemaError Schema :=
  match String.fromUTF8? ⟨bytes.toArray⟩ with
  | none => .error .unreadable
  | some text => load text

/-- The tree that holds the defaults of the root's own leaves; it has to be valid. -/
def defaultRoot (schema : Schema) : Except SchemaError Node :=
  match Node.fillDefaults schema.root Node.emptyContainer with
  | (.error e, _) => .error (.defaultsInvalid e)
  | (.ok (), root) =>
    match Node.validate schema.root root with
    | .error e => .error (.defaultsInvalid e)
    | .ok () => .ok root

end Schema

end Telemetry
