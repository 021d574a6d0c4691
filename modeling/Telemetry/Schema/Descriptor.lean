import Telemetry.Json.Document
import Telemetry.Schema.Basic

/-!
Schema descriptors: JSON documents that describe a schema. Records may be written as objects or
as arrays of their fields in order; a node states its kind, and a leaf type its base, in the
field or the first item. Fields that a record does not have are passed over; a field given twice
is refused. `Schema.toJson` writes the descriptor of a schema.
-/

namespace Telemetry

namespace Document

def fieldNames? : List (Option String × Document) → Option (List (String × Document))
  | [] => some []
  | (none, _) :: _ => none
  | (some name, value) :: rest => (fieldNames? rest).map ((name, value) :: ·)

/-- The value of the field `name`; none if it is given twice. -/
def uniqueField? (fields : List (String × Document)) (name : String) : Option (Option Document) :=
  match fields.filter (·.1 == name) with
  | [] => some none
  | [(_, value)] => some (some value)
  | _ => none

/-- The fields of a record in the order of `names`, those not given being `none`. -/
def record? (names : List String) : Document → Option (List (Option Document))
  | .object fields => do
    let fields ← fieldNames? fields
    names.mapM (uniqueField? fields)
  | .array items =>
    if items.length ≤ names.length then
      some (items.map some ++ List.replicate (names.length - items.length) none)
    else none
  | _ => none

/-- The position of the alternative that a tag names. Inside another node a tag may also be the
position itself. -/
def tag? (nested : Bool) (names : List String) : Document → Option Nat
  | .string (some name) => names.findIdx? (· == name)
  | .number (some (.natural n)) =>
    if nested ∧ n.toNat < names.length then some n.toNat else none
  | _ => none

def tagged? (tagName : String) : Document → Option (Document × Document)
  | .object fields => do
    let named ← fieldNames? fields
    let tag ← uniqueField? named tagName
    let tag ← tag
    some (tag, .object (fields.filter fun field => field.1 != some tagName))
  | .array (tag :: items) => some (tag, .array items)
  | _ => none

def text? : Document → Option String
  | .string s => s
  | _ => none

def texts? : Document → Option (List String)
  | .array items => items.mapM text?
  | _ => none

def bound? {α : Type} (read? : JsonNumber → Option α) : Option Document → Option (Option α)
  | none => some none
  | some .null => some none
  | some (.number (some n)) => (read? n).map some
  | some _ => none

end Document

namespace JsonNumber

def toUInt64? : JsonNumber → Option UInt64
  | .natural n => some n
  | _ => none

def toInt64? : JsonNumber → Option Int64
  | .natural n => if n.toNat < 1 <<< 63 then some (Int64.ofInt n.toNat) else none
  | .negative n => some n
  | .double _ => none

end JsonNumber

namespace LeafType

/-- The names of the types, in the order of their positions. -/
def tags : List String :=
  ["string", "bool", "int", "uint", "double", "bytes", "enumeration"]

def ofRecord? (tag : Nat) (record : Document) : Option LeafType :=
  match tag with
  | 0 => do
    let [min, max] ← record.record? ["min_length", "max_length"] | none
    some (.string (← Document.bound? JsonNumber.toUInt64? min)
      (← Document.bound? JsonNumber.toUInt64? max))
  | 1 => unconstrained record .bool
  | 2 => do
    let [min, max] ← record.record? ["min", "max"] | none
    some (.int (← Document.bound? JsonNumber.toInt64? min)
      (← Document.bound? JsonNumber.toInt64? max))
  | 3 => do
    let [min, max] ← record.record? ["min", "max"] | none
    some (.uint (← Document.bound? JsonNumber.toUInt64? min)
      (← Document.bound? JsonNumber.toUInt64? max))
  | 4 => do
    let [min, max] ← record.record? ["min", "max"] | none
    some (.double (← Document.bound? (some ·.toBinary64) min)
      (← Document.bound? (some ·.toBinary64) max))
  | 5 => unconstrained record .bytes
  | 6 => do
    let [values] ← record.record? ["values"] | none
    some (.enumeration (← (← values).texts?))
  | _ => none
where
  /-- A type without constraints passes over fields but takes no items. -/
  unconstrained (record : Document) (type : LeafType) : Option LeafType :=
    match record with
    | .object _ => some type
    | .array [] => some type
    | _ => none

def ofDocument? (nested : Bool) (document : Document) : Option LeafType := do
  let (tag, record) ← document.tagged? "base"
  let position ← tag.tag? nested tags
  ofRecord? position record

def ofText? (text : String) : Option LeafType := do
  let document ← Document.ofText? text
  let _ ← document.value?
  ofDocument? false document

end LeafType

namespace LeafSchema

def ofRecord? (record : Document) : Option LeafSchema := do
  let [type, default] ← record.record? ["type", "default"] | none
  let type ← LeafType.ofDocument? true (← type)
  match default with
  | none => some ⟨type, none⟩
  | some .null => some ⟨type, none⟩
  | some default => some ⟨type, some (← default.value?)⟩

end LeafSchema

namespace SchemaNode

def tags : List String := ["container", "list", "leaf"]

/-- Reads children with a reader of nodes; of children of one name the last counts. -/
def readChildren? (read? : Document → Option SchemaNode) :
    Option Document → Option (List (String × SchemaNode))
  | none => some []
  | some (.object fields) => do
    let fields ← Document.fieldNames? fields
    let children ← fields.mapM fun (name, child) => (read? child).map fun node => (name, node)
    some (SortedMap.ofList children)
  | some _ => none

def ofDocument? : Nat → Bool → Document → Option SchemaNode
  | 0, _, _ => none
  | fuel + 1, nested, document => do
    let (tag, record) ← document.tagged? "kind"
    match ← tag.tag? nested tags with
    | 0 => do
      let [children] ← record.record? ["children"] | none
      some (.container (← readChildren? (ofDocument? fuel true) children))
    | 1 => do
      let [keys, max, children] ← record.record? ["keys", "max_elements", "children"] | none
      some (.list (← (← keys).texts?) (← Document.bound? JsonNumber.toUInt64? max)
        (← readChildren? (ofDocument? fuel true) children))
    | _ => (LeafSchema.ofRecord? record).map .leaf

end SchemaNode

namespace ModelInfo

def ofDocument? (document : Document) : Option ModelInfo := do
  let [name, organization, version] ← document.record? ["name", "organization", "version"] | none
  some ⟨← (← name).text?, ← (organization.getD (.string (some ""))).text?,
    ← (version.getD (.string (some ""))).text?⟩

end ModelInfo

namespace Schema

/-- Reads a schema. The root and all below it must have a JSON value. -/
def ofDocument? (document : Document) : Option Schema := do
  let [models, root] ← document.record? ["models", "root"] | none
  let models ←
    match models with
    | none => some []
    | some (.array items) => items.mapM ModelInfo.ofDocument?
    | some _ => none
  let root ← root
  let _ ← root.valueAt? (Document.depthLimit - 1)
  some ⟨models, ← SchemaNode.ofDocument? Document.depthLimit false root⟩

def ofText? (text : String) : Option Schema :=
  (Document.ofText? text).bind ofDocument?

end Schema

def Json.ofOption {α : Type} (write : α → Json) : Option α → Json
  | none => .null
  | some a => write a

namespace LeafType

def toJson (type : LeafType) : Json :=
  let base : String × Json := ("base", .string type.name)
  match type with
  | .string min max =>
    .ofFields [base, ("min_length", .ofOption (.number <| .natural ·) min),
      ("max_length", .ofOption (.number <| .natural ·) max)]
  | .int min max =>
    .ofFields [base, ("min", .ofOption ofInt64 min), ("max", .ofOption ofInt64 max)]
  | .uint min max =>
    .ofFields [base, ("min", .ofOption (.number <| .natural ·) min),
      ("max", .ofOption (.number <| .natural ·) max)]
  | .double min max =>
    .ofFields [base, ("min", .ofOption (.number <| .double ·) min),
      ("max", .ofOption (.number <| .double ·) max)]
  | .enumeration values => .ofFields [base, ("values", .array (values.map .string))]
  | _ => .ofFields [base]
where
  ofInt64 (i : Int64) : Json :=
    .number (if 0 ≤ i then .natural i.toUInt64 else .negative i)

end LeafType

namespace SchemaNode

mutual

def toJson : SchemaNode → Json
  | .container children =>
    .ofFields [("kind", .string "container"), ("children", .object (childrenToJson children))]
  | .list keys max children =>
    .ofFields [("kind", .string "list"), ("keys", .array (keys.map .string)),
      ("max_elements", .ofOption (.number <| .natural ·) max),
      ("children", .object (childrenToJson children))]
  | .leaf schema =>
    .ofFields [("kind", .string "leaf"), ("type", schema.type.toJson),
      ("default", schema.default.getD .null)]

def childrenToJson : List (String × SchemaNode) → List (String × Json)
  | [] => []
  | (name, node) :: rest => (name, node.toJson) :: childrenToJson rest

end

end SchemaNode

namespace Schema

def toJson (schema : Schema) : Json :=
  .ofFields [("models", .array (schema.models.map fun model =>
      .ofFields [("name", .string model.name), ("organization", .string model.organization),
        ("version", .string model.version)])),
    ("root", schema.root.toJson)]

end Schema

end Telemetry
