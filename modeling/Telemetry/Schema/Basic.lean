import Telemetry.Json.Basic

/-!
Schemas of device trees: containers with named children, lists whose entries are selected by
keys and share the list's children, and typed leaves with constraints and defaults.
-/

namespace Telemetry

/-- The type of a leaf with its constraints; absent bounds do not constrain. -/
inductive LeafType where
  | string (minLength maxLength : Option UInt64)
  | bool
  | int (min max : Option Int64)
  | uint (min max : Option UInt64)
  | double (min max : Option Binary64)
  | bytes
  | enumeration (values : List String)

structure LeafSchema where
  type : LeafType
  /-- The value that an absent leaf gets when defaults are filled in. -/
  default : Option Json

inductive SchemaNode where
  | container (children : List (String × SchemaNode))
  | list (keys : List String) (maxElements : Option UInt64) (children : List (String × SchemaNode))
  | leaf (schema : LeafSchema)

structure ModelInfo where
  name : String
  organization : String
  version : String
deriving DecidableEq, Repr

structure Schema where
  models : List ModelInfo
  root : SchemaNode

namespace LeafType

def name : LeafType → String
  | .string _ _ => "string"
  | .bool => "bool"
  | .int _ _ => "int"
  | .uint _ _ => "uint"
  | .double _ _ => "double"
  | .bytes => "bytes"
  | .enumeration _ => "enumeration"

def equal : LeafType → LeafType → Bool
  | .string a b, .string c d => a == c && b == d
  | .bool, .bool => true
  | .int a b, .int c d => a == c && b == d
  | .uint a b, .uint c d => a == c && b == d
  | .double a b, .double c d => a == c && b == d
  | .bytes, .bytes => true
  | .enumeration a, .enumeration b => a == b
  | _, _ => false

end LeafType

namespace LeafSchema

def equal (a b : LeafSchema) : Bool :=
  a.type.equal b.type
    && match a.default, b.default with
      | none, none => true
      | some x, some y => x.equal y
      | _, _ => false

end LeafSchema

namespace SchemaNode

def children? : SchemaNode → Option (List (String × SchemaNode))
  | .container children => some children
  | .list _ _ children => some children
  | .leaf _ => none

def child? (node : SchemaNode) (name : String) : Option SchemaNode :=
  node.children?.bind fun children => SortedMap.get? children name

def listKeys? : SchemaNode → Option (List String)
  | .list keys _ _ => some keys
  | _ => none

def keyNames (node : SchemaNode) : List String :=
  node.listKeys?.getD []

def kind : SchemaNode → String
  | .container _ => "container"
  | .list _ _ _ => "list"
  | .leaf _ => "leaf"

def ofChildren (children : List (String × SchemaNode)) : SchemaNode :=
  .container (SortedMap.ofList children)

def listOf (keys : List String) (children : List (String × SchemaNode)) : SchemaNode :=
  .list keys none (SortedMap.ofList children)

def leafOf (type : LeafType) : SchemaNode :=
  .leaf ⟨type, none⟩

/-- Sets the default of a leaf; other nodes stay. -/
def withDefault : SchemaNode → Json → SchemaNode
  | .leaf schema, value => .leaf { schema with default := some value }
  | node, _ => node

mutual

def equal : SchemaNode → SchemaNode → Bool
  | .container a, .container b => equalChildren a b
  | .list ks m a, .list ls n b => ks == ls && m == n && equalChildren a b
  | .leaf a, .leaf b => a.equal b
  | _, _ => false

def equalChildren : List (String × SchemaNode) → List (String × SchemaNode) → Bool
  | [], [] => true
  | (a, x) :: xs, (b, y) :: ys => a == b && x.equal y && equalChildren xs ys
  | _, _ => false

end

end SchemaNode

namespace Schema

def equal (a b : Schema) : Bool :=
  a.models == b.models && a.root.equal b.root

end Schema

end Telemetry
