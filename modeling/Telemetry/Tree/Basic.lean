import Telemetry.Path.Basic
import Telemetry.Value

/-!
Device trees as plain values. Containers hold named children, lists hold entries by their key
values, both in increasing order.
-/

namespace Telemetry

inductive LeafValue where
  | string (s : String)
  | bool (b : Bool)
  | int (i : Int64)
  | uint (u : UInt64)
  | double (d : Binary64)
  | bytes (b : List UInt8)
deriving Inhabited

inductive Node where
  | container (children : List (String × Node))
  | list (entries : List (Keys × Node))
  | leaf (value : LeafValue)
deriving Inhabited

namespace LeafValue

/-- Equality of leaf values, doubles compared numerically. -/
def equal : LeafValue → LeafValue → Bool
  | .string a, .string b => a == b
  | .bool a, .bool b => a == b
  | .int a, .int b => a == b
  | .uint a, .uint b => a == b
  | .double a, .double b => a == b
  | .bytes a, .bytes b => a == b
  | _, _ => false

instance : BEq LeafValue := ⟨equal⟩

def toTyped : LeafValue → TypedValue
  | .string s => .string s
  | .bool b => .bool b
  | .int i => .int i
  | .uint u => .uint u
  | .double d => .double d
  | .bytes b => .bytes b

end LeafValue

namespace Node

def emptyContainer : Node := .container []

def emptyList : Node := .list []

def isLeaf : Node → Bool
  | .leaf _ => true
  | _ => false

def children? : Node → Option (List (String × Node))
  | .container children => some children
  | _ => none

mutual

def equal : Node → Node → Bool
  | .container a, .container b => equalChildren a b
  | .list a, .list b => equalEntries a b
  | .leaf a, .leaf b => a == b
  | _, _ => false

def equalChildren : List (String × Node) → List (String × Node) → Bool
  | [], [] => true
  | (a, x) :: xs, (b, y) :: ys => a == b && x.equal y && equalChildren xs ys
  | _, _ => false

def equalEntries : List (Keys × Node) → List (Keys × Node) → Bool
  | [], [] => true
  | (a, x) :: xs, (b, y) :: ys => a == b && x.equal y && equalEntries xs ys
  | _, _ => false

end

instance : BEq Node := ⟨equal⟩

end Node

end Telemetry
