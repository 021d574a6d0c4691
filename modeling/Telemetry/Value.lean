import Telemetry.Json.Basic

/-!
Values as updates carry them: one scalar, a list of values, or an encoded document.
-/

namespace Telemetry

inductive TypedValue where
  /-- No alternative is chosen. -/
  | empty
  | string (s : String)
  | int (i : Int64)
  | uint (u : UInt64)
  | bool (b : Bool)
  | bytes (b : List UInt8)
  | float (f : Binary32)
  | double (d : Binary64)
  | leafList (elements : List TypedValue)
  | json (text : List UInt8)
  | jsonIetf (text : List UInt8)
  | ascii (s : String)
  | protoBytes (b : List UInt8)
deriving Inhabited

namespace TypedValue

def ofJson (value : Json) : TypedValue :=
  .jsonIetf value.render.toUTF8.toList

def kind : TypedValue → String
  | .empty => "empty"
  | .string _ => "string"
  | .int _ => "int"
  | .uint _ => "uint"
  | .bool _ => "bool"
  | .bytes _ => "bytes"
  | .float _ => "float"
  | .double _ => "double"
  | .leafList _ => "leaf-list"
  | .json _ => "json"
  | .jsonIetf _ => "json_ietf"
  | .ascii _ => "ascii"
  | .protoBytes _ => "proto_bytes"

end TypedValue

end Telemetry
