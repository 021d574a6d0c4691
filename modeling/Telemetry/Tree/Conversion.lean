import Telemetry.Json.Document
import Telemetry.Number.Integer
import Telemetry.Schema.Basic
import Telemetry.Text.Base64
import Telemetry.Tree.Basic
import Telemetry.Tree.Error

/-!
Conversion of values into leaves of a type. Integers pass between signed and unsigned when the
other type holds them; JSON scalars may carry numbers as strings and bytes as base64. Ranges and
enumerations are not looked at here.
-/

namespace Telemetry.LeafValue

/-- A double leaf; NaN and the infinities are refused. -/
def ofDouble (path : String) (d : Binary64) : Except TreeError LeafValue :=
  if d.isFinite then .ok (.double d) else .error (.nonFinite path d)

def ofJson (type : LeafType) (value : Json) (path : String) : Except TreeError LeafValue :=
  let mismatch : Except TreeError LeafValue :=
    .error (.typeMismatch path type.name value.kind)
  let orMismatch (result : Option LeafValue) : Except TreeError LeafValue :=
    match result with
    | some leaf => .ok leaf
    | none => mismatch
  match type, value with
  | .string _ _, .string s => .ok (.string s)
  | .enumeration _, .string s => .ok (.string s)
  | .bool, .bool b => .ok (.bool b)
  | .int _ _, .number (.natural n) =>
    orMismatch (if n.toNat < 1 <<< 63 then some (.int (Int64.ofInt n.toNat)) else none)
  | .int _ _, .number (.negative i) => .ok (.int i)
  | .int _ _, .string s => orMismatch ((Integer.signed? s).map .int)
  | .uint _ _, .number (.natural n) => .ok (.uint n)
  | .uint _ _, .string s => orMismatch ((Integer.unsigned? s).map .uint)
  | .double _ _, .number n => ofDouble path n.toBinary64
  | .double _ _, .string s =>
    match Binary64.ofText? s with
    | some d => ofDouble path d
    | none => mismatch
  | .bytes, .string s =>
    match Text.Base64.decode? s with
    | some b => .ok (.bytes b)
    | none => .error (.invalidJson path .invalidBase64)
  | _, _ => mismatch

end Telemetry.LeafValue

namespace Telemetry.Json

def ofBytes (bytes : List UInt8) (path : String) : Except TreeError Json :=
  match (String.fromUTF8? ⟨bytes.toArray⟩).bind Json.ofText? with
  | some value => .ok value
  | none => .error (.invalidJson path .unreadable)

def ofTyped (value : TypedValue) (path : String) : Except TreeError Json :=
  match value with
  | .json text => ofBytes text path
  | .jsonIetf text => ofBytes text path
  | .empty => .error (.missingValue path)
  | _ => .error (.typeMismatch path "json" value.kind)

def keyText (value : Json) (path : String) : Except TreeError String :=
  match value with
  | .string s => .ok s
  | .number n => .ok n.render
  | .bool b => .ok (if b then "true" else "false")
  | other => .error (.invalidJson (placeText path) (.unusableKey other.kind))

end Telemetry.Json

namespace Telemetry.LeafValue

def ofTyped (type : LeafType) (value : TypedValue) (path : String) :
    Except TreeError LeafValue :=
  let mismatch : Except TreeError LeafValue :=
    .error (.typeMismatch path type.name value.kind)
  match value, type with
  | .empty, _ => .error (.missingValue path)
  | .json text, _ => do ofJson type (← Json.ofBytes text path) path
  | .jsonIetf text, _ => do ofJson type (← Json.ofBytes text path) path
  | .string s, .string _ _ => .ok (.string s)
  | .string s, .enumeration _ => .ok (.string s)
  | .ascii s, .string _ _ => .ok (.string s)
  | .ascii s, .enumeration _ => .ok (.string s)
  | .bool b, .bool => .ok (.bool b)
  | .int i, .int _ _ => .ok (.int i)
  | .int i, .uint _ _ => if 0 ≤ i then .ok (.uint i.toUInt64) else mismatch
  | .uint u, .uint _ _ => .ok (.uint u)
  | .uint u, .int _ _ => if u.toNat < 1 <<< 63 then .ok (.int u.toInt64) else mismatch
  | .double d, .double _ _ => ofDouble path d
  | .float f, .double _ _ => ofDouble path f.toBinary64
  | .bytes b, .bytes => .ok (.bytes b)
  | _, _ => mismatch

end Telemetry.LeafValue
