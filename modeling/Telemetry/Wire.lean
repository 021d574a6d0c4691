import Telemetry.Notification

/-!
Encoded sizes of updates in the protocol-buffer wire format. Every field number in use is
below 16, so a field's tag is one byte. Fields at their default are left out, except the
alternatives of a value, which are always written.
-/

namespace Telemetry.Wire

/-- Bytes of a natural number in groups of seven bits. -/
def varintLength (n : Nat) : Nat :=
  n.log2 / 7 + 1

def delimited (size : Nat) : Nat :=
  1 + varintLength size + size

def stringField (s : String) : Nat :=
  if s.isEmpty then 0 else delimited s.utf8ByteSize

def total (sizes : List Nat) : Nat :=
  sizes.foldr (· + ·) 0

def elemSize (elem : PathElem) : Nat :=
  stringField elem.name
    + total (elem.keys.map fun (key, value) => delimited (stringField key + stringField value))

def pathSize (path : Path) : Nat :=
  stringField path.origin + total (path.elems.map fun elem => delimited (elemSize elem))
    + stringField path.target

mutual

def valueSize : TypedValue → Nat
  | .empty => 0
  | .string s => delimited s.utf8ByteSize
  | .int i => 1 + varintLength i.toUInt64.toNat
  | .uint u => 1 + varintLength u.toNat
  | .bool _ => 2
  | .bytes b => delimited b.length
  | .float _ => 5
  | .double _ => 9
  | .leafList elements => delimited (elementsSize elements)
  | .json text => delimited text.length
  | .jsonIetf text => delimited text.length
  | .ascii s => delimited s.utf8ByteSize
  | .protoBytes b => delimited b.length

def elementsSize : List TypedValue → Nat
  | [] => 0
  | value :: rest => delimited (valueSize value) + elementsSize rest

end

def updateSize (path : Path) (value : TypedValue) : Nat :=
  delimited (pathSize path) + delimited (valueSize value)

end Telemetry.Wire
