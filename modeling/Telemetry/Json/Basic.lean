import Telemetry.SortedMap
import Telemetry.Number.Decimal

/-!
JSON values. Objects hold their fields in increasing name order, each name once. A number is
a natural of 64 bits, a negative integer of 64 bits or a double.
-/

namespace Telemetry

inductive JsonNumber where
  | natural (n : UInt64)
  | negative (n : Int64)
  | double (x : Binary64)

inductive Json where
  | null
  | bool (b : Bool)
  | number (n : JsonNumber)
  | string (s : String)
  | array (items : List Json)
  | object (fields : List (String × Json))
deriving Inhabited

namespace JsonNumber

/-- The number of an integer, where one holds it. -/
def ofInt? (i : Int) : Option JsonNumber :=
  if 0 ≤ i ∧ i < UInt64.size then some (.natural (UInt64.ofNat i.toNat))
  else if Int64.minValue.toInt ≤ i ∧ i < 0 then some (.negative (Int64.ofInt i))
  else none

/-- The integer that an integer number stands for; doubles are never integers. -/
def toInt? : JsonNumber → Option Int
  | .natural n => some n.toNat
  | .negative n => some n.toInt
  | .double _ => none

/-- The number as a double, an integer rounding to nearest. -/
def toBinary64 : JsonNumber → Binary64
  | .natural n => Binary64.ofNat n.toNat
  | .negative n => Binary64.ofInt n.toInt
  | .double x => x

def render : JsonNumber → String
  | .natural n => toString n.toNat
  | .negative n => toString n.toInt
  | .double x => Layout.json.render x

/-- Numbers of different kinds differ; doubles compare numerically. -/
def equal : JsonNumber → JsonNumber → Bool
  | .natural m, .natural n => m == n
  | .negative m, .negative n => m == n
  | .double x, .double y => x == y
  | _, _ => false

end JsonNumber

namespace Json

/-- The number of a natural number below `2 ^ 64`. -/
def nat (n : Nat) : Json :=
  .number (.natural (UInt64.ofNat n))

def ofFields (fields : List (String × Json)) : Json :=
  .object (SortedMap.ofList fields)

def get? : Json → String → Option Json
  | .object fields, name => SortedMap.get? fields name
  | _, _ => none

def kind : Json → String
  | .null => "null"
  | .bool _ => "bool"
  | .number _ => "number"
  | .string _ => "string"
  | .array _ => "array"
  | .object _ => "object"

mutual

def equal : Json → Json → Bool
  | .null, .null => true
  | .bool a, .bool b => a == b
  | .number m, .number n => m.equal n
  | .string s, .string t => s == t
  | .array xs, .array ys => equalItems xs ys
  | .object xs, .object ys => equalFields xs ys
  | _, _ => false

def equalItems : List Json → List Json → Bool
  | [], [] => true
  | x :: xs, y :: ys => x.equal y && equalItems xs ys
  | _, _ => false

def equalFields : List (String × Json) → List (String × Json) → Bool
  | [], [] => true
  | (a, x) :: xs, (b, y) :: ys => a == b && x.equal y && equalFields xs ys
  | _, _ => false

end

def hexDigit (n : Nat) : Char :=
  (Nat.toDigits 16 n).headD '0'

def escape (c : Char) : List Char :=
  match c with
  | '"' => ['\\', '"']
  | '\\' => ['\\', '\\']
  | '\n' => ['\\', 'n']
  | '\r' => ['\\', 'r']
  | '\t' => ['\\', 't']
  | c =>
    if c.toNat = 8 then ['\\', 'b']
    else if c.toNat = 12 then ['\\', 'f']
    else if c.toNat < 32 then
      ['\\', 'u', '0', '0', hexDigit (c.toNat / 16), hexDigit (c.toNat % 16)]
    else [c]

def quote (s : String) : String :=
  String.ofList ('"' :: s.toList.flatMap escape ++ ['"'])

mutual

def render : Json → String
  | .null => "null"
  | .bool true => "true"
  | .bool false => "false"
  | .number n => n.render
  | .string s => quote s
  | .array [] => "[]"
  | .array (item :: items) => "[" ++ item.render ++ renderItems items ++ "]"
  | .object [] => "\x7b\x7d"
  | .object ((name, value) :: fields) =>
    "\x7b" ++ quote name ++ ":" ++ value.render ++ renderFields fields ++ "\x7d"

def renderItems : List Json → String
  | [] => ""
  | item :: items => "," ++ item.render ++ renderItems items

def renderFields : List (String × Json) → String
  | [] => ""
  | (name, value) :: fields => "," ++ quote name ++ ":" ++ value.render ++ renderFields fields

end

end Json

end Telemetry
