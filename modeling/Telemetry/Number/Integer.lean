import Telemetry.Number.Decimal

/-!
Integers of 64 bits as decimal text: digits with an optional sign, leading zeros allowed.
Unsigned integers take no minus.
-/

namespace Telemetry.Integer

def digits? (text : List Char) : Option Nat :=
  let (n, count, rest) := Decimal.takeDigits text
  if count = 0 ∨ !rest.isEmpty then none else some n

def signed? (text : String) : Option Int64 :=
  let (negative, body) := Decimal.takeSign text.toList
  match digits? body with
  | none => none
  | some n =>
    if negative then if n ≤ 1 <<< 63 then some (Int64.ofInt (-n)) else none
    else if n < 1 <<< 63 then some (Int64.ofInt n) else none

def unsigned? (text : String) : Option UInt64 :=
  let (negative, body) := Decimal.takeSign text.toList
  match digits? body with
  | none => none
  | some n => if !negative ∧ n < UInt64.size then some (UInt64.ofNat n) else none

end Telemetry.Integer
