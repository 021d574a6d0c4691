import Telemetry.Json.Document

/-!
Addresses to listen on: an IP address and a port, as text. Octets are written without leading
zeros; of the longest run of at least two zero groups of an IPv6 address, the first such run is
left out.
-/

namespace Telemetry

inductive IpAddress where
  | v4 (a b c d : UInt8)
  /-- Eight groups and the number of a scope, 0 for none. -/
  | v6 (groups : List UInt16) (scope : UInt32)
deriving DecidableEq, Repr

structure ListenAddress where
  ip : IpAddress
  port : UInt16
deriving DecidableEq, Repr

namespace ListenAddress

def readNumber (text : List Char) : Option (Nat × List Char) :=
  let (n, count, rest) := Decimal.takeDigits text
  if count = 0 then none else some (n, rest)

def readOctet (text : List Char) : Option (UInt8 × List Char) :=
  let (n, count, rest) := Decimal.takeDigits text
  if count = 0 ∨ 255 < n ∨ (1 < count ∧ text.head? = some '0') then none
  else some (UInt8.ofNat n, rest)

def readOctets (text : List Char) : Option ((UInt8 × UInt8 × UInt8 × UInt8) × List Char) := do
  let (a, '.' :: rest) ← readOctet text | none
  let (b, '.' :: rest) ← readOctet rest | none
  let (c, '.' :: rest) ← readOctet rest | none
  let (d, rest) ← readOctet rest
  some ((a, b, c, d), rest)

def readGroup (text : List Char) : Option (UInt16 × List Char) :=
  let digits := text.takeWhile fun c => (Document.hexValue? c).isSome
  if digits.isEmpty ∨ 4 < digits.length then none
  else
    let n := digits.foldl (fun n c => 16 * n + (Document.hexValue? c).getD 0) 0
    some (UInt16.ofNat n, text.drop digits.length)

def afterColon? (first : Bool) (text : List Char) : Option (List Char) :=
  if first then some text
  else
    match text with
    | ':' :: rest => some rest
    | _ => none

/-- Reads up to `n` groups. The last two may be written as four octets; the flag says so. -/
def readGroups (first : Bool) : Nat → List Char → List UInt16 × Bool × List Char
  | 0, text => ([], false, text)
  | n + 1, text =>
    match afterColon? first text with
    | none => ([], false, text)
    | some body =>
      match if n = 0 then none else readOctets body with
      | some ((a, b, c, d), rest) =>
        ([a.toUInt16 * 256 + b.toUInt16, c.toUInt16 * 256 + d.toUInt16], true, rest)
      | none =>
        match readGroup body with
        | none => ([], false, text)
        | some (group, rest) =>
          let (groups, octets, rest) := readGroups false n rest
          (group :: groups, octets, rest)

/-- Reads the eight groups of an address, some of them left out at a double colon. -/
def readIp6 (text : List Char) : Option (List UInt16 × List Char) :=
  let (head, octets, rest) := readGroups true 8 text
  if head.length = 8 then some (head, rest)
  else if octets then none
  else
    match rest with
    | ':' :: ':' :: rest =>
      let (tail, _, rest) := readGroups true (7 - head.length) rest
      some (head ++ List.replicate (8 - head.length - tail.length) 0 ++ tail, rest)
    | _ => none

def readScope (text : List Char) : UInt32 × List Char :=
  match text with
  | '%' :: rest =>
    match readNumber rest with
    | some (n, rest) => if n < UInt32.size then (UInt32.ofNat n, rest) else (0, text)
    | none => (0, text)
  | _ => (0, text)

def port? (text : List Char) : Option UInt16 :=
  match text with
  | ':' :: rest =>
    match readNumber rest with
    | some (n, []) => if n < UInt16.size then some (UInt16.ofNat n) else none
    | _ => none
  | _ => none

def ofText? (text : String) : Option ListenAddress :=
  match text.toList with
  | '[' :: rest => do
    let (groups, rest) ← readIp6 rest
    let (scope, rest) := readScope rest
    match rest with
    | ']' :: rest => some ⟨.v6 groups scope, ← port? rest⟩
    | _ => none
  | chars => do
    let ((a, b, c, d), rest) ← readOctets chars
    some ⟨.v4 a b c d, ← port? rest⟩

end ListenAddress

namespace IpAddress

def octetsText (a b c d : UInt8) : String :=
  ".".intercalate ([a, b, c, d].map fun octet => toString octet.toNat)

def groupsText (groups : List UInt16) : String :=
  ":".intercalate (groups.map fun group => String.ofList (Nat.toDigits 16 group.toNat))

def leadingZeros (groups : List UInt16) : Nat :=
  (groups.takeWhile (· == 0)).length

/-- The start and the length of the longest run of zero groups, the first of equally long ones. -/
def longestZeros : List UInt16 → Nat × Nat
  | [] => (0, 0)
  | group :: rest =>
    let (start, length) := longestZeros rest
    let here := leadingZeros (group :: rest)
    if length ≤ here then (0, here) else (start + 1, length)

def ip6Text (groups : List UInt16) : String :=
  match groups with
  | [0, 0, 0, 0, 0, 0xffff, x, y] =>
    "::ffff:" ++ octetsText (x / 256).toUInt8 x.toUInt8 (y / 256).toUInt8 y.toUInt8
  | _ =>
    let (start, length) := longestZeros groups
    if 1 < length then
      groupsText (groups.take start) ++ "::" ++ groupsText (groups.drop (start + length))
    else groupsText groups

def text : IpAddress → String
  | v4 a b c d => octetsText a b c d
  | v6 groups scope =>
    "[" ++ ip6Text groups ++ (if scope = 0 then "" else "%" ++ toString scope.toNat) ++ "]"

end IpAddress

def ListenAddress.text (address : ListenAddress) : String :=
  address.ip.text ++ ":" ++ toString address.port.toNat

end Telemetry
