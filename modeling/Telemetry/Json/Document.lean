import Telemetry.Json.Basic

/-!
Reading JSON text. A `Document` is the text's structure with every field kept, also repeated
ones; a number that no double reaches and a string with a lone surrogate are spelled correctly
but have no value. `Document.value?` is the JSON value of a document, in which the last of repeated
fields counts and arrays and objects nest at most 127 deep.
-/

namespace Telemetry

inductive Document where
  | null
  | bool (b : Bool)
  | number (value : Option JsonNumber)
  | string (value : Option String)
  | array (items : List Document)
  | object (fields : List (Option String × Document))

namespace Document

def isBlank (c : Char) : Bool :=
  c = ' ' || c = '\n' || c = '\t' || c = '\r'

def skipBlank (text : List Char) : List Char :=
  text.dropWhile isBlank

def hexValue? (c : Char) : Option Nat :=
  if c.isDigit then some (c.toNat - '0'.toNat)
  else if 'a' ≤ c ∧ c ≤ 'f' then some (c.toNat - 'a'.toNat + 10)
  else if 'A' ≤ c ∧ c ≤ 'F' then some (c.toNat - 'A'.toNat + 10)
  else none

def hexUnit? (text : List Char) : Option (Nat × List Char) :=
  match text with
  | a :: b :: c :: d :: rest => do
    let a ← hexValue? a
    let b ← hexValue? b
    let c ← hexValue? c
    let d ← hexValue? d
    some (((a * 16 + b) * 16 + c) * 16 + d, rest)
  | _ => none

/-- A piece of a string: a character, or a surrogate code unit from an escape. -/
inductive Piece where
  | char (c : Char)
  | surrogate (unit : Nat)

def Piece.ofUnit (unit : Nat) : Piece :=
  if 0xD800 ≤ unit ∧ unit < 0xE000 then .surrogate unit else .char (Char.ofNat unit)

/-- Joins pieces into characters, a high surrogate with the low one right after it. -/
def joinPieces : List Piece → Option (List Char)
  | [] => some []
  | .char c :: rest => (joinPieces rest).map (c :: ·)
  | .surrogate high :: .surrogate low :: rest =>
    if high < 0xDC00 ∧ 0xDC00 ≤ low then
      (joinPieces rest).map (Char.ofNat (0x10000 + (high - 0xD800) * 0x400 + (low - 0xDC00)) :: ·)
    else none
  | .surrogate _ :: _ => none

def escaped? (c : Char) : Option Char :=
  match c with
  | '"' => some '"'
  | '\\' => some '\\'
  | '/' => some '/'
  | 'b' => some (Char.ofNat 8)
  | 'f' => some (Char.ofNat 12)
  | 'n' => some '\n'
  | 'r' => some '\r'
  | 't' => some '\t'
  | _ => none

def readPieces (seen : List Piece) : Nat → List Char → Option (List Piece × List Char)
  | 0, _ => none
  | fuel + 1, text =>
    match text with
    | [] => none
    | '"' :: rest => some (seen.reverse, rest)
    | '\\' :: 'u' :: rest =>
      match hexUnit? rest with
      | some (unit, rest) => readPieces (Piece.ofUnit unit :: seen) fuel rest
      | none => none
    | '\\' :: c :: rest =>
      match escaped? c with
      | some c => readPieces (.char c :: seen) fuel rest
      | none => none
    | c :: rest =>
      if c.toNat < 32 ∨ c = '\\' then none else readPieces (.char c :: seen) fuel rest

def readString (text : List Char) : Option (Option String × List Char) :=
  (readPieces [] (text.length + 1) text).map fun (pieces, rest) =>
    ((joinPieces pieces).map String.ofList, rest)

/-- A significand that grows digit by digit while it fits in 64 bits, with the number of digits
that no longer did. -/
structure Significand where
  value : Nat
  dropped : Nat

namespace Significand

def push (s : Significand) (c : Char) : Significand :=
  let next := 10 * s.value + (c.toNat - '0'.toNat)
  if s.dropped = 0 ∧ next < UInt64.size then ⟨next, 0⟩ else ⟨s.value, s.dropped + 1⟩

def pushAll (s : Significand) (digits : List Char) : Significand :=
  digits.foldl push s

end Significand

/-- Divides by `10 ^ n` in steps of at most `10 ^ 308`; three steps take any 64-bit number
to zero. -/
def shiftDown : Nat → Binary64 → Nat → Binary64
  | 0, x, _ => x
  | steps + 1, x, n =>
    if n ≤ 308 then x.div (Binary64.powerOfTen n)
    else if x.isZero then x
    else shiftDown steps (x.div (Binary64.powerOfTen 308)) (n - 308)

/-- The double `significand * 10 ^ exponent`, rounded once for the significand and once for each
scaling step; none when it is out of range. -/
def scaledDouble? (negative : Bool) (significand : Nat) (exponent : Int) : Option JsonNumber :=
  let x := Binary64.ofNat significand
  let y? :=
    if exponent < 0 then some (shiftDown 4 x (-exponent).toNat)
    else if exponent ≤ 308 then
      let y := x.mul (Binary64.powerOfTen exponent.toNat)
      if y.isFinite then some y else none
    else if x.isZero then some x
    else none
  y?.map fun y => .double (if negative then y.neg else y)

/-- The number spelled by its digits. Without fraction and exponent it is an integer where
64 bits hold it, except that `-0` is the negative zero. -/
def numberOf? (negative : Bool) (whole : List Char) (fraction : Option (List Char))
    (exponent : Option Int) : Option JsonNumber :=
  let s := Significand.pushAll ⟨0, 0⟩ whole
  match fraction, exponent with
  | none, none =>
    if 0 < s.dropped then scaledDouble? negative s.value s.dropped
    else if !negative then some (.natural (UInt64.ofNat s.value))
    else if 0 < s.value ∧ s.value ≤ 1 <<< 63 then some (.negative (Int64.ofInt (-s.value)))
    else some (.double (Binary64.ofNat s.value).neg)
  | _, _ =>
    let places := fraction.getD []
    let t := Significand.pushAll ⟨s.value, 0⟩ places
    let used : Int := (places.length - t.dropped : Nat)
    scaledDouble? negative t.value (s.dropped - used + exponent.getD 0)

def readExponent? (text : List Char) : Option (Int × List Char) :=
  let (negative, rest) := Decimal.takeSign text
  let (n, count, rest) := Decimal.takeDigits rest
  if count = 0 then none else some (if negative then -(n : Int) else n, rest)

def readNumber? (negative : Bool) (text : List Char) : Option (Document × List Char) :=
  let whole := text.takeWhile (·.isDigit)
  let rest := text.dropWhile (·.isDigit)
  if whole.isEmpty ∨ (whole.head? = some '0' ∧ 1 < whole.length) then none
  else do
    let (fraction, rest) ←
      match rest with
      | '.' :: rest =>
        let digits := rest.takeWhile (·.isDigit)
        if digits.isEmpty then none else some (some digits, rest.dropWhile (·.isDigit))
      | rest => some (none, rest)
    let (exponent, rest) ←
      match rest with
      | 'e' :: rest => (readExponent? rest).map fun (e, rest) => (some e, rest)
      | 'E' :: rest => (readExponent? rest).map fun (e, rest) => (some e, rest)
      | rest => some (none, rest)
    some (.number (numberOf? negative whole fraction exponent), rest)

mutual

/-- Reads one document at the start of the text; `fuel` bounds the calls. -/
def readValue : Nat → List Char → Option (Document × List Char)
  | 0, _ => none
  | fuel + 1, text =>
    match skipBlank text with
    | 'n' :: 'u' :: 'l' :: 'l' :: rest => some (.null, rest)
    | 't' :: 'r' :: 'u' :: 'e' :: rest => some (.bool true, rest)
    | 'f' :: 'a' :: 'l' :: 's' :: 'e' :: rest => some (.bool false, rest)
    | '"' :: rest => (readString rest).map fun (s, rest) => (.string s, rest)
    | '-' :: rest => readNumber? true rest
    | '[' :: rest =>
      match skipBlank rest with
      | ']' :: rest => some (.array [], rest)
      | rest => (readItems fuel rest).map fun (items, rest) => (.array items, rest)
    | '\x7b' :: rest =>
      match skipBlank rest with
      | '\x7d' :: rest => some (.object [], rest)
      | rest => (readFields fuel rest).map fun (fields, rest) => (.object fields, rest)
    | rest => readNumber? false rest

def readItems : Nat → List Char → Option (List Document × List Char)
  | 0, _ => none
  | fuel + 1, text => do
    let (item, rest) ← readValue fuel text
    match skipBlank rest with
    | ',' :: rest => (readItems fuel rest).map fun (items, rest) => (item :: items, rest)
    | ']' :: rest => some ([item], rest)
    | _ => none

def readFields : Nat → List Char → Option (List (Option String × Document) × List Char)
  | 0, _ => none
  | fuel + 1, text =>
    match skipBlank text with
    | '"' :: rest => do
      let (name, rest) ← readString rest
      match skipBlank rest with
      | ':' :: rest =>
        let (value, rest) ← readValue fuel rest
        match skipBlank rest with
        | ',' :: rest =>
          (readFields fuel rest).map fun (fields, rest) => ((name, value) :: fields, rest)
        | '\x7d' :: rest => some ([(name, value)], rest)
        | _ => none
      | _ => none
    | _ => none

end

/-- Reads a whole text. Each call reads a character or is the first one inside a bracket, so
twice the length bounds them. -/
def ofText? (text : String) : Option Document :=
  let chars := text.toList
  match readValue (2 * chars.length + 2) chars with
  | some (document, rest) => if (skipBlank rest).isEmpty then some document else none
  | none => none

mutual

def valueAt? : Document → Nat → Option Json
  | .null, _ => some .null
  | .bool b, _ => some (.bool b)
  | .number n, _ => n.map .number
  | .string s, _ => s.map .string
  | .array items, depth =>
    if depth = 0 then none else (valuesAt? items (depth - 1)).map .array
  | .object fields, depth =>
    if depth = 0 then none else (fieldsAt? fields (depth - 1)).map Json.ofFields

def valuesAt? : List Document → Nat → Option (List Json)
  | [], _ => some []
  | item :: items, depth =>
    match item.valueAt? depth, valuesAt? items depth with
    | some value, some values => some (value :: values)
    | _, _ => none

/-- The values of the fields of an object, repeated names included. -/
def fieldsAt? : List (Option String × Document) → Nat → Option (List (String × Json))
  | [], _ => some []
  | (name, item) :: fields, depth =>
    match name, item.valueAt? depth, fieldsAt? fields depth with
    | some name, some value, some values => some ((name, value) :: values)
    | _, _, _ => none

end

def depthLimit : Nat := 127

def value? (document : Document) : Option Json :=
  document.valueAt? depthLimit

end Document

def Json.ofText? (text : String) : Option Json :=
  (Document.ofText? text).bind Document.value?

end Telemetry
