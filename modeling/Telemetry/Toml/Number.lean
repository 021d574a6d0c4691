import Telemetry.Settings.Layer
import Telemetry.Toml.Text

/-!
Numbers, dates and times of TOML. An underscore may stand between two digits. A date or a time
has a value as text in one spelling: `T` before the time, no trailing zeros of the second's
fraction, at most nine places of it, `Z` for the offset zero if it was written so.
-/

namespace Telemetry.Toml

/-- Reads digits after the first one; an underscore has to stand before a digit. -/
def readDigitsMore (isDigit : Char → Bool) : List Char → Option (List Char × List Char)
  | [] => some ([], [])
  | ['_'] => none
  | '_' :: c :: rest =>
    if isDigit c then (readDigitsMore isDigit rest).map fun (ds, rest) => (c :: ds, rest) else none
  | c :: rest =>
    if isDigit c then (readDigitsMore isDigit rest).map fun (ds, rest) => (c :: ds, rest)
    else some ([], c :: rest)

def readDigits (isDigit : Char → Bool) (text : List Char) : Option (List Char × List Char) :=
  match text with
  | c :: rest =>
    if isDigit c then (readDigitsMore isDigit rest).map fun (ds, rest) => (c :: ds, rest) else none
  | [] => none

def valueIn (base : Nat) (digits : List Char) : Nat :=
  digits.foldl (fun n c => base * n + (Document.hexValue? c).getD 0) 0

def readBased (base : Nat) (text : List Char) : Option (RawSetting × List Char) := do
  let isDigit (c : Char) : Bool := (Document.hexValue? c).any (· < base)
  let (digits, rest) ← readDigits isDigit text
  let n := valueIn base digits
  if n < 1 <<< 63 then some (.integer (Int64.ofInt n), rest) else none

/-- Reads the whole part of a number: a zero alone, or digits that start with no zero. -/
def readWhole (text : List Char) : Option (List Char × List Char) :=
  match text with
  | '0' :: rest => some (['0'], rest)
  | _ => readDigits Char.isDigit text

def readExponent (text : List Char) : Option (Option Int × List Char) :=
  match text with
  | c :: rest =>
    if c = 'e' ∨ c = 'E' then do
      let (negative, rest) := Decimal.takeSign rest
      let (digits, rest) ← readDigits Char.isDigit rest
      let n : Int := valueIn 10 digits
      some (some (if negative then -n else n), rest)
    else some (none, text)
  | [] => some (none, [])

/-- Reads an integer or a number with fraction or exponent, after its sign. Beyond the largest
number there is only the negative infinity. -/
def readDecimal (negative : Bool) (text : List Char) : Option (RawSetting × List Char) := do
  let (whole, rest) ← readWhole text
  let (fraction, rest) ←
    match rest with
    | '.' :: rest => (readDigits Char.isDigit rest).map fun (ds, rest) => (some ds, rest)
    | _ => some (none, rest)
  let (exponent, rest) ← readExponent rest
  if fraction.isNone ∧ exponent.isNone then
    let n := valueIn 10 whole
    if n < 1 <<< 63 ∨ (negative ∧ n = 1 <<< 63) then
      some (.integer (Int64.ofInt (if negative then -n else n)), rest)
    else none
  else
    let places := fraction.getD []
    let x := Binary64.ofDecimal negative (valueIn 10 (whole ++ places))
      (exponent.getD 0 - (places.length : Nat))
    if x.isFinite ∨ negative then some (.real x, rest) else none

def readNumber (text : List Char) : Option (RawSetting × List Char) :=
  match text with
  | '0' :: 'x' :: rest => readBased 16 rest
  | '0' :: 'o' :: rest => readBased 8 rest
  | '0' :: 'b' :: rest => readBased 2 rest
  | _ =>
    let (negative, rest) := Decimal.takeSign text
    match rest with
    | 'i' :: 'n' :: 'f' :: rest => some (.real (Binary64.infinity negative), rest)
    | 'n' :: 'a' :: 'n' :: rest =>
      some (.real (if negative then Binary64.nan.neg else Binary64.nan), rest)
    | _ => readDecimal negative rest

def readFixed (count : Nat) (text : List Char) : Option (Nat × List Char) :=
  let digits := text.take count
  if digits.length = count ∧ digits.all Char.isDigit then
    some (valueIn 10 digits, text.drop count)
  else none

def padded (count n : Nat) : String :=
  let digits := Nat.toDigits 10 n
  String.ofList (List.replicate (count - digits.length) '0' ++ digits)

def daysIn (year month : Nat) : Nat :=
  if month = 2 then
    if year % 4 = 0 ∧ (year % 100 ≠ 0 ∨ year % 400 = 0) then 29 else 28
  else if month = 4 ∨ month = 6 ∨ month = 9 ∨ month = 11 then 30
  else 31

def readDate (text : List Char) : Option (String × List Char) := do
  let (year, '-' :: rest) ← readFixed 4 text | none
  let (month, '-' :: rest) ← readFixed 2 rest | none
  let (day, rest) ← readFixed 2 rest
  if 1 ≤ month ∧ month ≤ 12 ∧ 1 ≤ day ∧ day ≤ daysIn year month then
    some (s!"{padded 4 year}-{padded 2 month}-{padded 2 day}", rest)
  else none

/-- The text of a second's fraction: at most nine places, none of them a trailing zero. -/
def fractionText (digits : List Char) : String :=
  let kept := ((digits.take 9).reverse.dropWhile (· = '0')).reverse
  if kept.isEmpty then "" else String.ofList ('.' :: kept)

def readClock (text : List Char) : Option (String × List Char) := do
  let (hour, ':' :: rest) ← readFixed 2 text | none
  let (minute, rest) ← readFixed 2 rest
  if hour < 24 ∧ minute < 60 then some (s!"{padded 2 hour}:{padded 2 minute}", rest) else none

def readTime (text : List Char) : Option (String × List Char) := do
  let (clock, ':' :: rest) ← readClock text | none
  let (second, rest) ← readFixed 2 rest
  if 60 < second then none
  else
    let whole := s!"{clock}:{padded 2 second}"
    match rest with
    | '.' :: more =>
      let digits := more.takeWhile Char.isDigit
      if digits.isEmpty then some (whole, rest)
      else some (whole ++ fractionText digits, more.dropWhile Char.isDigit)
    | _ => some (whole, rest)

/-- Reads an offset from universal time, if there is one; a zero one has a plus. -/
def readOffset (text : List Char) : Option (String × List Char) :=
  let numeric (sign : String) (rest : List Char) : Option (String × List Char) :=
    (readClock rest).map fun (clock, rest) =>
      ((if clock = "00:00" then "+" else sign) ++ clock, rest)
  match text with
  | 'Z' :: rest => some ("Z", rest)
  | 'z' :: rest => some ("Z", rest)
  | '+' :: rest => numeric "+" rest
  | '-' :: rest => numeric "-" rest
  | _ => some ("", text)

def readTimeAfterDate (text : List Char) : Option (String × List Char) :=
  match text with
  | c :: rest =>
    if c = 'T' ∨ c = 't' ∨ c = ' ' then
      match readTime rest with
      | some (time, rest) =>
        (readOffset rest).map fun (offset, rest) => ("T" ++ time ++ offset, rest)
      | none => if c = ' ' then some ("", text) else none
    else some ("", text)
  | [] => some ("", [])

def readMoment (text : List Char) : Option (RawSetting × List Char) :=
  match readDate text with
  | some (date, rest) =>
    (readTimeAfterDate rest).map fun (time, rest) => (.text (date ++ time), rest)
  | none => (readTime text).map fun (time, rest) => (.text time, rest)

end Telemetry.Toml
