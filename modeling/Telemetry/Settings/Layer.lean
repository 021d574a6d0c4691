import Telemetry.Settings.Record
import Telemetry.Number.Integer

/-!
Layers of raw settings. A layer is a list of raw values, each with the name of its place: names
with points between them, or a number in brackets for an item of a list. Laying one over another
merges tables and replaces everything else, so that of several layers the last that sets a value
wins. Names are kept in lower case.
-/

namespace Telemetry

inductive RawSetting where
  | absent
  | flag (b : Bool)
  | integer (i : Int64)
  | real (x : Binary64)
  | text (s : String)
  | list (items : List RawSetting)
  | table (entries : List (String × RawSetting))
deriving Inhabited

/-- A raw value for each of some places. -/
abbrev Layer := List (String × RawSetting)

/-- The lower-case character, for those whose lower case is in ASCII; the Kelvin sign is the
only such character outside of ASCII. -/
def Text.lowerChar (c : Char) : Char :=
  if c = '\u212a' then 'k' else c.toLower

def Text.lower (s : String) : String :=
  String.ofList (s.toList.map Text.lowerChar)

inductive PlaceStep where
  | name (name : String)
  /-- An item of a list, counted from the end if negative. -/
  | item (index : Int)
deriving DecidableEq, Repr

namespace PlaceStep

def isNameChar (c : Char) : Bool :=
  c.isAlphanum || c = '_' || c = '-' || c = ' '

def readIndex (text : List Char) : Option (Int × List Char) :=
  let isSpace (c : Char) : Bool := c = ' ' || c = '\t'
  let (negative, rest) :=
    match text.dropWhile isSpace with
    | '-' :: rest => (true, rest)
    | rest => (false, rest)
  let (n, count, rest) := Decimal.takeDigits rest
  let i : Int := if negative then -(n : Int) else n
  match rest.dropWhile isSpace with
  | ']' :: rest =>
    if count = 0 ∨ Int64.maxValue.toInt < i ∨ i < Int64.minValue.toInt then none
    else some (i, rest)
  | _ => none

/-- Reads the steps after the first one. Every step takes a character, so the length of the text
bounds them. -/
def readMore : Nat → List Char → Option (List PlaceStep)
  | 0, text => if text.isEmpty then some [] else none
  | fuel + 1, text =>
    match text with
    | [] => some []
    | '.' :: rest =>
      let name := rest.takeWhile isNameChar
      if name.isEmpty then none
      else (readMore fuel (rest.dropWhile isNameChar)).map (.name (String.ofList name) :: ·)
    | '[' :: rest =>
      match readIndex rest with
      | some (i, rest) => (readMore fuel rest).map (.item i :: ·)
      | none => none
    | _ => none

/-- The steps that the text of a place spells; a text that spells none is a name as a whole. -/
def ofText (text : String) : List PlaceStep :=
  let chars := text.toList
  let first := chars.takeWhile isNameChar
  let more :=
    if first.isEmpty then none else readMore chars.length (chars.dropWhile isNameChar)
  match more with
  | some steps => .name (String.ofList first) :: steps
  | none => [.name text]

end PlaceStep

namespace RawSetting

def emptyTable : RawSetting := .table []

def entries : RawSetting → List (String × RawSetting)
  | .table entries => entries
  | _ => []

def items : RawSetting → List RawSetting
  | .list items => items
  | _ => []

/-- Stores a value in a table, which takes the place of what is no table. -/
def store (v : RawSetting) (name : String) (value : RawSetting) : RawSetting :=
  .table (SortedMap.insert v.entries name value)

mutual

/-- Lays a value over the entry of a name: a table entry by entry, anything else as it is. -/
def overlay (v : RawSetting) (name : String) : RawSetting → RawSetting
  | .table incoming =>
    let key := Text.lower name
    v.store key (overlayAll ((SortedMap.get? v.entries key).getD emptyTable) incoming)
  | value => v.store (Text.lower name) value

def overlayAll (v : RawSetting) : List (String × RawSetting) → RawSetting
  | [] => v
  | (name, value) :: rest => overlayAll (v.overlay name value) rest

end

/-- Stores an item of a list, which takes the place of what is no list and grows as needed. -/
def storeItem (v : RawSetting) (index : Int) (value : RawSetting) : RawSetting :=
  let i := if 0 ≤ index then index.toNat else v.items.length - index.natAbs
  .list ((v.items ++ List.replicate (i + 1 - v.items.length) absent).set i value)

def itemAt (v : RawSetting) (index : Int) : RawSetting :=
  let i := if 0 ≤ index then index.toNat else v.items.length - index.natAbs
  v.items[i]?.getD .absent

def place (value : RawSetting) : List PlaceStep → RawSetting → RawSetting
  | [], _ => value
  | [.name name], v => v.overlay name value
  | .name name :: rest, v =>
    let key := Text.lower name
    v.store key (place value rest ((SortedMap.get? v.entries key).getD .absent))
  | .item index :: rest, v => v.storeItem index (place value rest (v.itemAt index))

def under (v : RawSetting) (layer : Layer) : RawSetting :=
  layer.foldl (fun v (spot, value) => place value (PlaceStep.ofText spot) v) v

mutual

/-- The raw value of a JSON value without integers beyond 64 signed bits. -/
def ofJson? : Json → Option RawSetting
  | .null => some .absent
  | .bool b => some (.flag b)
  | .number (.natural n) => if n.toNat < 1 <<< 63 then some (.integer n.toInt64) else none
  | .number (.negative i) => some (.integer i)
  | .number (.double x) => some (.real x)
  | .string s => some (.text s)
  | .array items => (ofItems? items).map .list
  | .object fields => (ofFields? fields).map .table

def ofItems? : List Json → Option (List RawSetting)
  | [] => some []
  | item :: rest =>
    match ofJson? item, ofItems? rest with
    | some item, some rest => some (item :: rest)
    | _, _ => none

def ofFields? : List (String × Json) → Option (List (String × RawSetting))
  | [] => some []
  | (name, value) :: rest =>
    match ofJson? value, ofFields? rest with
    | some value, some rest => some ((name, value) :: rest)
    | _, _ => none

end

/-- The natural number of 64 bits nearest to a number; 0 for what is no number. -/
def clamp (x : Binary64) : UInt64 :=
  if x.isNaN ∨ x.isNegative then 0
  else if x.isFinite then UInt64.ofNat (min x.roundHalfAway.toNat (UInt64.size - 1))
  else UInt64.ofNat (UInt64.size - 1)

/-- The truth value of a raw value: numbers are true unless zero, and some words stand for it. -/
def flag? : RawSetting → Option Bool
  | .flag b => some b
  | .integer i => some (i != 0)
  | .real x => some !x.isZero
  | .text s =>
    let word := Text.lower s
    if ["1", "true", "on", "yes"].contains word then some true
    else if ["0", "false", "off", "no"].contains word then some false
    else none
  | _ => none

def natural? : RawSetting → Option UInt64
  | .flag b => some (if b then 1 else 0)
  | .integer i => if 0 ≤ i then some i.toUInt64 else none
  | .real x => some (clamp x)
  | .text s =>
    let word := Text.lower s
    if ["true", "on", "yes"].contains word then some 1
    else if ["false", "off", "no"].contains word then some 0
    else Integer.unsigned? s
  | _ => none

def text? : RawSetting → Option String
  | .flag b => some (if b then "true" else "false")
  | .integer i => some (toString i.toInt)
  | .real x => some (Layout.plain.render x)
  | .text s => some s
  | _ => none

end RawSetting

/-- Raw values are read leniently: flags, numbers and texts convert into each other. -/
def ValueReader.raw : ValueReader RawSetting where
  values?
    | .table entries => some (.named entries)
    | .list items => some (.listed items)
    | _ => none
  isAbsent
    | .absent => true
    | _ => false
  flag? := RawSetting.flag?
  natural? := RawSetting.natural?
  text? := RawSetting.text?
  mayExceed := true

namespace Settings

def ofLayers? (layers : List Layer) : Option Settings :=
  ValueReader.raw.settings? (layers.foldl RawSetting.under RawSetting.emptyTable)

/-- Settings as a layer; none if a number takes more than 64 signed bits. -/
def layer? (s : Settings) : Option Layer :=
  (RawSetting.ofJson? s.toJson).map RawSetting.entries

end Settings

end Telemetry
