import Telemetry.Toml.Number
import Telemetry.Toml.Table

/-!
TOML documents: values and lines. `Toml.ofText?` gives the entries of a whole document. Arrays may
go over lines and may end in a comma, inline tables may not. Values nest less than 80 deep.
-/

namespace Telemetry.Toml

def depthLimit : Nat := 80

def splitKey (parts : List String) : List String × String :=
  (parts.dropLast, parts.getLastD "")

mutual

/-- Reads a value that may still nest `depth` deep; `fuel` bounds the calls. -/
def readValue (depth : Nat) : Nat → List Char → Option (RawSetting × List Char)
  | 0, _ => none
  | fuel + 1, text =>
    match text with
    | '"' :: _ => (readString text).map fun (s, rest) => (.text s, rest)
    | '\x27' :: _ => (readString text).map fun (s, rest) => (.text s, rest)
    | 't' :: 'r' :: 'u' :: 'e' :: rest => some (.flag true, rest)
    | 'f' :: 'a' :: 'l' :: 's' :: 'e' :: rest => some (.flag false, rest)
    | '[' :: rest =>
      if depth ≤ 1 then none
      else (readItems (depth - 1) fuel rest).map fun (items, rest) => (.list items, rest)
    | '\x7b' :: rest =>
      if depth ≤ 1 then none
      else
        match skipSpace rest with
        | '\x7d' :: rest => some (RawSetting.emptyTable, rest)
        | rest =>
          (readPairs (depth - 1) fuel [] rest).map fun (entries, rest) =>
            (.table (rawEntries entries), rest)
    | _ =>
      match readMoment text with
      | some found => some found
      | none => readNumber text

def readItems (depth : Nat) : Nat → List Char → Option (List RawSetting × List Char)
  | 0, _ => none
  | fuel + 1, text =>
    match skipLines true (text.length + 1) text with
    | ']' :: rest => some ([], rest)
    | start => do
      let (item, rest) ← readValue depth fuel start
      match skipLines true (rest.length + 1) rest with
      | ',' :: rest => (readItems depth fuel rest).map fun (items, rest) => (item :: items, rest)
      | ']' :: rest => some ([item], rest)
      | _ => none

def readPairs (depth : Nat) : Nat → Entries → List Char → Option (Entries × List Char)
  | 0, _, _ => none
  | fuel + 1, entries, text => do
    let (parts, '=' :: rest) ← readKey text.length text | none
    let (value, rest) ← readValue depth fuel (skipSpace rest)
    let (path, key) := splitKey parts
    let entries ← entries.define path key value
    match skipSpace rest with
    | ',' :: rest => readPairs depth fuel entries rest
    | '\x7d' :: rest => some (entries, rest)
    | _ => none

end

/-- What the lines read so far define, and the path of the header that they are under. -/
structure Outline where
  entries : Entries
  /-- The path of the table that lines belong to, empty at the top. -/
  current : List String

namespace Outline

def define (o : Outline) (parts : List String) (value : RawSetting) : Option Outline :=
  let (path, key) := splitKey parts
  (Entries.alter false (fun _ below => Entries.define path key value below) o.current .header
    o.entries).map fun entries => { o with entries := entries }

def openHeader (o : Outline) (array : Bool) (parts : List String) : Option Outline :=
  let (path, key) := splitKey parts
  (if array then o.entries.openElement path key else o.entries.openTable path key).map
    fun entries => ⟨entries, parts⟩

end Outline

def readHeader (array : Bool) (text : List Char) : Option (List String × List Char) := do
  let (parts, rest) ← readKey text.length text
  match array, rest with
  | false, ']' :: rest => some (parts, rest)
  | true, ']' :: ']' :: rest => some (parts, rest)
  | _, _ => none

def readLineOf (o : Outline) (text : List Char) : Option (Outline × List Char) :=
  match skipSpace text with
  | '[' :: '[' :: rest => do
    let (parts, rest) ← readHeader true rest
    some (← o.openHeader true parts, ← endLine? rest)
  | '[' :: rest => do
    let (parts, rest) ← readHeader false rest
    some (← o.openHeader false parts, ← endLine? rest)
  | start =>
    match endLine? start with
    | some rest => some (o, rest)
    | none => do
      let (parts, '=' :: rest) ← readKey start.length start | none
      let body := skipSpace rest
      let (value, rest) ← readValue depthLimit (2 * body.length + 2) body
      some (← o.define parts value, ← endLine? rest)

def readLines : Nat → Outline → List Char → Option Outline
  | 0, _, _ => none
  | fuel + 1, o, text =>
    if text.isEmpty then some o
    else do
      let (o, rest) ← readLineOf o text
      readLines fuel o rest

def withoutMark (text : List Char) : List Char :=
  match text with
  | '\ufeff' :: rest => rest
  | _ => text

def ofText? (text : String) : Option (List (String × RawSetting)) :=
  let chars := withoutMark text.toList
  (readLines (chars.length + 1) ⟨[], []⟩ chars).map fun o => rawEntries o.entries

end Telemetry.Toml
