import Telemetry.Settings.Layer

/-!
How the lines of a TOML document define its tables. A table is defined by a header, by the dotted
keys that lead through it or by the header of a table below it. Each key and each table is defined
once: a header may only follow headers of tables below it, and dotted keys lead neither through
tables of headers nor through inline tables.
-/

namespace Telemetry.Toml

inductive TableOrigin where
  | header
  /-- By a header of a table below it. -/
  | implied
  | dotted
deriving DecidableEq, Repr

/-- What stands under a key. Inline tables are values. -/
inductive Item where
  | value (v : RawSetting)
  | table (origin : TableOrigin) (entries : List (String × Item))
  | tables (elements : List (List (String × Item)))
deriving Inhabited

abbrev Entries := List (String × Item)

namespace Entries

/-- Changes the table at the end of a path and creates the tables on the way that are missing.
A path through an array of tables leads through the last of them. -/
def alter (dotted : Bool) (change : TableOrigin → Entries → Option Entries) :
    List String → TableOrigin → Entries → Option Entries
  | [], origin, entries => change origin entries
  | key :: rest, _, entries =>
    let created : TableOrigin := if dotted then .dotted else .implied
    match SortedMap.get? entries key with
    | none =>
      (alter dotted change rest created []).map fun below =>
        SortedMap.insert entries key (.table created below)
    | some (.table origin below) =>
      if dotted ∧ origin = .header then none
      else
        (alter dotted change rest origin below).map fun below =>
          SortedMap.insert entries key (.table origin below)
    | some (.tables elements) =>
      match elements.getLast? with
      | none => none
      | some last =>
        (alter dotted change rest .header last).map fun last =>
          SortedMap.insert entries key (.tables (elements.dropLast ++ [last]))
    | some (.value _) => none

def define (path : List String) (key : String) (v : RawSetting) (entries : Entries) :
    Option Entries :=
  alter true (fun origin below =>
    let isDotted : Bool := origin = .dotted
    if isDotted == path.isEmpty ∨ SortedMap.contains below key then none
    else some (SortedMap.insert below key (.value v))) path .header entries

def openTable (path : List String) (key : String) (entries : Entries) : Option Entries :=
  alter false (fun _ below =>
    match SortedMap.get? below key with
    | none => some (SortedMap.insert below key (.table .header []))
    | some (.table .implied content) =>
      some (SortedMap.insert below key (.table .header content))
    | some _ => none) path .header entries

def openElement (path : List String) (key : String) (entries : Entries) : Option Entries :=
  alter false (fun _ below =>
    match SortedMap.get? below key with
    | none => some (SortedMap.insert below key (.tables [[]]))
    | some (.tables elements) => some (SortedMap.insert below key (.tables (elements ++ [[]])))
    | some _ => none) path .header entries

end Entries

mutual

def Item.raw : Item → RawSetting
  | .value v => v
  | .table _ entries => .table (rawEntries entries)
  | .tables elements => .list (rawElements elements)

def rawEntries : List (String × Item) → List (String × RawSetting)
  | [] => []
  | (key, item) :: rest => (key, item.raw) :: rawEntries rest

def rawElements : List (List (String × Item)) → List RawSetting
  | [] => []
  | entries :: rest => .table (rawEntries entries) :: rawElements rest

end

end Telemetry.Toml
