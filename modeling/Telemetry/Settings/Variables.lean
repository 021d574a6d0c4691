import Telemetry.Settings.Layer

/-!
Settings from variables of the environment. The name of a variable is `COLLECTOR` and the names of
a place with two underscores between them, in any case. An empty value sets nothing.
-/

namespace Telemetry.Variables

def leadingText : String := "collector__"

/-- The text with a point for every two underscores, from the left. -/
def withPoints : List Char → List Char
  | '_' :: '_' :: rest => '.' :: withPoints rest
  | c :: rest => c :: withPoints rest
  | [] => []

def place? (name : String) : Option String :=
  let chars := (Text.lower name).toList
  let start := leadingText.toList
  if start.isPrefixOf chars then some (String.ofList (withPoints (chars.drop start.length)))
  else none

/-- The value of a text: a flag, an integer or a number if it spells one. -/
def valueOf (text : String) : RawSetting :=
  let word := Text.lower text
  if word = "true" then .flag true
  else if word = "false" then .flag false
  else
    match Integer.signed? text with
    | some i => .integer i
    | none =>
      match Binary64.ofText? text with
      | some x => .real x
      | none => .text text

def layer (environment : List (String × String)) : Layer :=
  let places := environment.filterMap fun (name, text) =>
    if text.isEmpty then none else (place? name).map fun place => (place, valueOf text)
  SortedMap.ofList places

end Telemetry.Variables
