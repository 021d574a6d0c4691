import Telemetry.Settings.Variables
import Telemetry.Toml.Document

/-!
Loading settings. The defaults come first, then a file, then the environment; a second file may
be laid over the result, and the environment again over that. Each later source wins.
-/

namespace Telemetry.Settings

/-- The settings of the defaults, a file if one is named and the environment. A file that is named
has to be there: its text is absent otherwise. -/
def load? (environment : List (String × String)) (file : Option (Option String)) :
    Option Settings := do
  let defaults ← layer? {}
  let fromFile ← match file with
    | some text => text.bind Toml.ofText?
    | none => some []
  ofLayers? [defaults, fromFile, Variables.layer environment]

/-- The settings with a file and then the environment laid over them. -/
def override? (s : Settings) (environment : List (String × String)) (file : String) :
    Option Settings := do
  ofLayers? [← s.layer?, ← Toml.ofText? file, Variables.layer environment]

end Telemetry.Settings
