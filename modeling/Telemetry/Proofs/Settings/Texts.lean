import Telemetry.Proofs.Except
import Telemetry.Proofs.Settings.Variables
import Telemetry.Settings.Load

/-!
The settings that are texts. Each is the text of the highest layer that gives one, as it was spelled
there, with one exception: the text of a variable is printed anew if it is a flag, an integer or a
number.
-/

namespace Telemetry

inductive TextSetting where
  | target
  | stateContainer
  | configContainer

namespace TextSetting

def group : TextSetting → String
  | target => "server"
  | stateContainer => "set"
  | configContainer => "set"

def name : TextSetting → String
  | target => "target"
  | stateContainer => "state_container"
  | configContainer => "config_container"

def value (setting : TextSetting) (s : Settings) : String :=
  match setting with
  | target => s.server.target
  | stateContainer => s.set.stateContainer
  | configContainer => s.set.configContainer

def spot (setting : TextSetting) : String :=
  setting.group ++ "." ++ setting.name

theorem steps_spot (setting : TextSetting) :
    PlaceStep.ofText setting.spot = [.name setting.group, .name setting.name] := by
  cases setting <;> decide

theorem lower_group (setting : TextSetting) : Text.lower setting.group = setting.group := by
  cases setting <;> decide

theorem lower_name (setting : TextSetting) : Text.lower setting.name = setting.name := by
  cases setting <;> decide

end TextSetting

/-! ### Settings as a layer -/

namespace RawSetting

theorem ofFields?_eq_mapM (fields : List (String × Json)) :
    ofFields? fields = fields.mapM fun (name, value) => (ofJson? value).map (name, ·) := by
  induction fields with
  | nil => rfl
  | cons field rest ih =>
    obtain ⟨name, value⟩ := field
    rw [ofFields?, List.mapM_cons, ← ih]
    cases hvalue : ofJson? value <;> cases ofFields? rest <;> simp [hvalue]

section Fields

variable {fields : List (String × Json)} {entries : List (String × RawSetting)}

theorem exists_mem_of_mem_fields (h : ofFields? fields = some entries) {name : String}
    {value : Json} (hmem : (name, value) ∈ fields) :
    ∃ item, ofJson? value = some item ∧ (name, item) ∈ entries := by
  rw [ofFields?_eq_mapM] at h
  obtain ⟨entry, hentry, hread⟩ := exists_of_mapM_eq_some h hmem
  obtain ⟨item, hitem, rfl⟩ := Option.map_eq_some_iff.mp hread
  exact ⟨item, hitem, hentry⟩

theorem exists_mem_of_ofFields? (h : ofFields? fields = some entries) {name : String}
    {item : RawSetting} (hmem : (name, item) ∈ entries) :
    ∃ value, (name, value) ∈ fields ∧ ofJson? value = some item := by
  rw [ofFields?_eq_mapM] at h
  obtain ⟨field, hfield, hread⟩ := exists_of_mem_mapM h hmem
  obtain ⟨_, hitem, hentry⟩ := Option.map_eq_some_iff.mp hread
  cases hentry
  exact ⟨field.2, hfield, hitem⟩

/-- A function that knows only one name of an object gives of the entries what it gives there. -/
theorem getLast?_of_ofFields? {β : Type} (f : String → RawSetting → Option β) {name : String}
    {item : RawSetting} {found : β} (hsorted : SortedMap.Sorted fields)
    (h : ofFields? fields = some entries) (hmem : (name, item) ∈ entries)
    (hfound : f name item = some found)
    (hother : ∀ other ∈ fields, other.1 ≠ name → ∀ item, f other.1 item = none) :
    (entries.filterMap fun (name, value) => f name value).getLast? = some found := by
  obtain ⟨value, hvalue, hitem⟩ := exists_mem_of_ofFields? h hmem
  have hall : ∀ b ∈ entries.filterMap fun (name, value) => f name value, b = found := by
    intro b hb
    obtain ⟨⟨key, other⟩, hkey, hgives⟩ := List.mem_filterMap.mp hb
    obtain ⟨json, hjson, hread⟩ := exists_mem_of_ofFields? h hkey
    by_cases hname : key = name
    · subst hname
      have hsame := (SortedMap.get?_eq_some_of_mem hsorted hvalue).symm.trans
        (SortedMap.get?_eq_some_of_mem hsorted hjson)
      cases Option.some.inj hsame
      cases Option.some.inj (hitem.symm.trans hread)
      exact Option.some.inj (hgives.symm.trans hfound)
    · cases (hother _ hjson hname other).symm.trans hgives
  have hgiven : found ∈ entries.filterMap fun (name, value) => f name value :=
    List.mem_filterMap.mpr ⟨_, hmem, hfound⟩
  rw [List.getLast?_eq_some_getLast (List.ne_nil_of_mem hgiven)]
  exact congrArg some (hall _ (List.getLast_mem _))

end Fields

end RawSetting

def TextSetting.fields (setting : TextSetting) (s : Settings) : List (String × Json) :=
  match setting with
  | target => s.server.fields
  | stateContainer => s.set.fields
  | configContainer => s.set.fields

namespace Settings

variable {s : Settings}

theorem mem_sections (setting : TextSetting) (s : Settings) :
    (setting.group, setting.fields s) ∈ s.sections := by
  cases setting <;> simp [TextSetting.group, TextSetting.fields, sections]

theorem mem_fields (setting : TextSetting) (s : Settings) :
    (setting.name, Json.string (setting.value s)) ∈ setting.fields s := by
  cases setting <;> simp [TextSetting.name, TextSetting.value, TextSetting.fields,
    ServerSettings.fields, SetSettings.fields]

def names (s : Settings) : List (String × List String) :=
  s.sections.map fun (label, fields) => (label, fields.map (·.1))

/-- Names do not depend on the settings. -/
theorem names_eq (s : Settings) : s.names = ({} : Settings).names :=
  rfl

theorem nodup_names (s : Settings) :
    (s.names.map (·.1)).Nodup ∧ ∀ entry ∈ s.names, entry.2.Nodup := by
  rw [names_eq]
  decide +kernel

/-- Names have no upper case letters, and those of sections are not places within one. -/
theorem plain_names (s : Settings) : ∀ entry ∈ s.names, Text.lower entry.1 = entry.1 ∧
    PlaceStep.ofText entry.1 = [.name entry.1] ∧ ∀ name ∈ entry.2, Text.lower name = name := by
  rw [names_eq]
  decide +kernel

theorem mem_names {label : String} {fields : List (String × Json)}
    (h : (label, fields) ∈ s.sections) : (label, fields.map (·.1)) ∈ s.names :=
  List.mem_map.mpr ⟨_, h, rfl⟩

/-- What a section of a layer of settings gives. -/
theorem lastNamed?_section {setting : TextSetting} {below : List (String × RawSetting)}
    (h : RawSetting.ofFields? (SortedMap.ofList (setting.fields s)) = some below) :
    RawSetting.lastNamed? below setting.name = some (.text (setting.value s)) := by
  have hsection := mem_names (mem_sections setting s)
  have hlower : ∀ field ∈ setting.fields s, Text.lower field.1 = field.1 := fun field hfield =>
    (plain_names s _ hsection).2.2 _ (List.mem_map.mpr ⟨field, hfield, rfl⟩)
  have hfield := SortedMap.mem_ofList ((nodup_names s).2 _ hsection) (mem_fields setting s)
  obtain ⟨item, hitem, hmem⟩ := RawSetting.exists_mem_of_mem_fields h hfield
  cases hitem
  refine RawSetting.getLast?_of_ofFields? (fun key value =>
    if Text.lower key = setting.name then value.scalar? else none) (SortedMap.sorted_ofList _) h
    hmem ?_ ?_
  · exact if_pos (hlower _ (mem_fields setting s))
  · intro other hother hne item
    exact if_neg (by rwa [hlower other (SortedMap.mem_of_mem_ofList hother)])

/-- Settings as a layer give their texts. -/
theorem given?_layer? {layer : Layer} (h : s.layer? = some layer) (setting : TextSetting) :
    layer.given? setting.group setting.name = some (.text (setting.value s)) := by
  obtain ⟨raw, hraw, rfl⟩ := Option.map_eq_some_iff.mp h
  obtain ⟨entries, hentries, rfl⟩ := Option.map_eq_some_iff.mp hraw
  have hlabels : ((s.sections.map fun (label, fields) => (label, Json.ofFields fields)).map
      (·.1)).Nodup := (nodup_names s).1
  have hsection := SortedMap.mem_ofList hlabels
    (List.mem_map.mpr ⟨_, mem_sections setting s, rfl⟩)
  obtain ⟨table, htable, hmem⟩ := RawSetting.exists_mem_of_mem_fields hentries hsection
  obtain ⟨below, hbelow, rfl⟩ := Option.map_eq_some_iff.mp htable
  have hplaced : ∀ label fields value, (label, fields) ∈ s.sections →
      RawSetting.placed? setting.group setting.name value (PlaceStep.ofText label) =
        if label = setting.group then RawSetting.lastNamed? value.entries setting.name
        else none := by
    intro label fields value hlisted
    obtain ⟨hlower, hsteps, -⟩ := plain_names s _ (mem_names hlisted)
    simp only at hlower hsteps
    rw [hsteps, RawSetting.placed?, hlower]
  refine RawSetting.getLast?_of_ofFields? (fun spot value => RawSetting.placed? setting.group
    setting.name value (PlaceStep.ofText spot)) (SortedMap.sorted_ofList _) hentries hmem ?_ ?_
  · rw [hplaced _ _ _ (mem_sections setting s), if_pos rfl]
    exact lastNamed?_section hbelow
  · intro other hother hne item
    obtain ⟨⟨label, fields⟩, hlisted, rfl⟩ :=
      List.mem_map.mp (SortedMap.mem_of_mem_ofList hother)
    rw [hplaced _ _ _ hlisted, if_neg hne]

/-- They give each section as a table. -/
theorem sectioned_layer? {layer : Layer} (h : s.layer? = some layer) (group : String) :
    layer.Sectioned group := by
  obtain ⟨raw, hraw, rfl⟩ := Option.map_eq_some_iff.mp h
  obtain ⟨entries, hentries, rfl⟩ := Option.map_eq_some_iff.mp hraw
  rintro ⟨label, value⟩ hmem
  obtain ⟨json, hjson, hvalue⟩ := RawSetting.exists_mem_of_ofFields? hentries hmem
  obtain ⟨⟨_, fields⟩, hsection, hfield⟩ := List.mem_map.mp (SortedMap.mem_of_mem_ofList hjson)
  cases hfield
  obtain ⟨below, -, rfl⟩ := Option.map_eq_some_iff.mp hvalue
  obtain ⟨-, hsteps, -⟩ := plain_names s _ (mem_names hsection)
  simp only at hsteps
  rw [hsteps]
  exact Bool.or_true _

end Settings

/-! ### Reading the settings -/

namespace RawSetting

def textAt? (v : RawSetting) (name default : String) : Option String :=
  (SortedMap.get? v.entries name).elim (some default) text?

theorem Shows.textAt? {v : RawSetting} {name default text : String}
    {expected : Option RawSetting} (h : v.Shows name expected)
    (htext : v.textAt? name default = some text) :
    expected.elim (some default) text? = some text := by
  rcases h with hsame | ⟨found, hfound, hnone⟩
  · rwa [RawSetting.textAt?, hsame] at htext
  · rw [RawSetting.textAt?, hfound, Option.elim_some, hnone] at htext
    cases htext

theorem read_text (entries : List (String × RawSetting)) (index : Nat) (name default : String) :
    (SectionValues.named entries).read index name default text? =
      (table entries).textAt? name default := by
  simp only [SectionValues.read, SectionValues.find?, textAt?, RawSetting.entries]
  cases SortedMap.get? entries name <;> rfl

theorem textAt?_of_server? {entries : List (String × RawSetting)} {s : ServerSettings}
    (h : ValueReader.raw.server? (.table entries) = some s) :
    (table entries).textAt? "target" ({} : ServerSettings).target = some s.target := by
  simp only [ValueReader.server?, Option.bind_eq_some_iff, Option.bind_eq_bind] at h
  obtain ⟨_, hvalues, _, -, target, htarget, _, -, _, -, _, -, _, -, _, -, _, -, _, -, hs⟩ := h
  cases hvalues
  cases hs
  rwa [← read_text]

theorem textAt?_of_set? {entries : List (String × RawSetting)} {s : SetSettings}
    (h : ValueReader.raw.set? (.table entries) = some s) :
    (table entries).textAt? "state_container" ({} : SetSettings).stateContainer =
        some s.stateContainer ∧
      (table entries).textAt? "config_container" ({} : SetSettings).configContainer =
        some s.configContainer := by
  simp only [ValueReader.set?, Option.bind_eq_some_iff, Option.bind_eq_bind] at h
  obtain ⟨_, hvalues, _, -, state, hstate, config, hconfig, hs⟩ := h
  cases hvalues
  cases hs
  exact ⟨by rwa [← read_text], by rwa [← read_text]⟩

/-- A section of a table is read, or has its defaults if it is not there. -/
theorem section_of_read {entries : List (String × RawSetting)} {index : Nat} {group : String}
    {α : Type} {default value : α} {read? : RawSetting → Option α}
    (h : (SectionValues.named entries).read index group default read? = some value)
    (htable : ∀ found, SortedMap.get? entries group = some found → ∃ below, found = .table below) :
    (SortedMap.get? entries group = none ∧ value = default) ∨
      ∃ below, SortedMap.get? entries group = some (.table below) ∧
        read? (.table below) = some value := by
  simp only [SectionValues.read, SectionValues.find?] at h
  cases hgroup : SortedMap.get? entries group with
  | none =>
    rw [hgroup] at h
    exact .inl ⟨rfl, (Option.some.inj h).symm⟩
  | some found =>
    obtain ⟨below, rfl⟩ := htable found hgroup
    rw [hgroup] at h
    exact .inr ⟨below, rfl, h⟩

theorem textAt?_of_settings? {entries : List (String × RawSetting)} {s : Settings}
    (h : ValueReader.raw.settings? (.table entries) = some s) (setting : TextSetting)
    (htable : ∀ found, SortedMap.get? entries setting.group = some found →
      ∃ below, found = .table below) :
    ((SortedMap.get? entries setting.group).getD emptyTable).textAt? setting.name
      (setting.value {}) = some (setting.value s) := by
  simp only [ValueReader.settings?, Option.bind_eq_some_iff, Option.bind_eq_bind] at h
  obtain ⟨_, hvalues, server, hserver, _, -, _, -, set, hset, _, -, hs⟩ := h
  cases hvalues
  cases hs
  cases setting
  all_goals simp only [TextSetting.group, TextSetting.name, TextSetting.value] at htable ⊢
  · rcases section_of_read hserver htable with ⟨hnone, rfl⟩ | ⟨below, hbelow, hread⟩
    · rw [hnone]
      rfl
    · rw [hbelow]
      exact textAt?_of_server? hread
  · rcases section_of_read hset htable with ⟨hnone, rfl⟩ | ⟨below, hbelow, hread⟩
    · rw [hnone]
      rfl
    · rw [hbelow]
      exact (textAt?_of_set? hread).1
  · rcases section_of_read hset htable with ⟨hnone, rfl⟩ | ⟨below, hbelow, hread⟩
    · rw [hnone]
      rfl
    · rw [hbelow]
      exact (textAt?_of_set? hread).2

end RawSetting

namespace Settings

/-- A text setting read from layers is the text that the highest of them gives, or the default. -/
theorem value_of_ofLayers? {layers : List Layer} {s : Settings} (h : ofLayers? layers = some s)
    (setting : TextSetting) (hsectioned : ∀ layer ∈ layers, layer.Sectioned setting.group) :
    ((layers.filterMap (·.given? setting.group setting.name)).getLast?).elim
      (some (setting.value {})) RawSetting.text? = some (setting.value s) := by
  obtain ⟨entries, htable⟩ := Layer.exists_table layers
  have hholds := Layer.holds_layers hsectioned setting.name
  rw [ofLayers?, htable] at h
  rw [htable] at hholds
  exact hholds.shows.textAt? (RawSetting.textAt?_of_settings? h setting hholds.table)

/-- The layer of a file; one that is not there or cannot be read gives nothing. -/
def fileLayer (file : Option String) : Layer :=
  (file.bind Toml.ofText?).getD []

theorem ofLayers?_of_load? {environment : List (String × String)} {file : Option (Option String)}
    {s : Settings} (h : load? environment file = some s) :
    ∃ defaults, layer? {} = some defaults ∧
      ofLayers? [defaults, fileLayer file.join, Variables.layer environment] = some s := by
  unfold load? at h
  obtain ⟨defaults, hdefaults, h⟩ := Option.bind_eq_some_iff.mp h
  refine ⟨defaults, hdefaults, ?_⟩
  cases file with
  | none => exact h
  | some text =>
    obtain ⟨fromFile, hfile, h⟩ := Option.bind_eq_some_iff.mp h
    rw [fileLayer, Option.join_some, hfile]
    exact h

theorem ofLayers?_of_override? {s after : Settings} {environment : List (String × String)}
    {file : String} (h : s.override? environment file = some after) :
    ∃ base, s.layer? = some base ∧
      ofLayers? [base, fileLayer (some file), Variables.layer environment] = some after := by
  obtain ⟨base, hbase, h⟩ := Option.bind_eq_some_iff.mp h
  obtain ⟨fromFile, hfile, h⟩ := Option.bind_eq_some_iff.mp h
  refine ⟨base, hbase, ?_⟩
  rw [fileLayer, Option.bind_some, hfile]
  exact h

/-- Over some settings a variable wins, printed anew, then the file, then the settings. -/
theorem value_over {base : Settings} {baseLayer file : Layer}
    {environment : List (String × String)} {s : Settings} (hbase : base.layer? = some baseLayer)
    (h : ofLayers? [baseLayer, file, Variables.layer environment] = some s)
    (setting : TextSetting) (hfile : file.Sectioned setting.group)
    (henvironment : (Variables.layer environment).Sectioned setting.group) :
    (((Variables.text? environment setting.spot).map Variables.valueOf).or
      (file.given? setting.group setting.name)).elim (some (setting.value base))
        RawSetting.text? = some (setting.value s) := by
  have hsectioned : ∀ layer ∈ [baseLayer, file, Variables.layer environment],
      layer.Sectioned setting.group := by
    simp only [List.forall_mem_cons, List.not_mem_nil, false_implies, implies_true, and_true]
    exact ⟨sectioned_layer? hbase _, hfile, henvironment⟩
  have hvalue := value_of_ofLayers? h setting hsectioned
  have hvariables : (Variables.layer environment).given? setting.group setting.name =
      (Variables.text? environment setting.spot).map Variables.valueOf :=
    Variables.given?_layer setting.steps_spot setting.lower_group setting.lower_name environment
  simp only [getLast?_filterMap_cons, List.filterMap_nil, List.getLast?_nil, Option.none_or,
    given?_layer? hbase setting, hvariables] at hvalue
  rw [← hvalue]
  generalize ((Variables.text? environment setting.spot).map Variables.valueOf).or
    (file.given? setting.group setting.name) = found
  cases found <;> rfl

end Settings

namespace TextSetting

/-- The text of the highest layer that gives the setting one: a variable, the last of some files
that does, or what the setting is without them. -/
def highest? (setting : TextSetting) (environment : List (String × String)) (files : List Layer)
    (default : String) : Option String :=
  (Variables.text? environment setting.spot).or
    ((files.filterMap (·.given? setting.group setting.name)).getLast?.elim (some default)
      RawSetting.text?)

/-- No file and no variable gives the section of the setting as anything but a table. -/
structure Sectioned (setting : TextSetting) (environment : List (String × String))
    (files : List Layer) : Prop where
  files : ∀ file ∈ files, file.Sectioned setting.group
  environment : (Variables.layer environment).Sectioned setting.group

section Highest

variable {setting : TextSetting} {environment : List (String × String)}

/-- A lower file decides where no variable and no upper file do. -/
theorem highest?_cons {lower upper : Layer} {default text : String}
    (h : Variables.text? environment setting.spot = none →
      some text = setting.highest? environment [lower] default) :
    setting.highest? environment [lower, upper] default =
      setting.highest? environment [upper] text := by
  unfold highest? at h ⊢
  cases hvariable : Variables.text? environment setting.spot with
  | some variableText => rfl
  | none =>
    simp only [hvariable, Option.none_or, getLast?_filterMap_cons, List.filterMap_nil,
      List.getLast?_nil] at h ⊢
    cases upper.given? setting.group setting.name with
    | some raw => rfl
    | none => exact (h trivial).symm

/-- A file and variables over some settings give the highest text, just if that of a variable is
kept. -/
theorem over_is_highest_iff {base s : Settings} {baseLayer file : Layer}
    (hbase : base.layer? = some baseLayer)
    (h : Settings.ofLayers? [baseLayer, file, Variables.layer environment] = some s)
    (hsectioned : setting.Sectioned environment [file]) :
    some (setting.value s) = setting.highest? environment [file] (setting.value base) ↔
      Variables.Keeps environment setting.spot := by
  have hvalue := Settings.value_over hbase h setting (hsectioned.files _ List.mem_cons_self)
    hsectioned.environment
  rw [highest?]
  cases hvariable : Variables.text? environment setting.spot with
  | some text =>
    rw [hvariable] at hvalue
    have hprinted : (Variables.valueOf text).text? = some (setting.value s) := hvalue
    rw [← hprinted, Option.some_or]
    exact (Variables.text?_valueOf_iff_kept text).trans
      (Variables.keeps_iff_kept hvariable).symm
  | none =>
    rw [hvariable, Option.map_none, Option.none_or] at hvalue
    refine iff_of_true ?_ (Variables.keeps_of_none hvariable)
    rw [← hvalue, Option.none_or, getLast?_filterMap_cons]
    rfl

/-- Loading settings and laying a file over them gives each text setting the text of the highest
layer that gives one, just if the text of a variable that sets it is kept. So does laying a file
over any settings. -/
theorem value_is_highest_iff (setting : TextSetting) (environment : List (String × String))
    (file : Option (Option String)) (overriding : String)
    (hsectioned : setting.Sectioned environment
      [Settings.fileLayer file.join, Settings.fileLayer (some overriding)]) :
    (∀ s after, Settings.load? environment file = some s →
      s.override? environment overriding = some after →
        (some (setting.value after) = setting.highest? environment
          [Settings.fileLayer file.join, Settings.fileLayer (some overriding)]
            (setting.value {}) ↔
          Variables.Keeps environment setting.spot)) ∧
    ∀ base after, base.override? environment overriding = some after →
      (some (setting.value after) = setting.highest? environment
        [Settings.fileLayer (some overriding)] (setting.value base) ↔
          Variables.Keeps environment setting.spot) := by
  have hupper : setting.Sectioned environment [Settings.fileLayer (some overriding)] :=
    ⟨fun layer hlayer => hsectioned.files layer (List.mem_cons_of_mem _ hlayer),
      hsectioned.environment⟩
  have hlower : setting.Sectioned environment [Settings.fileLayer file.join] := by
    refine ⟨?_, hsectioned.environment⟩
    simpa using hsectioned.files _ List.mem_cons_self
  have hoverride : ∀ base after, base.override? environment overriding = some after →
      (some (setting.value after) = setting.highest? environment
        [Settings.fileLayer (some overriding)] (setting.value base) ↔
          Variables.Keeps environment setting.spot) := by
    intro base after h
    obtain ⟨baseLayer, hbase, h⟩ := Settings.ofLayers?_of_override? h
    exact over_is_highest_iff hbase h hupper
  refine ⟨?_, hoverride⟩
  intro s after hload h
  obtain ⟨defaults, hdefaults, hload⟩ := Settings.ofLayers?_of_load? hload
  rw [highest?_cons fun hnone =>
    (over_is_highest_iff hdefaults hload hlower).mpr (Variables.keeps_of_none hnone)]
  exact hoverride s after h

end Highest

/-- A variable wins over the file that is laid over the settings. -/
theorem target_is_highest_from_variable :
    ∃ s after,
      Settings.load? [("COLLECTOR__SERVER__TARGET", "dut")] none = some s ∧
      s.override? [("COLLECTOR__SERVER__TARGET", "dut")] "[server]\ntarget = \"007\"\n" =
        some after ∧
      some after.server.target = target.highest? [("COLLECTOR__SERVER__TARGET", "dut")]
        [Settings.fileLayer none, Settings.fileLayer (some "[server]\ntarget = \"007\"\n")]
        "target" ∧
      after.server.target = "dut" := by
  have hsectioned : target.Sectioned [("COLLECTOR__SERVER__TARGET", "dut")]
      [Settings.fileLayer none, Settings.fileLayer (some "[server]\ntarget = \"007\"\n")] :=
    ⟨by decide +kernel, by decide +kernel⟩
  have hload : Settings.load? [("COLLECTOR__SERVER__TARGET", "dut")] none =
      some { server := { target := "dut" } } := by decide +kernel
  have hoverride : Settings.override? { server := { target := "dut" } }
      [("COLLECTOR__SERVER__TARGET", "dut")] "[server]\ntarget = \"007\"\n" =
        some { server := { target := "dut" } } := by decide +kernel
  have hkeeps : Variables.Keeps [("COLLECTOR__SERVER__TARGET", "dut")] target.spot :=
    (Variables.keeps_iff_kept (by decide +kernel)).mpr (by decide +kernel : Variables.Kept "dut")
  exact ⟨_, _, hload, hoverride,
    ((value_is_highest_iff target _ none _ hsectioned).1 _ _ hload hoverride).mpr hkeeps, rfl⟩

/-- A variable that spells a number is printed anew: the target `007` becomes `7`. -/
theorem target_is_not_highest :
    ¬∀ (setting : TextSetting) (environment : List (String × String))
      (file : Option (Option String)) (overriding : String) (s after : Settings),
      Settings.load? environment file = some s →
        s.override? environment overriding = some after →
          some (setting.value after) = setting.highest? environment
            [Settings.fileLayer file.join, Settings.fileLayer (some overriding)]
              (setting.value {}) := by
  intro h
  have hload : Settings.load? [("COLLECTOR__SERVER__TARGET", "007")] none =
      some { server := { target := "7" } } := by decide +kernel
  have hoverride : Settings.override? { server := { target := "7" } }
      [("COLLECTOR__SERVER__TARGET", "007")] "[server]\ntarget = \"from-file\"\n" =
        some { server := { target := "7" } } := by decide +kernel
  exact absurd (h target _ none _ _ _ hload hoverride) (by decide +kernel)

end TextSetting

end Telemetry
