import Telemetry.Proofs.SortedMap
import Telemetry.Settings.Layer

/-!
What layers leave under a name in a section. The last layer that gives something there, other than
a table, wins, and in it the last place that does. A table or a list may get in its way, and then
there is no text to be read. The section itself must not be given as anything but a table.
-/

namespace Telemetry

theorem getLast?_filterMap_cons {α β : Type} (f : α → Option β) (a : α) (l : List α) :
    ((a :: l).filterMap f).getLast? = (l.filterMap f).getLast?.or (f a) := by
  rw [List.filterMap_cons]
  cases f a with
  | none => simp
  | some b => simp [List.getLast?_cons]

namespace RawSetting

def scalar? : RawSetting → Option RawSetting
  | .table _ => none
  | value => some value

theorem entries_of_scalar? {v value : RawSetting} (h : v.scalar? = some value) :
    v.entries = [] := by
  cases v with
  | table => cases h
  | _ => rfl

def lastNamed? (entries : List (String × RawSetting)) (name : String) : Option RawSetting :=
  (entries.filterMap fun (key, value) =>
    if Text.lower key = name then value.scalar? else none).getLast?

def placed? (group name : String) (value : RawSetting) : List PlaceStep → Option RawSetting
  | [.name first] => if Text.lower first = group then lastNamed? value.entries name else none
  | [.name first, .name second] =>
    if Text.lower first = group ∧ Text.lower second = name then value.scalar? else none
  | _ => none

def isTable : RawSetting → Bool
  | .table _ => true
  | _ => false

theorem isTable_iff {v : RawSetting} : v.isTable = true ↔ ∃ entries, v = .table entries := by
  cases v <;> simp [isTable]

def keepsTable (group : String) (value : RawSetting) : List PlaceStep → Bool
  | [.name first] => Text.lower first != group || value.isTable
  | .name first :: .item _ :: _ => Text.lower first != group
  | _ => true

/-- Under a name stands what is expected, or what has no text. -/
def Shows (v : RawSetting) (name : String) (expected : Option RawSetting) : Prop :=
  SortedMap.get? v.entries name = expected ∨
    ∃ found, SortedMap.get? v.entries name = some found ∧ found.text? = none

@[simp]
theorem get?_store (v value : RawSetting) (name other : String) :
    SortedMap.get? (v.store name value).entries other =
      if other = name then some value else SortedMap.get? v.entries other :=
  SortedMap.get?_insert ..

/-- Laying entries over a value gives the value again or a table. -/
theorem overlayAll_eq (v : RawSetting) (incoming : List (String × RawSetting)) :
    overlayAll v incoming = v ∨ ∃ entries, overlayAll v incoming = .table entries := by
  induction incoming generalizing v with
  | nil => exact .inl rfl
  | cons head rest ih =>
    obtain ⟨key, value⟩ := head
    have htable : ∃ entries, v.overlay key value = .table entries := by
      cases value <;> exact ⟨_, rfl⟩
    obtain ⟨entries, hentries⟩ := htable
    rw [overlayAll, hentries]
    exact .inr ((ih (.table entries)).elim (fun h => ⟨_, h⟩) id)

theorem Shows.overlay {v : RawSetting} {name : String} {expected : Option RawSetting}
    (h : v.Shows name expected) (key : String) (value : RawSetting) :
    (v.overlay key value).Shows name
      ((if Text.lower key = name then value.scalar? else none).or expected) := by
  by_cases hkey : Text.lower key = name
  · cases value with
    | table incoming =>
      have hfound : SortedMap.get? (v.overlay key (.table incoming)).entries name =
          some (overlayAll ((SortedMap.get? v.entries name).getD emptyTable) incoming) := by
        simp [RawSetting.overlay, hkey]
      rcases overlayAll_eq ((SortedMap.get? v.entries name).getD emptyTable) incoming with
        hsame | ⟨entries, htable⟩
      · -- an empty table changes nothing that is there
        cases hv : SortedMap.get? v.entries name with
        | none =>
          rw [hsame, hv] at hfound
          exact .inr ⟨_, hfound, rfl⟩
        | some found =>
          rw [hsame, hv, Option.getD_some, ← hv] at hfound
          simpa [Shows, hfound, scalar?] using h
      · exact .inr ⟨_, hfound, by rw [htable]; rfl⟩
    | _ => exact .inl (by simp [RawSetting.overlay, hkey, scalar?])
  · have hfound : SortedMap.get? (v.overlay key value).entries name =
        SortedMap.get? v.entries name := by
      cases value <;> simp [RawSetting.overlay, Ne.symm hkey]
    rw [if_neg hkey, Option.none_or]
    simpa only [Shows, hfound] using h

theorem Shows.overlayAll {v : RawSetting} {name : String} {expected : Option RawSetting}
    (h : v.Shows name expected) (incoming : List (String × RawSetting)) :
    (overlayAll v incoming).Shows name ((lastNamed? incoming name).or expected) := by
  induction incoming generalizing v expected with
  | nil => exact h
  | cons head rest ih =>
    obtain ⟨key, value⟩ := head
    rw [lastNamed?, getLast?_filterMap_cons, Option.or_assoc]
    exact ih (h.overlay key value)

/-- A place within a value is one of a table or a list. -/
theorem text?_place (value : RawSetting) (step : PlaceStep) (rest : List PlaceStep)
    (v : RawSetting) : (place value (step :: rest) v).text? = none := by
  cases step with
  | name name =>
    cases rest with
    | nil => cases value <;> rfl
    | cons next rest => rfl
  | item index => rfl

theorem exists_table_place (value : RawSetting) (first : String) (rest : List PlaceStep)
    (v : RawSetting) : ∃ entries, place value (.name first :: rest) v = .table entries := by
  cases rest with
  | nil => cases value <;> exact ⟨_, rfl⟩
  | cons next rest => exact ⟨_, rfl⟩

/-- A section is a table if it is there, and it shows what is expected under a name. -/
structure Holds (v : RawSetting) (group name : String) (expected : Option RawSetting) : Prop where
  table : ∀ found, SortedMap.get? v.entries group = some found → ∃ entries, found = .table entries
  shows : ((SortedMap.get? v.entries group).getD emptyTable).Shows name expected

theorem get?_overlay_of_ne (v : RawSetting) {key other : String} (h : Text.lower key ≠ other)
    (value : RawSetting) :
    SortedMap.get? (v.overlay key value).entries other = SortedMap.get? v.entries other := by
  cases value <;> simp [overlay, Ne.symm h]

section Places

variable {v value : RawSetting} {group name : String} {expected : Option RawSetting}

theorem Holds.of_get?_eq {w : RawSetting} (h : v.Holds group name expected)
    (hsame : SortedMap.get? w.entries group = SortedMap.get? v.entries group) :
    w.Holds group name expected :=
  ⟨by rw [hsame]; exact h.table, by rw [hsame]; exact h.shows⟩

theorem Holds.of_get?_eq_table {w : RawSetting} {entries : List (String × RawSetting)}
    (hgroup : SortedMap.get? w.entries group = some (.table entries))
    (hshows : (RawSetting.table entries).Shows name expected) : w.Holds group name expected := by
  refine ⟨fun found hfound => ⟨entries, ?_⟩, by rw [hgroup]; exact hshows⟩
  exact Option.some.inj (hfound.symm.trans hgroup)

/-- A table laid over the section is laid over what is there. -/
theorem Holds.overlay (h : v.Holds group name expected) {key : String}
    (htable : Text.lower key = group → ∃ entries, value = .table entries) :
    (v.overlay key value).Holds group name
      ((placed? group name value [.name key]).or expected) := by
  by_cases hkey : Text.lower key = group
  · obtain ⟨incoming, rfl⟩ := htable hkey
    obtain ⟨old, hold⟩ :
        ∃ old, (SortedMap.get? v.entries group).getD emptyTable = .table old := by
      cases hgroup : SortedMap.get? v.entries group with
      | none => exact ⟨[], rfl⟩
      | some found => exact h.table found hgroup
    have hshows := h.shows.overlayAll incoming
    rw [hold] at hshows
    obtain ⟨entries, hentries⟩ :
        ∃ entries, overlayAll (.table old) incoming = .table entries :=
      (overlayAll_eq (.table old) incoming).elim (fun hsame => ⟨old, hsame⟩) id
    have hgroup : SortedMap.get? (v.overlay key (.table incoming)).entries group =
        some (.table entries) := by
      simp [RawSetting.overlay, hkey, hold, hentries]
    refine .of_get?_eq_table hgroup ?_
    rw [hentries] at hshows
    simpa [placed?, hkey, RawSetting.entries] using hshows
  · simpa [placed?, hkey] using h.of_get?_eq (get?_overlay_of_ne v hkey value)

theorem Shows.place (h : v.Shows name expected) (value : RawSetting) (second : String)
    (more : List PlaceStep) :
    (place value (.name second :: more) v).Shows name
      ((if more = [] ∧ Text.lower second = name then value.scalar? else none).or expected) := by
  cases more with
  | nil =>
    simp only [true_and]
    exact h.overlay second value
  | cons next rest =>
    change (v.store _ (RawSetting.place value (next :: rest) _)).Shows name _
    by_cases hsecond : Text.lower second = name
    · exact .inr ⟨_, by rw [get?_store, if_pos hsecond.symm], text?_place ..⟩
    · simpa [Shows, Ne.symm hsecond] using h

/-- What is placed below the section is placed in it. -/
theorem Holds.store (h : v.Holds group name expected) (first second : String)
    (more : List PlaceStep) :
    (place value (.name first :: .name second :: more) v).Holds group name
      ((placed? group name value (.name first :: .name second :: more)).or expected) := by
  have hgroup : SortedMap.get? (place value (.name first :: .name second :: more) v).entries group =
      if group = Text.lower first then
        some (place value (.name second :: more)
          ((SortedMap.get? v.entries (Text.lower first)).getD .absent))
      else SortedMap.get? v.entries group :=
    get?_store ..
  by_cases hfirst : Text.lower first = group
  · subst hfirst
    rw [if_pos rfl] at hgroup
    have hold : ((SortedMap.get? v.entries (Text.lower first)).getD .absent).Shows name
        expected := by
      have hshows := h.shows
      cases hfound : SortedMap.get? v.entries (Text.lower first) with
      | none =>
        rw [hfound] at hshows
        exact hshows
      | some found => simpa [hfound] using hshows
    obtain ⟨entries, htable⟩ : ∃ entries, place value (.name second :: more)
        ((SortedMap.get? v.entries (Text.lower first)).getD .absent) = .table entries :=
      exists_table_place ..
    have hshows := hold.place value second more
    rw [htable] at hgroup hshows
    refine .of_get?_eq_table hgroup ?_
    cases more with
    | nil => simpa [placed?] using hshows
    | cons next rest => simpa [placed?] using hshows
  · rw [if_neg (Ne.symm hfirst)] at hgroup
    cases more with
    | nil => simpa [placed?, hfirst] using h.of_get?_eq hgroup
    | cons next rest => exact h.of_get?_eq hgroup

/-- A place that keeps the section a table gives what it says. -/
theorem Holds.place {first : String} {rest : List PlaceStep} (h : v.Holds group name expected)
    (hkeeps : keepsTable group value (.name first :: rest) = true) :
    (place value (.name first :: rest) v).Holds group name
      ((placed? group name value (.name first :: rest)).or expected) := by
  match rest, hkeeps with
  | [], htable =>
    refine h.overlay fun hfirst => isTable_iff.mp ?_
    simpa [keepsTable, hfirst] using htable
  | .name second :: more, _ => exact h.store first second more
  | .item index :: more, hkeeps =>
    have hne : Text.lower first ≠ group := by simpa [keepsTable] using hkeeps
    refine h.of_get?_eq ?_
    change SortedMap.get? (v.store _ _).entries group = _
    rw [get?_store, if_neg (Ne.symm hne)]

end Places

end RawSetting

/-- A text of a place starts with a name. -/
theorem PlaceStep.exists_ofText (text : String) :
    ∃ first rest, ofText text = .name first :: rest := by
  unfold ofText
  dsimp only
  split <;> exact ⟨_, _, rfl⟩

namespace Layer

open RawSetting

/-- What a layer gives to a name of a section: of its places the last one that gives something. -/
def given? (layer : Layer) (group name : String) : Option RawSetting :=
  (layer.filterMap fun (spot, value) => placed? group name value (PlaceStep.ofText spot)).getLast?

def Sectioned (layer : Layer) (group : String) : Prop :=
  ∀ entry ∈ layer, keepsTable group entry.2 (PlaceStep.ofText entry.1) = true

instance (layer : Layer) (group : String) : Decidable (layer.Sectioned group) :=
  inferInstanceAs (Decidable (∀ entry ∈ layer, _))

/-- What a layer gives wins over what was there. -/
theorem holds_under {layer : Layer} {v : RawSetting} {group name : String}
    {expected : Option RawSetting} (h : v.Holds group name expected)
    (hsectioned : layer.Sectioned group) :
    (v.under layer).Holds group name ((layer.given? group name).or expected) := by
  induction layer generalizing v expected with
  | nil => exact h
  | cons entry rest ih =>
    obtain ⟨spot, value⟩ := entry
    obtain ⟨first, more, hsteps⟩ := PlaceStep.exists_ofText spot
    obtain ⟨hkeeps, hrest⟩ := List.forall_mem_cons.mp hsectioned
    rw [hsteps] at hkeeps
    have hplaced := h.place hkeeps
    rw [← hsteps] at hplaced
    rw [given?, getLast?_filterMap_cons, Option.or_assoc]
    exact ih hplaced hrest

/-- Of layers laid over each other the last that gives something wins. -/
theorem holds_layers {layers : List Layer} {group : String}
    (hsectioned : ∀ layer ∈ layers, layer.Sectioned group) (name : String) :
    (layers.foldl under emptyTable).Holds group name
      ((layers.filterMap (given? · group name)).getLast?) := by
  have hempty : emptyTable.Holds group name none := ⟨by rintro _ ⟨⟩, .inl rfl⟩
  suffices hfold : ∀ (v : RawSetting) (expected : Option RawSetting), v.Holds group name expected →
      (layers.foldl under v).Holds group name
        ((layers.filterMap (given? · group name)).getLast?.or expected) by
    simpa using hfold emptyTable none hempty
  clear hempty
  induction layers with
  | nil => exact fun v expected h => h
  | cons layer rest ih =>
    intro v expected h
    obtain ⟨hlayer, hrest⟩ := List.forall_mem_cons.mp hsectioned
    rw [getLast?_filterMap_cons, Option.or_assoc]
    exact ih hrest _ _ (holds_under h hlayer)

/-- Layers laid over each other make a table. -/
theorem exists_table (layers : List Layer) :
    ∃ entries, layers.foldl under emptyTable = .table entries := by
  refine List.foldlRecOn (motive := fun v => ∃ entries, v = RawSetting.table entries) layers under
    ⟨[], rfl⟩ fun v hv layer _ => ?_
  refine List.foldlRecOn (motive := fun v => ∃ entries, v = RawSetting.table entries) layer _
    hv fun v _ entry _ => ?_
  obtain ⟨spot, value⟩ := entry
  obtain ⟨first, rest, hsteps⟩ := PlaceStep.exists_ofText spot
  simp only [hsteps]
  exact exists_table_place value first rest v

end Layer

end Telemetry
