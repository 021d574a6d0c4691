import Telemetry.Proofs.Json.Documents
import Telemetry.Schema.Descriptor

/-!
Records as documents. A record that is written as an object is read field by field as it was
written, apart from its tag if it has one. Whatever way a record is written, what is read from
it are parts of its document, and they fit into one level less.
-/

namespace Telemetry.Document

/-! ### Records that are written -/

theorem fieldNames?_ofFields (fields : List (String × Json)) :
    fieldNames? (ofFields fields) = some (fields.map fun field => (field.1, ofJson field.2)) := by
  induction fields with
  | nil => rfl
  | cons field fields ih => simp [ofFields, fieldNames?, ih]

/-- A name stands at most once in a sorted list of fields. -/
theorem filter_name {α : Type} {fields : List (String × α)} (h : SortedMap.Sorted fields)
    (name : String) : fields.filter (·.1 == name) =
      ((SortedMap.get? fields name).map fun value => (name, value)).toList := by
  induction fields with
  | nil => rfl
  | cons field fields ih =>
    obtain ⟨first, value⟩ := field
    have hfirst : ∀ other ∈ fields, compare first other.1 = .lt := (List.pairwise_cons.mp h).1
    by_cases hname : first = name
    · subst hname
      have hothers : fields.filter (·.1 == first) = [] := by
        refine List.filter_eq_nil_iff.mpr fun other hother heq => ?_
        have hlt := hfirst other hother
        rw [eq_of_beq heq] at hlt
        simp at hlt
      simp [SortedMap.get?, hothers]
    · have hne : compare name first ≠ .eq := fun heq =>
        hname (Std.LawfulEqOrd.eq_of_compare heq).symm
      rw [List.filter_cons, if_neg (by simpa using hname), ih h.tail, SortedMap.get?, if_neg hne]

theorem uniqueField?_ofJson {fields : List (String × Json)} (h : SortedMap.Sorted fields)
    (name : String) :
    uniqueField? (fields.map fun field => (field.1, ofJson field.2)) name =
      some ((SortedMap.get? fields name).map ofJson) := by
  have hfilter : (fields.map fun field => (field.1, ofJson field.2)).filter (·.1 == name) =
      (fields.filter (·.1 == name)).map fun field => (field.1, ofJson field.2) := by
    rw [List.filter_map]
    rfl
  rw [uniqueField?, hfilter, filter_name h name]
  cases SortedMap.get? fields name <;> rfl

/-- A record that is written as an object has the fields that are written. -/
theorem record?_ofFields (names : List String) (fields : List (String × Json)) :
    (ofJson (Json.ofFields fields)).record? names =
      some (names.map fun name =>
        (SortedMap.get? (SortedMap.ofList fields) name).map ofJson) := by
  rw [Json.ofFields, ofJson, record?, fieldNames?_ofFields, Option.bind_eq_bind, Option.bind_some]
  induction names with
  | nil => rfl
  | cons name names ih =>
    rw [List.mapM_cons, uniqueField?_ofJson (SortedMap.sorted_ofList fields), ih]
    rfl

/-- A tagged record that is written as an object splits into its tag and what else is written. -/
theorem tagged?_ofFields {tagName : String} (tag : Json) {fields : List (String × Json)}
    (h : ∀ field ∈ fields, field.1 ≠ tagName) :
    (ofJson (Json.ofFields ((tagName, tag) :: fields))).tagged? tagName =
      some (ofJson tag, ofJson (Json.ofFields fields)) := by
  have hget : SortedMap.get? (SortedMap.ofList ((tagName, tag) :: fields)) tagName = some tag := by
    refine SortedMap.get?_ofList_eq_some List.mem_cons_self fun other hother => ?_
    rcases List.mem_cons.mp hother with hother | hother
    · exact congrArg Prod.snd hother
    · exact absurd rfl (h _ hother)
  have hfilter : (ofFields (SortedMap.ofList ((tagName, tag) :: fields))).filter
      (fun field => field.1 != some tagName) = ofFields (SortedMap.ofList fields) := by
    rw [← SortedMap.erase_ofList_cons tag h, ofFields_eq_map, ofFields_eq_map, List.filter_map,
      SortedMap.erase]
    congr 1
    refine List.filter_congr fun field _ => ?_
    rw [Bool.eq_iff_iff]
    simp only [Function.comp_apply, bne_iff_ne, ne_eq, Option.some.injEq,
      Std.LawfulEqCmp.compare_eq_iff_eq]
    exact not_congr eq_comm
  simp [Json.ofFields, ofJson, tagged?, fieldNames?_ofFields,
    uniqueField?_ofJson (SortedMap.sorted_ofList _), hget, hfilter]

/-- An optional bound is read as it was written if each bound is. -/
theorem bound?_ofOption {α : Type} (read? : JsonNumber → Option α) (write : α → JsonNumber)
    (h : ∀ a, read? (write a) = some a) (bound : Option α) :
    bound? read? (some (ofJson (Json.ofOption (fun a => .number (write a)) bound))) =
      some bound := by
  cases bound with
  | none => rfl
  | some a => simp [Json.ofOption, ofJson, bound?, h]

theorem texts?_ofJson (texts : List String) :
    (ofJson (.array (texts.map .string))).texts? = some texts := by
  rw [ofJson, texts?, ofItems_eq_map, List.map_map]
  exact mapM_map_eq_some fun text _ => rfl

/-! ### Records that are read -/

def parts : Document → List Document
  | .array items => items
  | .object fields => fields.map (·.2)
  | _ => []

theorem Canonical.part {document part : Document} (h : document.Canonical)
    (hpart : part ∈ document.parts) : part.Canonical := by
  cases h with
  | array canonical => exact canonical part hpart
  | object canonical =>
    obtain ⟨field, hfield, rfl⟩ := List.mem_map.mp hpart
    exact canonical field hfield
  | _ => cases hpart

structure Fits (depth : Nat) (document : Document) : Prop where
  canonical : document.Canonical
  hasValue : ∃ value, document.valueAt? depth = some value

theorem Fits.part {depth : Nat} {document part : Document} (h : document.Fits depth)
    (hpart : part ∈ document.parts) : ∃ inner, depth = inner + 1 ∧ part.Fits inner := by
  obtain ⟨value, hvalue⟩ := h.hasValue
  have hcanonical := h.canonical.part hpart
  cases document with
  | array items =>
    cases depth with
    | zero => cases hvalue
    | succ depth =>
      obtain ⟨values, hvalues, -⟩ := Option.map_eq_some_iff.mp hvalue
      rw [Nat.add_sub_cancel, valuesAt?_eq_mapM] at hvalues
      obtain ⟨inside, -, hinside⟩ := exists_of_mapM_eq_some hvalues hpart
      exact ⟨depth, rfl, hcanonical, inside, hinside⟩
  | object fields =>
    cases depth with
    | zero => cases hvalue
    | succ depth =>
      obtain ⟨field, hfield, rfl⟩ := List.mem_map.mp hpart
      obtain ⟨values, hvalues, -⟩ := Option.map_eq_some_iff.mp hvalue
      rw [Nat.add_sub_cancel, fieldsAt?_eq_mapM] at hvalues
      obtain ⟨inside, -, hinside⟩ := exists_of_mapM_eq_some hvalues hfield
      obtain ⟨_, -, hnamed⟩ := Option.bind_eq_some_iff.mp hinside
      obtain ⟨value, hvalue, -⟩ := Option.map_eq_some_iff.mp hnamed
      exact ⟨depth, rfl, hcanonical, value, hvalue⟩
  | _ => cases hpart

theorem eq_map_of_fieldNames? {fields : List (Option String × Document)}
    {named : List (String × Document)} (h : fieldNames? fields = some named) :
    fields = named.map fun field => (some field.1, field.2) := by
  induction fields generalizing named with
  | nil =>
    cases h
    rfl
  | cons field fields ih =>
    obtain ⟨name, document⟩ := field
    cases name with
    | none => cases h
    | some name =>
      obtain ⟨rest, hrest, rfl⟩ := Option.map_eq_some_iff.mp h
      rw [ih hrest]
      rfl

theorem mem_parts_of_uniqueField? {fields : List (Option String × Document)}
    {named : List (String × Document)} (hnamed : fieldNames? fields = some named) {name : String}
    {part : Document} (h : uniqueField? named name = some (some part)) :
    part ∈ (Document.object fields).parts := by
  unfold uniqueField? at h
  split at h
  · cases h
  · rename_i first value hfilter
    cases h
    have hmem : (first, part) ∈ named :=
      (List.mem_filter.mp (hfilter ▸ List.mem_singleton_self (first, part))).1
    rw [parts, eq_map_of_fieldNames? hnamed, List.map_map]
    exact List.mem_map.mpr ⟨(first, part), hmem, rfl⟩
  · cases h

/-- The fields of a record are parts of it. -/
theorem mem_parts_of_record? {names : List String} {document part : Document}
    {values : List (Option Document)} (h : document.record? names = some values)
    (hpart : some part ∈ values) : part ∈ document.parts := by
  cases document with
  | object fields =>
    obtain ⟨named, hnamed, h⟩ := Option.bind_eq_some_iff.mp h
    obtain ⟨name, -, hfield⟩ := exists_of_mem_mapM h hpart
    exact mem_parts_of_uniqueField? hnamed hfield
  | array items =>
    rw [record?] at h
    split at h
    · cases h
      rcases List.mem_append.mp hpart with hpart | hpart
      · obtain ⟨item, hitem, heq⟩ := List.mem_map.mp hpart
        cases heq
        exact hitem
      · cases List.eq_of_mem_replicate hpart
    · cases h
  | _ => cases h

/-- So are the tag of a tagged record and what is left of it. -/
theorem mem_parts_of_tagged? {tagName : String} {document tag record : Document}
    (h : document.tagged? tagName = some (tag, record)) :
    tag ∈ document.parts ∧ ∀ part ∈ record.parts, part ∈ document.parts := by
  unfold tagged? at h
  split at h
  · rename_i fields
    obtain ⟨named, hnamed, h⟩ := Option.bind_eq_some_iff.mp h
    obtain ⟨field, hfield, h⟩ := Option.bind_eq_some_iff.mp h
    obtain ⟨value, rfl, h⟩ := Option.bind_eq_some_iff.mp h
    cases h
    refine ⟨mem_parts_of_uniqueField? hnamed hfield, fun part hpart => ?_⟩
    obtain ⟨field, hfield, rfl⟩ := List.mem_map.mp hpart
    exact List.mem_map.mpr ⟨field, (List.mem_filter.mp hfield).1, rfl⟩
  · cases h
    exact ⟨List.mem_cons_self, fun part hpart => List.mem_cons_of_mem _ hpart⟩
  · cases h

/-- What is left of a tagged record without its tag still fits, a level further in. -/
theorem Fits.tagged {depth : Nat} {tagName : String} {document tag record : Document}
    (h : document.Fits (depth + 1)) (htagged : document.tagged? tagName = some (tag, record)) :
    ∀ part ∈ record.parts, part.Fits depth := by
  intro part hpart
  obtain ⟨inner, hinner, hfits⟩ := h.part ((mem_parts_of_tagged? htagged).2 part hpart)
  cases hinner
  exact hfits

end Telemetry.Document
