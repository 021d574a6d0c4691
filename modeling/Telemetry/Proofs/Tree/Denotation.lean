import Telemetry.Proofs.Except
import Telemetry.Proofs.Path.Identity
import Telemetry.Proofs.Tree.LeafEdit
import Telemetry.Proofs.Tree.Shape
import Telemetry.Tree.Merge

/-!
What values denote: the leaves that a value stands for at a path, in the order in which they
are written. A JSON object stands for the leaves of its fields, without the key fields of a
list entry; an array for those of its items, each below the entry of its own keys. None of this
looks at a tree. Places are for messages only, so conversions succeed alike at all of them.
-/

namespace Telemetry

namespace LeafValue

def IsFinite : LeafValue → Prop
  | .double d => d.isFinite = true
  | _ => True

def ofJson? (type : LeafType) (value : Json) : Option LeafValue :=
  (ofJson type value "").toOption

def ofTyped? (type : LeafType) (value : TypedValue) : Option LeafValue :=
  (ofTyped type value "").toOption

theorem ofDouble_eq_ok {place : String} {d : Binary64} {value : LeafValue} :
    ofDouble place d = .ok value ↔ d.isFinite = true ∧ value = .double d := by
  unfold ofDouble
  by_cases h : d.isFinite = true
  · simpa [h] using eq_comm
  · simp [h]

private theorem toOption_ofDouble (place : String) (d : Binary64) :
    (ofDouble place d).toOption = (ofDouble "" d).toOption := by
  unfold ofDouble
  split <;> rfl

theorem toOption_ofJson (type : LeafType) (value : Json) (place : String) :
    (ofJson type value place).toOption = ofJson? type value := by
  unfold ofJson? ofJson
  split <;> simp only
  all_goals first
    | rfl
    | exact toOption_ofDouble place _
    | (split <;> first | rfl | exact toOption_ofDouble place _)

private theorem toOption_ofBytes (bytes : List UInt8) (place : String) :
    (Json.ofBytes bytes place).toOption = (Json.ofBytes bytes "").toOption := by
  unfold Json.ofBytes
  split <;> rfl

theorem toOption_ofTyped (type : LeafType) (value : TypedValue) (place : String) :
    (ofTyped type value place).toOption = ofTyped? type value := by
  unfold ofTyped? ofTyped
  split
  case h_2 | h_3 => simp only [toOption_bind, toOption_ofBytes _ place, toOption_ofJson]
  case h_13 | h_14 => exact toOption_ofDouble place _
  case h_10 | h_12 => split <;> rfl
  all_goals rfl

/-- The only way to a double leaf is through the check. -/
theorem isFinite_of_ofJson {type : LeafType} {value : Json} {place : String} {leaf : LeafValue}
    (h : ofJson type value place = .ok leaf) : leaf.IsFinite := by
  cases leaf with
  | double d =>
    unfold ofJson at h
    split at h
    case h_9 | h_10 => grind [ofDouble_eq_ok, IsFinite]
    all_goals grind [Option.map_eq_some_iff]
  | _ => trivial

theorem isFinite_of_ofTyped {type : LeafType} {value : TypedValue} {place : String}
    {leaf : LeafValue} (h : ofTyped type value place = .ok leaf) : leaf.IsFinite := by
  cases leaf with
  | double d =>
    unfold ofTyped at h
    split at h
    case h_2 | h_3 =>
      obtain ⟨json, _, h⟩ := bind_eq_ok.mp h
      exact isFinite_of_ofJson h
    all_goals grind [ofDouble_eq_ok, IsFinite]
  | _ => trivial

end LeafValue

namespace TypedValue

def json? (value : TypedValue) : Option Json :=
  (Json.ofTyped value "").toOption

theorem toOption_ofTyped (value : TypedValue) (place : String) :
    (Json.ofTyped value place).toOption = value.json? := by
  unfold json? Json.ofTyped
  split
  case h_1 | h_2 =>
    unfold Json.ofBytes
    split <;> rfl
  all_goals rfl

end TypedValue

def entryKeys? (fields : List (String × Json)) (names : List String) : Option Keys :=
  (entryKeys "" fields names).toOption.map SortedMap.ofList

theorem toOption_keyText (value : Json) (place : String) :
    (value.keyText place).toOption = (value.keyText "").toOption := by
  unfold Json.keyText
  split <;> rfl

theorem toOption_entryKeys (place : String) (fields : List (String × Json))
    (names : List String) :
    (entryKeys place fields names).toOption = (entryKeys "" fields names).toOption := by
  induction names with
  | nil => rfl
  | cons key rest ih =>
    unfold entryKeys
    cases fields.find? fun field => localName field.1 == key with
    | none => rfl
    | some field => simp only [toOption_bind, toOption_keyText _ place, ih]

theorem entryKeys?_of_eq_ok {place : String} {fields : List (String × Json)}
    {names : List String} {pairs : Keys} (h : entryKeys place fields names = .ok pairs) :
    entryKeys? fields names = some (SortedMap.ofList pairs) := by
  rw [entryKeys?, ← toOption_entryKeys place, h]
  rfl

theorem entryKeys?_of_eq_error {place : String} {fields : List (String × Json)}
    {names : List String} {e : TreeError} (h : entryKeys place fields names = .error e) :
    entryKeys? fields names = none := by
  rw [entryKeys?, ← toOption_entryKeys place, h]
  rfl

namespace Assignments

/-- The values are finite and the keys on the way to them are in order. -/
def WellFormed (leaves : Assignments) : Prop :=
  ∀ leaf ∈ leaves, Path.KeysOrdered leaf.1 ∧ leaf.2.IsFinite

theorem wellFormed_nil : WellFormed [] := by
  intro leaf hleaf
  cases hleaf

theorem wellFormed_singleton {elems : List PathElem} {value : LeafValue}
    (helems : Path.KeysOrdered elems) (hvalue : value.IsFinite) :
    WellFormed [(elems, value)] := by
  intro leaf hleaf
  rw [List.mem_singleton.mp hleaf]
  exact ⟨helems, hvalue⟩

theorem WellFormed.append {first second : Assignments} (hfirst : first.WellFormed)
    (hsecond : second.WellFormed) : WellFormed (first ++ second) := by
  intro leaf hleaf
  rcases List.mem_append.mp hleaf with hleaf | hleaf
  · exact hfirst leaf hleaf
  · exact hsecond leaf hleaf

theorem WellFormed.nest {leaves : Assignments} (h : leaves.WellFormed) {base : List PathElem}
    (hbase : Path.KeysOrdered base) : (leaves.nest base).WellFormed := by
  intro leaf hleaf
  obtain ⟨inner, hinner, rfl⟩ := List.mem_map.mp hleaf
  exact ⟨hbase.append (h inner hinner).1, (h inner hinner).2⟩

end Assignments

def LeafMap.WellFormed (m : LeafMap) : Prop :=
  ∀ elems value, m elems = some value → Path.KeysOrdered elems ∧ value.IsFinite

namespace Json

mutual

def placeLeaves? : Json → SchemaNode → Option Assignments
  | .object fields, schema => fieldLeaves? fields schema
  | _, _ => none

def fieldLeaves? : List (String × Json) → SchemaNode → Option Assignments
  | [], _ => some []
  | (raw, value) :: rest, schema =>
    let name := localName raw
    let first : Option Assignments :=
      if name ∈ schema.keyNames then some []
      else
        match schema.child? name with
        | none => none
        | some (.leaf leafSchema) =>
          (LeafValue.ofJson? leafSchema.type value).map fun leaf => [([PathElem.plain name], leaf)]
        | some (.container children) =>
          (placeLeaves? value (.container children)).map (.nest [PathElem.plain name])
        | some (.list keys max children) => listLeaves? value (.list keys max children) name
    first.bind fun leaves => (fieldLeaves? rest schema).map (leaves ++ ·)

def listLeaves? : Json → SchemaNode → String → Option Assignments
  | .array items, schema, name => itemLeaves? items schema name
  | _, _, _ => none

/-- The leaves of the items of an array, each below the entry of its keys. -/
def itemLeaves? : List Json → SchemaNode → String → Option Assignments
  | [], _, _ => some []
  | item :: rest, schema, name =>
    match item with
    | .object fields =>
      (entryKeys? fields schema.keyNames).bind fun keys =>
        (placeLeaves? item schema).bind fun leaves =>
          (itemLeaves? rest schema name).map (leaves.nest [⟨name, keys⟩] ++ ·)
    | _ => none

end

def leavesOfField? (raw : String) (value : Json) (schema : SchemaNode) : Option Assignments :=
  if localName raw ∈ schema.keyNames then some []
  else
    match schema.child? (localName raw) with
    | none => none
    | some (.leaf leafSchema) =>
      (LeafValue.ofJson? leafSchema.type value).map fun leaf =>
        [([PathElem.plain (localName raw)], leaf)]
    | some (.container children) =>
      (placeLeaves? value (.container children)).map (.nest [PathElem.plain (localName raw)])
    | some (.list keys max children) => listLeaves? value (.list keys max children) (localName raw)

theorem fieldLeaves?_cons (raw : String) (value : Json) (rest : List (String × Json))
    (schema : SchemaNode) :
    fieldLeaves? ((raw, value) :: rest) schema =
      (leavesOfField? raw value schema).bind fun leaves =>
        (fieldLeaves? rest schema).map (leaves ++ ·) := by
  rw [fieldLeaves?]
  rfl

def leavesOfItem? (item : Json) (schema : SchemaNode) (name : String) : Option Assignments :=
  match item with
  | .object fields =>
    (entryKeys? fields schema.keyNames).bind fun keys =>
      (placeLeaves? item schema).map (.nest [⟨name, keys⟩])
  | _ => none

theorem itemLeaves?_cons (item : Json) (rest : List Json) (schema : SchemaNode) (name : String) :
    itemLeaves? (item :: rest) schema name =
      (leavesOfItem? item schema name).bind fun leaves =>
        (itemLeaves? rest schema name).map (leaves ++ ·) := by
  cases item with
  | object fields =>
    simp only [itemLeaves?, leavesOfItem?, Option.bind_assoc, Option.bind_map, Function.comp_def]
  | _ => rfl

mutual

theorem wellFormed_placeLeaves {json : Json} {schema : SchemaNode} {leaves : Assignments}
    (h : json.placeLeaves? schema = some leaves) : leaves.WellFormed := by
  cases json with
  | object fields => exact wellFormed_fieldLeaves h
  | _ => simp [placeLeaves?] at h

private theorem wellFormed_fieldLeaves {fields : List (String × Json)} {schema : SchemaNode}
    {leaves : Assignments} (h : fieldLeaves? fields schema = some leaves) :
    leaves.WellFormed := by
  cases fields with
  | nil =>
    rw [fieldLeaves?, Option.some.injEq] at h
    exact h ▸ Assignments.wellFormed_nil
  | cons field rest =>
    obtain ⟨raw, value⟩ := field
    rw [fieldLeaves?] at h
    obtain ⟨first, hfirst, h⟩ := Option.bind_eq_some_iff.mp h
    obtain ⟨others, hothers, rfl⟩ := Option.map_eq_some_iff.mp h
    refine Assignments.WellFormed.append ?_ (wellFormed_fieldLeaves hothers)
    split at hfirst
    · rw [Option.some.injEq] at hfirst
      exact hfirst ▸ Assignments.wellFormed_nil
    · split at hfirst
      · cases hfirst
      · obtain ⟨leaf, hleaf, rfl⟩ := Option.map_eq_some_iff.mp hfirst
        exact Assignments.wellFormed_singleton (Path.keysOrdered_plain _)
          (LeafValue.isFinite_of_ofJson (toOption_eq_some.mp hleaf))
      · obtain ⟨inner, hinner, rfl⟩ := Option.map_eq_some_iff.mp hfirst
        exact (wellFormed_placeLeaves hinner).nest (Path.keysOrdered_plain _)
      · exact wellFormed_listLeaves hfirst

theorem wellFormed_listLeaves {json : Json} {schema : SchemaNode} {name : String}
    {leaves : Assignments} (h : json.listLeaves? schema name = some leaves) :
    leaves.WellFormed := by
  cases json with
  | array items => exact wellFormed_itemLeaves h
  | _ => simp [listLeaves?] at h

private theorem wellFormed_itemLeaves {items : List Json} {schema : SchemaNode} {name : String}
    {leaves : Assignments} (h : itemLeaves? items schema name = some leaves) :
    leaves.WellFormed := by
  cases items with
  | nil =>
    rw [itemLeaves?, Option.some.injEq] at h
    exact h ▸ Assignments.wellFormed_nil
  | cons item rest =>
    cases item with
    | object fields =>
      simp only [itemLeaves?] at h
      obtain ⟨keys, hkeys, h⟩ := Option.bind_eq_some_iff.mp h
      obtain ⟨inner, hinner, h⟩ := Option.bind_eq_some_iff.mp h
      obtain ⟨others, hothers, rfl⟩ := Option.map_eq_some_iff.mp h
      refine Assignments.WellFormed.append ?_ (wellFormed_itemLeaves hothers)
      obtain ⟨pairs, -, rfl⟩ := Option.map_eq_some_iff.mp hkeys
      exact (wellFormed_placeLeaves hinner).nest
        (Path.keysOrdered_singleton (SortedMap.sorted_ofList pairs))
    | _ => simp [itemLeaves?] at h

end

end Json

namespace TypedValue

/-- The leaves that a value denotes under an element that leads to a schema node. -/
def lastLeaves? (value : TypedValue) (last : PathElem) : SchemaNode → Option Assignments
  | .leaf leafSchema => (LeafValue.ofTyped? leafSchema.type value).map fun leaf => [([last], leaf)]
  | .container children =>
    value.json?.bind fun json => (json.placeLeaves? (.container children)).map (.nest [last])
  | .list keys max children =>
    value.json?.bind fun json =>
      if last.keys = [] then json.listLeaves? (.list keys max children) last.name
      else (json.placeLeaves? (.list keys max children)).map (.nest [last])

/-- The leaves that a value denotes at a path below a place of the schema. -/
def leaves? (value : TypedValue) (schema : SchemaNode) (path : List PathElem) :
    Option Assignments :=
  match path.getLast? with
  | none => value.json?.bind (·.placeLeaves? schema)
  | some last => ((schema.descend path).bind (value.lastLeaves? last)).map (.nest path.dropLast)

private theorem wellFormed_lastLeaves {value : TypedValue} {last : PathElem}
    {target : SchemaNode} {leaves : Assignments} (hlast : SortedMap.Sorted last.keys)
    (h : value.lastLeaves? last target = some leaves) : leaves.WellFormed := by
  have hpath := Path.keysOrdered_singleton hlast
  cases target with
  | leaf leafSchema =>
    obtain ⟨leaf, hleaf, rfl⟩ := Option.map_eq_some_iff.mp h
    exact Assignments.wellFormed_singleton hpath
      (LeafValue.isFinite_of_ofTyped (toOption_eq_some.mp hleaf))
  | container children =>
    obtain ⟨json, -, h⟩ := Option.bind_eq_some_iff.mp h
    obtain ⟨inner, hinner, rfl⟩ := Option.map_eq_some_iff.mp h
    exact (Json.wellFormed_placeLeaves hinner).nest hpath
  | list keys max children =>
    obtain ⟨json, -, h⟩ := Option.bind_eq_some_iff.mp h
    split at h
    · exact Json.wellFormed_listLeaves h
    · obtain ⟨inner, hinner, rfl⟩ := Option.map_eq_some_iff.mp h
      exact (Json.wellFormed_placeLeaves hinner).nest hpath

/-- What a value denotes at a path with ordered keys has ordered keys. -/
theorem wellFormed_leaves {value : TypedValue} {schema : SchemaNode} {path : List PathElem}
    {leaves : Assignments} (hpath : Path.KeysOrdered path)
    (h : value.leaves? schema path = some leaves) : leaves.WellFormed := by
  unfold leaves? at h
  cases hlast : path.getLast? with
  | none =>
    rw [hlast] at h
    obtain ⟨json, -, hleaves⟩ := Option.bind_eq_some_iff.mp h
    exact Json.wellFormed_placeLeaves hleaves
  | some last =>
    rw [hlast] at h
    obtain ⟨inner, hinner, rfl⟩ := Option.map_eq_some_iff.mp h
    obtain ⟨target, -, hinner⟩ := Option.bind_eq_some_iff.mp hinner
    have hkeys := hpath last (List.mem_of_getLast? hlast)
    refine (wellFormed_lastLeaves hkeys hinner).nest ?_
    exact fun elem helem => hpath elem (List.dropLast_subset path helem)

private theorem isFinite_of_lastLeaves {value : TypedValue} {last : PathElem}
    {target : SchemaNode} {leaves : Assignments}
    (h : value.lastLeaves? last target = some leaves) : ∀ leaf ∈ leaves, leaf.2.IsFinite := by
  have hnest : ∀ {inner : Assignments}, inner.WellFormed →
      ∀ leaf ∈ inner.nest [last], leaf.2.IsFinite := by
    intro inner hinner leaf hleaf
    obtain ⟨found, hfound, rfl⟩ := List.mem_map.mp hleaf
    exact (hinner found hfound).2
  cases target with
  | leaf leafSchema =>
    obtain ⟨scalar, hscalar, rfl⟩ := Option.map_eq_some_iff.mp h
    intro leaf hleaf
    rw [List.mem_singleton.mp hleaf]
    exact LeafValue.isFinite_of_ofTyped (toOption_eq_some.mp hscalar)
  | container children =>
    obtain ⟨json, -, h⟩ := Option.bind_eq_some_iff.mp h
    obtain ⟨inner, hinner, rfl⟩ := Option.map_eq_some_iff.mp h
    exact hnest (Json.wellFormed_placeLeaves hinner)
  | list keys max children =>
    obtain ⟨json, -, h⟩ := Option.bind_eq_some_iff.mp h
    split at h
    · exact fun leaf hleaf => (Json.wellFormed_listLeaves h leaf hleaf).2
    · obtain ⟨inner, hinner, rfl⟩ := Option.map_eq_some_iff.mp h
      exact hnest (Json.wellFormed_placeLeaves hinner)

/-- What a value denotes is finite, at whatever path. -/
theorem isFinite_of_leaves {value : TypedValue} {schema : SchemaNode} {path : List PathElem}
    {leaves : Assignments} (h : value.leaves? schema path = some leaves) :
    ∀ leaf ∈ leaves, leaf.2.IsFinite := by
  unfold leaves? at h
  cases hlast : path.getLast? with
  | none =>
    rw [hlast] at h
    obtain ⟨json, -, hleaves⟩ := Option.bind_eq_some_iff.mp h
    exact fun leaf hleaf => (Json.wellFormed_placeLeaves hleaves leaf hleaf).2
  | some last =>
    rw [hlast] at h
    obtain ⟨inner, hinner, rfl⟩ := Option.map_eq_some_iff.mp h
    obtain ⟨target, -, hinner⟩ := Option.bind_eq_some_iff.mp hinner
    intro leaf hleaf
    obtain ⟨found, hfound, rfl⟩ := List.mem_map.mp hleaf
    exact isFinite_of_lastLeaves hinner found hfound

end TypedValue

end Telemetry
