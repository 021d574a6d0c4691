import Telemetry.Proofs.Json.Reading
import Telemetry.Proofs.Tree.Walkers

/-!
A document as a list of scalars. Each scalar that is no list key stands at a path: the names of the
fields above it without their module qualifiers, and for an item of an array the keys that its own
key fields give. Storing a document at a path does to the leaves what storing its scalars one by one
does, each at its own path, and every one of these can be stored.
-/

namespace Telemetry

def Path.selecting (elems : List PathElem) (keys : Keys) : List PathElem :=
  elems.dropLast ++ (elems.getLast?.map fun last => ⟨last.name, keys⟩).toList

theorem Path.selecting_concat (parents : List PathElem) (last : PathElem) (keys : Keys) :
    Path.selecting (parents ++ [last]) keys = parents ++ [⟨last.name, keys⟩] := by
  simp [selecting]

namespace Json

def ownKeys : Json → List String → Keys
  | .object fields, names => (entryKeys? fields names).getD []
  | _, _ => []

mutual

/-- The scalars of a document at a path, in the order of the document, without the key fields of
list entries. -/
def scalarsAt : Json → SchemaNode → List PathElem → List (List PathElem × Json)
  | .object fields, schema, path => fieldScalars fields schema path
  | .array items, schema, path => itemScalars items schema path
  | scalar, _, path => [(path, scalar)]

def fieldScalars : List (String × Json) → SchemaNode → List PathElem →
    List (List PathElem × Json)
  | [], _, _ => []
  | (raw, value) :: rest, schema, path =>
    let name := localName raw
    let child := (schema.child? name).getD (.container [])
    (if name ∈ schema.keyNames then [] else value.scalarsAt child (path ++ [.plain name])) ++
      fieldScalars rest schema path

def itemScalars : List Json → SchemaNode → List PathElem → List (List PathElem × Json)
  | [], _, _ => []
  | item :: rest, schema, path =>
    item.scalarsAt schema (Path.selecting path (item.ownKeys schema.keyNames)) ++
      itemScalars rest schema path

end

/-- Only scalars become leaves. -/
theorem scalarsAt_of_ofJson {type : LeafType} {json : Json} {place : String} {value : LeafValue}
    (h : LeafValue.ofJson type json place = .ok value) (schema : SchemaNode)
    (path : List PathElem) : json.scalarsAt schema path = [(path, json)] := by
  cases json with
  | array items => cases type <;> cases h
  | object fields => cases type <;> cases h
  | _ => rfl

end Json

namespace LeafValue

/-- A signed leaf comes of a number that is an integer or of a string of digits. -/
theorem exists_of_ofJson_int {min max : Option Int64} {json : Json} {place : String}
    {value : LeafValue} (h : ofJson (.int min max) json place = .ok value) :
    ∃ i, value = .int i ∧ ((∃ n, json = .number n ∧ n.toInt? = some i.toInt) ∨
      ∃ s, json = .string s ∧ Integer.signed? s = some i) := by
  cases json with
  | number n =>
    cases n with
    | natural n =>
      simp only [ofJson] at h
      split at h
      · rename_i hresult
        obtain ⟨hn, hleaf⟩ := Option.ite_none_right_eq_some.mp hresult
        have hsize : n.toNat < 9223372036854775808 := hn
        cases h
        refine ⟨_, (Option.some.inj hleaf).symm, .inl ⟨_, rfl, ?_⟩⟩
        rw [JsonNumber.toInt?, Int64.toInt_ofInt_of_le (by omega) (by omega)]
      · cases h
    | negative i =>
      cases h
      exact ⟨i, rfl, .inl ⟨_, rfl, rfl⟩⟩
    | double x => cases h
  | string s =>
    simp only [ofJson] at h
    split at h
    · rename_i hresult
      obtain ⟨i, hi, rfl⟩ := Option.map_eq_some_iff.mp hresult
      cases h
      exact ⟨i, rfl, .inr ⟨s, rfl, hi⟩⟩
    · cases h
  | _ => cases h

/-- So does an unsigned one. -/
theorem exists_of_ofJson_uint {min max : Option UInt64} {json : Json} {place : String}
    {value : LeafValue} (h : ofJson (.uint min max) json place = .ok value) :
    ∃ u, value = .uint u ∧ ((∃ n, json = .number n ∧ n.toInt? = some (u.toNat : Int)) ∨
      ∃ s, json = .string s ∧ Integer.unsigned? s = some u) := by
  cases json with
  | number n =>
    cases n with
    | natural n =>
      cases h
      exact ⟨n, rfl, .inl ⟨_, rfl, rfl⟩⟩
    | _ => cases h
  | string s =>
    simp only [ofJson] at h
    split at h
    · rename_i hresult
      obtain ⟨u, hu, rfl⟩ := Option.map_eq_some_iff.mp hresult
      cases h
      exact ⟨u, rfl, .inr ⟨s, rfl, hu⟩⟩
    · cases h
  | _ => cases h

/-- A JSON scalar stands for a leaf of the kind that its type stores. -/
theorem stores_of_ofJson {type : LeafType} {json : Json} {place : String} {value : LeafValue}
    (h : ofJson type json place = .ok value) : type.Stores value := by
  cases type with
  | int min max =>
    obtain ⟨i, rfl, -⟩ := exists_of_ofJson_int h
    trivial
  | uint min max =>
    obtain ⟨u, rfl, -⟩ := exists_of_ofJson_uint h
    trivial
  | double min max =>
    cases json with
    | number n =>
      obtain ⟨-, rfl⟩ := ofDouble_eq_ok.mp h
      trivial
    | string s =>
      simp only [ofJson] at h
      split at h
      · obtain ⟨-, rfl⟩ := ofDouble_eq_ok.mp h
        trivial
      · cases h
    | _ => cases h
  | bytes =>
    cases json with
    | string s =>
      simp only [ofJson] at h
      split at h
      · cases h
        trivial
      · cases h
    | _ => cases h
  | _ =>
    cases json <;> cases h
    trivial

/-- A leaf that a JSON scalar stands for is read back from an update. -/
theorem ofTyped_toTyped_of_ofJson {type : LeafType} {json : Json} {place : String}
    {value : LeafValue} (h : ofJson type json place = .ok value) (path : String) :
    ofTyped type value.toTyped path = .ok value :=
  (stores_of_ofJson h).ofTyped_toTyped (isFinite_of_ofJson h) path

end LeafValue

theorem map_fst_of_entryKeys {place : String} {fields : List (String × Json)}
    {names : List String} {pairs : List (String × String)}
    (h : entryKeys place fields names = .ok pairs) : pairs.map (·.1) = names := by
  induction names generalizing pairs with
  | nil =>
    cases h
    rfl
  | cons key rest ih =>
    unfold entryKeys at h
    cases hfield : fields.find? fun field => localName field.1 == key with
    | none =>
      rw [hfield] at h
      cases h
    | some field =>
      rw [hfield] at h
      obtain ⟨text, -, h⟩ := bind_eq_ok.mp h
      obtain ⟨keys, hkeys, h⟩ := bind_eq_ok.mp h
      cases h
      rw [List.map_cons, ih hkeys]

namespace SchemaNode

/-- All lists declare pairwise distinct key names. -/
def DistinctKeys (schema : SchemaNode) : Prop :=
  ∀ elems names max children, schema.descend elems = some (.list names max children) → names.Nodup

/-- The update that stores a JSON scalar at its path, converted to the type of the leaf there. -/
def scalarUpdate (schema : SchemaNode) (scalar : List PathElem × Json) :
    Except TreeError Update := do
  let path := Path.ofElems scalar.1
  match ← schema.locate path with
  | .leaf leafSchema =>
    let value ← LeafValue.ofJson leafSchema.type scalar.2 path.text
    .ok (Update.of path value.toTyped)
  | _ => .error (.kindMismatch path.text)

section Updates

variable {schema : SchemaNode} {elems : List PathElem} {json : Json}

theorem scalarUpdate_of_locate {leafSchema : LeafSchema} {value : LeafValue}
    (hlocate : schema.locate (Path.ofElems elems) = .ok (.leaf leafSchema))
    (hvalue : LeafValue.ofJson? leafSchema.type json = some value) :
    schema.scalarUpdate (elems, json) = .ok (Node.updateOf (elems, value)) := by
  rw [← LeafValue.toOption_ofJson _ _ (Path.ofElems elems).text, toOption_eq_some] at hvalue
  exact bind_eq_ok.mpr ⟨_, hlocate, bind_eq_ok.mpr ⟨value, hvalue, rfl⟩⟩

/-- What a scalar is converted to can be stored where the scalar stands. -/
theorem takes_of_scalarUpdate (hroot : ∀ leafSchema, schema ≠ .leaf leafSchema)
    {leaf : List PathElem × LeafValue}
    (h : schema.scalarUpdate (elems, json) = .ok (Node.updateOf leaf)) :
    elems = leaf.1 ∧ schema.Takes leaf := by
  obtain ⟨target, hlocate, h⟩ := bind_eq_ok.mp h
  cases target with
  | leaf leafSchema =>
    obtain ⟨value, hvalue, hupdate⟩ := bind_eq_ok.mp h
    have hleaf : Node.updateOf (elems, value) = Node.updateOf leaf := Except.ok.inj hupdate
    cases Node.updateOf_injective hleaf
    refine ⟨rfl, ?_, leafSchema, hlocate, LeafValue.ofTyped_toTyped_of_ofJson hvalue _⟩
    rintro rfl
    exact hroot leafSchema (locateFrom_nil_eq_ok.mp hlocate)
  | _ => cases h

end Updates

section Entries

variable {names : List String} {max : Option UInt64} {schemas : List (String × SchemaNode)}

/-- An item of an array leads to an entry of the list. -/
theorem passable_of_entryKeys? {fields : List (String × Json)} {keys : Keys} (hne : names ≠ [])
    (hnodup : names.Nodup) (h : entryKeys? fields names = some keys) (name : String) :
    (list names max schemas).passable ⟨name, keys⟩ false = true := by
  obtain ⟨pairs, hpairs, rfl⟩ := Option.map_eq_some_iff.mp h
  have hnames := map_fst_of_entryKeys (toOption_eq_some.mp hpairs)
  rw [← requirePassable_eq_ok Path.root 0]
  refine requirePassable_entry hne ?_ ?_
  · rw [SortedMap.length_ofList (hnames ▸ hnodup), ← hnames, List.length_map]
  · refine List.all_eq_true.mpr ?_
    intro key hkey
    rwa [SortedMap.contains_ofList, hnames]

end Entries

section Runs

open Node (updateOf)

variable {root place : SchemaNode} {above : List PathElem}

/-- A scalar in a place stands for one leaf. -/
theorem mapM_scalarUpdate_leaf (hplace : Passes root above place) {name : String}
    {leafSchema : LeafSchema} (hchild : place.child? name = some (.leaf leafSchema)) {json : Json}
    {value : LeafValue} (hvalue : LeafValue.ofJson? leafSchema.type json = some value) :
    (json.scalarsAt (.leaf leafSchema) (above ++ [.plain name])).mapM root.scalarUpdate =
      .ok ((Assignments.nest above [([.plain name], value)]).map updateOf) := by
  have hrest : locateFrom Path.root place 0 [.plain name] = .ok (.leaf leafSchema) :=
    locateFrom_cons_eq_ok.mpr ⟨_, hchild, rfl, rfl⟩
  have hlocate : root.locate (Path.ofElems (above ++ [.plain name])) = .ok (.leaf leafSchema) :=
    hplace.locateFrom_append hrest _ 0
  have hupdate := scalarUpdate_of_locate hlocate hvalue
  rw [Json.scalarsAt_of_ofJson (toOption_eq_some.mp hvalue)]
  exact mapM_eq_ok_cons.mpr ⟨_, [], hupdate, rfl, rfl⟩

mutual

/-- The updates of the scalars of an object store its leaves. The induction goes over the document:
the elements above lead to the place of the object, so the schema accepts each path below it. -/
theorem mapM_scalarUpdate_object (hkeyed : root.Keyed) (hdistinct : root.DistinctKeys)
    {json : Json} {place : SchemaNode} {above : List PathElem} {leaves : Assignments}
    (hplace : Passes root above place) (h : json.placeLeaves? place = some leaves) :
    (json.scalarsAt place above).mapM root.scalarUpdate =
      .ok ((leaves.nest above).map updateOf) := by
  cases json with
  | object fields => exact mapM_scalarUpdate_fields hkeyed hdistinct hplace h
  | _ => cases h

private theorem mapM_scalarUpdate_fields (hkeyed : root.Keyed) (hdistinct : root.DistinctKeys)
    {fields : List (String × Json)} {place : SchemaNode} {above : List PathElem}
    {leaves : Assignments} (hplace : Passes root above place)
    (h : Json.fieldLeaves? fields place = some leaves) :
    (Json.fieldScalars fields place above).mapM root.scalarUpdate =
      .ok ((leaves.nest above).map updateOf) := by
  cases fields with
  | nil =>
    rw [Json.fieldLeaves?, Option.some.injEq] at h
    subst h
    rfl
  | cons field rest =>
    obtain ⟨raw, value⟩ := field
    rw [Json.fieldLeaves?] at h
    obtain ⟨first, hfirst, h⟩ := Option.bind_eq_some_iff.mp h
    obtain ⟨others, hothers, rfl⟩ := Option.map_eq_some_iff.mp h
    rw [Json.fieldScalars, Assignments.nest_append, List.map_append]
    refine mapM_append_eq_ok ?_ (mapM_scalarUpdate_fields hkeyed hdistinct hplace hothers)
    by_cases hkey : localName raw ∈ place.keyNames
    · rw [if_pos hkey, Option.some.injEq] at hfirst
      rw [if_pos hkey, ← hfirst]
      rfl
    · rw [if_neg hkey] at hfirst ⊢
      cases hchild : place.child? (localName raw) with
      | none => simp [hchild] at hfirst
      | some child =>
        simp only [hchild] at hfirst
        rw [Option.getD_some]
        cases child with
        | leaf leafSchema =>
          obtain ⟨leaf, hleaf, rfl⟩ := Option.map_eq_some_iff.mp hfirst
          exact mapM_scalarUpdate_leaf hplace hchild hleaf
        | container children =>
          obtain ⟨inner, hinner, rfl⟩ := Option.map_eq_some_iff.mp hfirst
          have hbelow : Passes root (above ++ [.plain (localName raw)]) (.container children) :=
            hplace.concat hchild rfl
          rw [Assignments.nest_nest]
          exact mapM_scalarUpdate_object hkeyed hdistinct hbelow hinner
        | list names max schemas =>
          exact mapM_scalarUpdate_array hkeyed hdistinct hplace hchild hfirst

/-- The updates of the scalars of an array store its leaves, whatever entry the path names. -/
theorem mapM_scalarUpdate_array (hkeyed : root.Keyed) (hdistinct : root.DistinctKeys)
    {json : Json} {place : SchemaNode} {above : List PathElem} {last : PathElem}
    {names : List String} {max : Option UInt64} {schemas : List (String × SchemaNode)}
    {leaves : Assignments} (hplace : Passes root above place)
    (hchild : place.child? last.name = some (.list names max schemas))
    (h : json.listLeaves? (.list names max schemas) last.name = some leaves) :
    (json.scalarsAt (.list names max schemas) (above ++ [last])).mapM root.scalarUpdate =
      .ok ((leaves.nest above).map updateOf) := by
  cases json with
  | array items => exact mapM_scalarUpdate_items hkeyed hdistinct hplace hchild h
  | _ => cases h

private theorem mapM_scalarUpdate_items (hkeyed : root.Keyed) (hdistinct : root.DistinctKeys)
    {items : List Json} {place : SchemaNode} {above : List PathElem} {last : PathElem}
    {names : List String} {max : Option UInt64} {schemas : List (String × SchemaNode)}
    {leaves : Assignments} (hplace : Passes root above place)
    (hchild : place.child? last.name = some (.list names max schemas))
    (h : Json.itemLeaves? items (.list names max schemas) last.name = some leaves) :
    (Json.itemScalars items (.list names max schemas) (above ++ [last])).mapM root.scalarUpdate =
      .ok ((leaves.nest above).map updateOf) := by
  cases items with
  | nil =>
    rw [Json.itemLeaves?, Option.some.injEq] at h
    subst h
    rfl
  | cons item rest =>
    cases item with
    | object fields =>
      simp only [Json.itemLeaves?] at h
      obtain ⟨keys, hkeys, h⟩ := Option.bind_eq_some_iff.mp h
      obtain ⟨inner, hinner, h⟩ := Option.bind_eq_some_iff.mp h
      obtain ⟨others, hothers, rfl⟩ := Option.map_eq_some_iff.mp h
      have hdescend : root.descend (above ++ [last]) = some (.list names max schemas) := by
        rw [descend_append, hplace.descend, Option.bind_some, descend, hchild]
        rfl
      have hentry : Passes root (above ++ [⟨last.name, keys⟩]) (.list names max schemas) :=
        hplace.concat hchild (passable_of_entryKeys? (hkeyed _ _ _ _ hdescend)
          (hdistinct _ _ _ _ hdescend) hkeys last.name)
      have hown : (Json.object fields).ownKeys (list names max schemas).keyNames = keys := by
        rw [Json.ownKeys, hkeys, Option.getD_some]
      rw [Json.itemScalars, Assignments.nest_append, List.map_append, Path.selecting_concat,
        hown, Assignments.nest_nest]
      exact mapM_append_eq_ok (mapM_scalarUpdate_object hkeyed hdistinct hentry hinner)
        (mapM_scalarUpdate_items hkeyed hdistinct hplace hchild hothers)
    | _ => simp [Json.itemLeaves?] at h

end

end Runs

end SchemaNode

/-- A document that is read has its fields in the order of their names, each name once. -/
theorem Json.regular_of_ofTyped {value : TypedValue} {place : String} {json : Json}
    (h : ofTyped value place = .ok json) : json.Regular Document.depthLimit := by
  have hbytes : ∃ bytes, ofBytes bytes place = .ok json := by
    unfold ofTyped at h
    split at h
    case h_1 | h_2 => exact ⟨_, h⟩
    all_goals cases h
  obtain ⟨bytes, hbytes⟩ := hbytes
  unfold ofBytes at hbytes
  split at hbytes
  · rename_i found hread
    cases hbytes
    obtain ⟨text, -, htext⟩ := Option.bind_eq_some_iff.mp hread
    obtain ⟨document, hdocument, hvalue⟩ := Option.bind_eq_some_iff.mp htext
    exact (Document.canonical_ofText? hdocument).regular hvalue hvalue
  · cases hbytes

/-- A document that is written out is read back. -/
theorem Json.Regular.ofTyped_render {depth : Nat} {v : Json} (h : v.Regular depth)
    (hdepth : depth ≤ Document.depthLimit)
    (hdoubles : ∀ x ∈ v.doubles, (JsonNumber.double x).ReadsBack) (place : String) :
    ofTyped (.json v.render.toUTF8.data.toList) place = .ok v := by
  have hvalue : (Document.ofJson v).value? = some v := (h.mono hdepth).valueAt?_ofJson
  have htext : ofText? v.render = some v := by
    rw [ofText?, h.ofText?_render hdoubles, Option.bind_some, hvalue]
  have hbytes : String.fromUTF8? ⟨v.render.toUTF8.data.toList.toArray⟩ = some v.render := by
    rw [Array.toArray_toList]
    exact dif_pos v.render.isValidUTF8
  rw [ofTyped, ofBytes, hbytes, Option.bind_some, htext]

namespace Node

/-- One tree has the leaves that come of storing scalars in another one, each at its own path and
one after the other, and it has no other leaves than that one anywhere else. -/
structure StoresScalars (schema : SchemaNode) (before after : Node)
    (scalars : List (List PathElem × Json)) : Prop where
  one_by_one : ∃ updates each, scalars.mapM schema.scalarUpdate = .ok updates ∧
    before.putAll schema updates = .ok each ∧ after.leafMap = each.leafMap
  elsewhere : ∀ elems, (∀ scalar ∈ scalars, scalar.1 ≠ elems) →
    after.leafMap elems = before.leafMap elems

section Documents

variable {schema target : SchemaNode} {node : Node} {path : Path} {value : TypedValue}
  {json : Json} {leaves : Assignments}

theorem storesScalars_of_mapM {after : Node} {scalars : List (List PathElem × Json)}
    (hroot : ∀ leafSchema, schema ≠ .leaf leafSchema) (hplace : IsPlace schema node)
    (hafter : IsPlace schema after)
    (hupdates : scalars.mapM schema.scalarUpdate = .ok (leaves.map updateOf))
    (hleaves : after.leafAt? = node.leafAt?.assignAll leaves) :
    StoresScalars schema node after scalars := by
  have htakes : ∀ leaf ∈ leaves, ∃ scalar ∈ scalars, scalar.1 = leaf.1 ∧ schema.Takes leaf := by
    intro leaf hleaf
    obtain ⟨scalar, hscalar, hupdate⟩ :=
      (mem_of_mapM_eq_ok hupdates).mp (List.mem_map_of_mem hleaf)
    exact ⟨scalar, hscalar, SchemaNode.takes_of_scalarUpdate hroot hupdate⟩
  constructor
  · obtain ⟨each, hput, heach, hassigned⟩ := putAll_spec hplace fun leaf hleaf =>
      (htakes leaf hleaf).elim fun _ h => h.2.2
    refine ⟨_, each, hupdates, hput, ?_⟩
    rw [leafMap_eq_leafAt? hafter, leafMap_eq_leafAt? heach, hleaves, hassigned]
  · intro elems helems
    rw [leafMap_eq_leafAt? hafter, leafMap_eq_leafAt? hplace, hleaves]
    refine LeafMap.assignAll_of_not_mem _ ?_
    intro leaf hleaf
    obtain ⟨scalar, hscalar, hsame, -⟩ := htakes leaf hleaf
    exact hsame ▸ helems scalar hscalar

/-- What a value denotes at a path to a container, an entry or a list are the scalars there of the
document that it carries. -/
theorem exists_json_of_leaves (hkeyed : schema.Keyed) (hdistinct : schema.DistinctKeys)
    (hlocate : schema.locate path = .ok target) (hinner : ∀ leafSchema, target ≠ .leaf leafSchema)
    (hleaves : value.leaves? schema path.elems = some leaves) :
    ∃ json, value.json? = some json ∧
      (json.scalarsAt target path.elems).mapM schema.scalarUpdate = .ok (leaves.map updateOf) := by
  unfold TypedValue.leaves? at hleaves
  cases hlast : path.elems.getLast? with
  | none =>
    have hnil := List.getLast?_eq_none_iff.mp hlast
    rw [SchemaNode.locate, hnil] at hlocate
    cases SchemaNode.locateFrom_nil_eq_ok.mp hlocate
    rw [hlast] at hleaves
    obtain ⟨json, hjson, hfound⟩ := Option.bind_eq_some_iff.mp hleaves
    refine ⟨json, hjson, ?_⟩
    rw [hnil, ← Assignments.nest_nil leaves]
    exact SchemaNode.mapM_scalarUpdate_object hkeyed hdistinct (.here schema) hfound
  | some last =>
    have helems := elems_eq_append_of_getLast? hlast
    simp only [hlast, SchemaNode.descend_of_locateFrom hlocate, Option.bind_some] at hleaves
    obtain ⟨inner, hinnerLeaves, rfl⟩ := Option.map_eq_some_iff.mp hleaves
    -- a container and an entry are places themselves, a list stands in the place above it
    have hthrough : ∀ json : Json, EndsAtPlace path target →
        (json.placeLeaves? target).map (.nest [last]) = some inner →
          (json.scalarsAt target path.elems).mapM schema.scalarUpdate =
            .ok ((inner.nest path.elems.dropLast).map updateOf) := by
      intro json hends hnested
      obtain ⟨found, hfound, rfl⟩ := Option.map_eq_some_iff.mp hnested
      rw [Assignments.nest_nest, ← helems]
      exact SchemaNode.mapM_scalarUpdate_object hkeyed hdistinct
        (SchemaNode.passes_of_locateFrom hlocate hends) hfound
    cases target with
    | leaf leafSchema => exact absurd rfl (hinner leafSchema)
    | container children =>
      obtain ⟨json, hjson, hnested⟩ := Option.bind_eq_some_iff.mp hinnerLeaves
      exact ⟨json, hjson, hthrough json (.inl ⟨children, rfl⟩) hnested⟩
    | list names max schemas =>
      obtain ⟨json, hjson, hfound⟩ := Option.bind_eq_some_iff.mp hinnerLeaves
      refine ⟨json, hjson, ?_⟩
      by_cases hkeys : last.keys = []
      · rw [if_pos hkeys] at hfound
        rw [SchemaNode.locate, helems] at hlocate
        obtain ⟨place, hpasses, hchild⟩ := SchemaNode.exists_passes_of_locateFrom hlocate
        rw [helems, List.dropLast_concat]
        exact SchemaNode.mapM_scalarUpdate_array hkeyed hdistinct hpasses hchild hfound
      · rw [if_neg hkeys] at hfound
        exact hthrough json (.inr ⟨names, max, schemas, last, rfl, hlast, hkeys⟩) hfound

/-- Storing a document at a path to a container, an entry or a list stores its scalars one by one,
in the order of the document. -/
theorem document_is_stored_scalar_by_scalar {schema : Schema} {root : Node}
    (hcheck : schema.check = .ok ()) (hdistinct : schema.root.DistinctKeys)
    (hroot : IsPlace schema.root root) (hlocate : schema.root.locate path = .ok target)
    (hinner : ∀ leafSchema, target ≠ .leaf leafSchema)
    (hput : (root.put schema.root path value).1 = .ok ()) :
    ∃ json, Json.ofTyped value path.text = .ok json ∧ json.Regular Document.depthLimit ∧
      StoresScalars schema.root root (root.put schema.root path value).2
        (json.scalarsAt target path.elems) := by
  obtain ⟨⟨schemas, hcontainer⟩, hnode⟩ := schema.root_of_check hcheck
  have hnotLeaf : ∀ leafSchema, schema.root ≠ .leaf leafSchema := by
    intro leafSchema hleaf
    rw [hcontainer] at hleaf
    cases hleaf
  obtain ⟨hafter, hwrites⟩ := put_spec path value hroot
  obtain ⟨leaves, hleaves, hassigned⟩ := hwrites hput
  obtain ⟨json, hjson, hupdates⟩ := exists_json_of_leaves (SchemaNode.keyed_of_check hnode)
    hdistinct hlocate hinner hleaves
  rw [← TypedValue.toOption_ofTyped _ path.text, toOption_eq_some] at hjson
  exact ⟨json, hjson, Json.regular_of_ofTyped hjson,
    storesScalars_of_mapM hnotLeaf hroot hafter hupdates hassigned⟩

end Documents

section Interfaces

open Notification (interfaceFields interfaceMtus)

def mtuDocument : Json :=
  .array [.object [("if:name", .string "eth0"), ("mtu", .nat 9000)],
    .object [("mtu", .string "1500"), ("name", .string "eth1")]]

private theorem regular_mtuDocument : mtuDocument.Regular 2 := by
  refine .array ?_
  intro item hitem
  rcases List.mem_pair.mp hitem with rfl | rfl
  · refine .object (List.pairwise_pair.mpr rfl) ?_
    intro field hfield
    rcases List.mem_pair.mp hfield with rfl | rfl
    · exact .string 0 "eth0"
    · exact .number 0 trivial
  · refine .object (List.pairwise_pair.mpr rfl) ?_
    intro field hfield
    rcases List.mem_pair.mp hfield with rfl | rfl
    · exact .string 0 "1500"
    · exact .string 0 "eth1"

theorem distinctKeys_interfaceFields {names : List String} (h : names.Nodup) :
    (SchemaNode.container (interfaceFields names)).DistinctKeys := by
  intro elems found max children hdescend
  cases elems with
  | nil => cases hdescend
  | cons elem rest =>
    obtain ⟨child, hchild, hrest⟩ := Option.bind_eq_some_iff.mp hdescend
    have hmem : (elem.name, child) ∈ interfaceFields names := SortedMap.mem_of_get?_eq_some hchild
    obtain ⟨-, rfl⟩ := Prod.mk.inj (List.mem_singleton.mp hmem)
    cases rest with
    | nil =>
      cases hrest
      exact h
    | cons next more =>
      obtain ⟨leaf, hleaf, hmore⟩ := Option.bind_eq_some_iff.mp hrest
      have hmem : (next.name, leaf) ∈ [("mtu", SchemaNode.leafOf (.uint none none))] :=
        SortedMap.mem_of_get?_eq_some hleaf
      obtain ⟨-, rfl⟩ := Prod.mk.inj (List.mem_singleton.mp hmem)
      cases more <;> cases hmore

/-- A document for all interfaces stores the size of each at the entry that its name selects. -/
theorem document_is_stored_scalar_by_scalar_interfaces :
    let schema : Schema := ⟨[], .container (interfaceFields ["name"])⟩
    let root := interfaceMtus [([("name", "eth0")], 1500)]
    let path := Path.ofElems [.plain "interface"]
    let value := TypedValue.json mtuDocument.render.toUTF8.data.toList
    (schema.check = .ok () ∧ schema.root.DistinctKeys ∧ IsPlace schema.root root ∧
        (root.put schema.root path value).1 = .ok ()) ∧
      StoresScalars schema.root root (root.put schema.root path value).2
        [([⟨"interface", [("name", "eth0")]⟩, .plain "mtu"], .nat 9000),
          ([⟨"interface", [("name", "eth1")]⟩, .plain "mtu"], .string "1500")] := by
  intro schema root path value
  have hcheck : schema.check = .ok () := rfl
  have hdistinct : schema.root.DistinctKeys := distinctKeys_interfaceFields (by decide)
  have hplace : IsPlace schema.root root := isPlace_interfaceMtus_eth0
  have hok : (root.put schema.root path value).1.toOption = some () := by decide +kernel
  have hput := toOption_eq_some.mp hok
  obtain ⟨json, hjson, -, hstores⟩ :=
    document_is_stored_scalar_by_scalar hcheck hdistinct hplace rfl (by simp) hput
  have hdoubles : mtuDocument.doubles = [] := rfl
  have hread : Json.ofTyped value path.text = .ok mtuDocument :=
    regular_mtuDocument.ofTyped_render (by decide) (by simp [hdoubles]) _
  cases hread.symm.trans hjson
  exact ⟨⟨hcheck, hdistinct, hplace, hput⟩, hstores⟩

end Interfaces

end Node

end Telemetry
