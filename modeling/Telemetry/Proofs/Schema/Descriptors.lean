import Telemetry.Proofs.Schema.Regular
import Telemetry.Schema.Check

/-!
Descriptors of schemas. The descriptor of a regular schema is read as the schema, level by level
and whatever its leaf types, bounds and defaults are. So a schema that has been loaded comes back
from its descriptor (`Schema.descriptor_round_trips`), and from the text of its descriptor where
the doubles in it come back from theirs. Not every double does.
-/

namespace Telemetry

namespace LeafType

theorem toInt64?_integer (i : Int64) : (integer i).toInt64? = some i := by
  unfold integer
  split
  · rename_i h
    have hvalue : i.toUInt64.toNat = i.toNatClampNeg := Int64.toNat_toUInt64_of_le h
    have hlt : i.toNatClampNeg < 1 <<< 63 := i.toNatClampNeg_lt
    rw [JsonNumber.toInt64?, hvalue, if_pos hlt, ← Int64.toInt_eq_toNatClampNeg h,
      Int64.ofInt_toInt]
  · rfl

theorem ofDocument?_ofFields (nested : Bool) (position : Nat) {base : String}
    (hbase : tags.findIdx? (· == base) = some position) {fields : List (String × Json)}
    (hfields : ∀ field ∈ fields, field.1 ≠ "base") :
    ofDocument? nested (Document.ofJson (Json.ofFields (("base", .string base) :: fields))) =
      ofRecord? position (Document.ofJson (Json.ofFields fields)) := by
  rw [ofDocument?, Document.tagged?_ofFields (.string base) hfields]
  simp [Document.ofJson, Document.tag?, hbase]

/-- The descriptor of a leaf type is read as the type. -/
theorem ofDocument?_toJson (nested : Bool) (type : LeafType) :
    ofDocument? nested (Document.ofJson type.toJson) = some type := by
  have hunsigned := Document.bound?_ofOption JsonNumber.toUInt64? .natural fun _ => rfl
  have hsigned (bound : Option Int64) : Document.bound? JsonNumber.toInt64?
      (some (Document.ofJson (Json.ofOption toJson.ofInt64 bound))) = some bound :=
    Document.bound?_ofOption JsonNumber.toInt64? integer toInt64?_integer bound
  have hdouble := Document.bound?_ofOption (some ·.toBinary64) .double fun _ => rfl
  cases type with
  | string min max =>
    refine (ofDocument?_ofFields nested 0 rfl (by simp)).trans ?_
    simp [ofRecord?, Document.record?_ofFields, SortedMap.get?_ofList_cons, hunsigned]
  | bool => exact ofDocument?_ofFields nested 1 rfl (by simp)
  | int min max =>
    refine (ofDocument?_ofFields nested 2 rfl (by simp)).trans ?_
    simp [ofRecord?, Document.record?_ofFields, SortedMap.get?_ofList_cons, hsigned]
  | uint min max =>
    refine (ofDocument?_ofFields nested 3 rfl (by simp)).trans ?_
    simp [ofRecord?, Document.record?_ofFields, SortedMap.get?_ofList_cons, hunsigned]
  | double min max =>
    refine (ofDocument?_ofFields nested 4 rfl (by simp)).trans ?_
    simp [ofRecord?, Document.record?_ofFields, SortedMap.get?_ofList_cons, hdouble]
  | bytes => exact ofDocument?_ofFields nested 5 rfl (by simp)
  | enumeration values =>
    refine (ofDocument?_ofFields nested 6 rfl (by simp)).trans ?_
    simp [ofRecord?, Document.record?_ofFields, SortedMap.get?_ofList_cons,
      Document.texts?_ofJson]

end LeafType

namespace SchemaNode

/-- Children are read back if each of them is. -/
theorem mapM_childrenToJson {read? : Document → Option SchemaNode}
    {children : List (String × SchemaNode)}
    (h : ∀ child ∈ children, read? (Document.ofJson child.2.toJson) = some child.2) :
    ((childrenToJson children).map fun field => (field.1, Document.ofJson field.2)).mapM
      (fun (name, child) => (read? child).map fun node => (name, node)) = some children := by
  rw [childrenToJson_eq_map, List.map_map]
  refine mapM_map_eq_some fun child hchild => ?_
  simp [h child hchild]

theorem readChildren?_ofJson {read? : Document → Option SchemaNode}
    {children : List (String × SchemaNode)} (hsorted : SortedMap.Sorted children)
    (h : ∀ child ∈ children, read? (Document.ofJson child.2.toJson) = some child.2) :
    readChildren? read? (some (Document.ofJson (.object (childrenToJson children)))) =
      some children := by
  simp only [Document.ofJson, readChildren?, Document.fieldNames?_ofFields,
    Option.bind_eq_bind, Option.bind_some, mapM_childrenToJson h,
    SortedMap.ofList_eq_self hsorted]

end SchemaNode

/-- The type and the default of a leaf are read as they were written. -/
theorem LeafSchema.ofRecord?_ofFields {depth : Nat} {leaf : LeafSchema}
    (hdepth : depth ≤ Document.depthLimit)
    (hdefault : ∀ value ∈ leaf.default, value.Regular depth ∧ value ≠ .null) :
    ofRecord? (Document.ofJson (Json.ofFields [("type", leaf.type.toJson),
      ("default", leaf.default.getD .null)])) = some leaf := by
  obtain ⟨type, default⟩ := leaf
  have hrecord : (Document.ofJson (Json.ofFields [("type", type.toJson),
      ("default", default.getD .null)])).record? ["type", "default"] =
        some [some (Document.ofJson type.toJson), some (Document.ofJson (default.getD .null))] := by
    rw [Document.record?_ofFields]
    simp [SortedMap.get?_ofList_cons]
  rw [ofRecord?, hrecord]
  simp only [Option.bind_eq_bind, Option.bind_some, LeafType.ofDocument?_toJson]
  cases default with
  | none => rfl
  | some value =>
    obtain ⟨hregular, hvaluable⟩ := hdefault value rfl
    have hvalue : (Document.ofJson value).value? = some value :=
      (hregular.mono hdepth).valueAt?_ofJson
    rw [Option.getD_some]
    split
    · rename_i hnone
      cases hnone
    · rename_i hnull
      cases value with
      | null => exact absurd rfl hvaluable
      | _ => simp [Document.ofJson] at hnull
    · rename_i hsome
      cases hsome
      rw [hvalue]
      rfl

namespace SchemaNode

/-- The descriptor of a node is read as the node. -/
theorem Regular.ofDocument?_toJson {depth : Nat} {node : SchemaNode} (h : node.Regular depth)
    {fuel : Nat} (hfuel : depth ≤ fuel) (hdepth : depth ≤ Document.depthLimit) (nested : Bool) :
    ofDocument? fuel nested (Document.ofJson node.toJson) = some node := by
  induction h generalizing fuel nested with
  | @container depth children sorted below ih =>
    obtain ⟨fuel, rfl⟩ := Nat.exists_eq_add_of_le' (show 1 ≤ fuel by omega)
    have htag : (Document.ofJson (.string "container")).tag? nested tags = some 0 := rfl
    have hchildren := readChildren?_ofJson sorted fun child hchild =>
      ih child hchild (by omega : depth ≤ fuel) (by omega) true
    rw [toJson, ofDocument?, Document.tagged?_ofFields _ (by simp)]
    simp only [Option.bind_eq_bind, Option.bind_some, htag]
    simp [Document.record?_ofFields, SortedMap.get?_ofList_cons, hchildren]
  | @list depth keys max children sorted below ih =>
    obtain ⟨fuel, rfl⟩ := Nat.exists_eq_add_of_le' (show 1 ≤ fuel by omega)
    have htag : (Document.ofJson (.string "list")).tag? nested tags = some 1 := rfl
    have hmax := Document.bound?_ofOption JsonNumber.toUInt64? .natural (fun _ => rfl) max
    have hchildren := readChildren?_ofJson sorted fun child hchild =>
      ih child hchild (by omega : depth ≤ fuel) (by omega) true
    rw [toJson, ofDocument?, Document.tagged?_ofFields _ (by simp)]
    simp only [Option.bind_eq_bind, Option.bind_some, htag]
    simp [Document.record?_ofFields, SortedMap.get?_ofList_cons, Document.texts?_ofJson, hmax,
      hchildren]
  | @leaf depth leaf type default =>
    obtain ⟨fuel, rfl⟩ := Nat.exists_eq_add_of_le' (show 1 ≤ fuel by omega)
    have htag : (Document.ofJson (.string "leaf")).tag? nested tags = some 2 := rfl
    rw [toJson, ofDocument?, Document.tagged?_ofFields _ (by simp)]
    simp only [Option.bind_eq_bind, Option.bind_some, htag]
    simp [LeafSchema.ofRecord?_ofFields (by omega : depth + 1 ≤ Document.depthLimit) default]

end SchemaNode

namespace ModelInfo

def toJson (model : ModelInfo) : Json :=
  .ofFields [("name", .string model.name), ("organization", .string model.organization),
    ("version", .string model.version)]

theorem ofDocument?_toJson (model : ModelInfo) :
    ofDocument? (Document.ofJson model.toJson) = some model := by
  rw [ofDocument?, toJson, Document.record?_ofFields]
  simp [SortedMap.get?_ofList_cons, Document.ofJson, Document.text?]

theorem regular_toJson (model : ModelInfo) (depth : Nat) :
    model.toJson.Regular (depth + 1) := by
  refine Json.regular_ofFields ?_
  simp [Json.Regular.string]

end ModelInfo

namespace Schema

theorem toJson_eq (schema : Schema) : schema.toJson = .ofFields
    [("models", .array (schema.models.map ModelInfo.toJson)), ("root", schema.root.toJson)] :=
  rfl

/-- The descriptor of a schema with a regular root is read as the schema. -/
theorem ofDocument?_toJson {schema : Schema}
    (h : schema.root.Regular (Document.depthLimit - 1)) :
    ofDocument? (Document.ofJson schema.toJson) = some schema := by
  have hmodels : (Document.ofItems (schema.models.map ModelInfo.toJson)).mapM
      ModelInfo.ofDocument? = some schema.models := by
    rw [Document.ofItems_eq_map, List.map_map]
    exact mapM_map_eq_some fun model _ => model.ofDocument?_toJson
  have hvalue := h.descriptor.valueAt?_ofJson
  have hroot := h.ofDocument?_toJson (by decide : _ ≤ Document.depthLimit) (by decide) false
  rw [ofDocument?, toJson_eq, Document.record?_ofFields]
  simp [SortedMap.get?_ofList_cons, Document.ofJson, hmodels, hvalue, hroot]

theorem regular_toJson {schema : Schema} (h : schema.root.Regular (Document.depthLimit - 1)) :
    schema.toJson.Regular Document.depthLimit := by
  have hmodels : (Json.array (schema.models.map ModelInfo.toJson)).Regular
      (Document.depthLimit - 1) :=
    .array (List.forall_mem_map.mpr fun model _ => model.regular_toJson (Document.depthLimit - 3))
  exact Json.regular_ofFields (List.forall_mem_cons.mpr ⟨hmodels,
    List.forall_mem_singleton.mpr h.descriptor⟩)

/-- The descriptor of a loaded schema is as good as the schema. Read as a JSON value it gives the
schema again, which equals itself and passes the check. Its text does so too where every double
in the descriptor is read back from the text of that double. -/
theorem descriptor_round_trips {text : String} {schema : Schema} (h : load text = .ok schema) :
    ofDocument? (Document.ofJson schema.toJson) = some schema ∧ schema.equal schema = true ∧
      schema.check = .ok () ∧
      ((∀ x ∈ schema.toJson.doubles, (JsonNumber.double x).ReadsBack) →
        load schema.toJson.render = .ok schema) := by
  rw [load] at h
  split at h
  · cases h
  · rename_i read hread
    obtain ⟨_, hcheck, hloaded⟩ := bind_eq_ok.mp h
    cases hloaded
    obtain ⟨document, hdocument, hschema⟩ := Option.bind_eq_some_iff.mp hread
    have hroot := regular_of_ofDocument? (Document.canonical_ofText? hdocument) hschema
    have hdecoded := ofDocument?_toJson hroot
    refine ⟨hdecoded, ?_, hcheck, fun hdoubles => ?_⟩
    · rw [equal, beq_self_eq_true, hroot.equal_self]
      rfl
    · have htext := (regular_toJson hroot).ofText?_render hdoubles
      rw [load, ofText?, htext, Option.bind_some, hdecoded]
      simp only [hcheck]
      rfl

def portsText : String :=
  "\x7b\"root\":\x7b\"kind\":\"container\",\"children\":\x7b" ++
    "\"port\":\x7b\"kind\":\"list\",\"keys\":[\"id\"],\"max_elements\":18446744073709551615," ++
    "\"children\":\x7b" ++
    "\"gain\":\x7b\"kind\":\"leaf\",\"default\":0.1," ++
    "\"type\":\x7b\"base\":\"double\",\"min\":-0.5,\"max\":1e21\x7d\x7d," ++
    "\"trim\":\x7b\"kind\":\"leaf\"," ++
    "\"type\":\x7b\"base\":\"int\",\"min\":-9223372036854775808\x7d\x7d\x7d\x7d\x7d\x7d\x7d"

theorem descriptor_round_trips_ports :
    ∃ schema, load portsText = .ok schema ∧
      (∀ x ∈ schema.toJson.doubles, (JsonNumber.double x).ReadsBack) ∧
      load schema.toJson.render = .ok schema := by
  have hloaded : (load portsText).toOption.any fun schema =>
      decide (∀ x ∈ schema.toJson.doubles, (JsonNumber.double x).ReadsBack) := by
    decide +kernel
  obtain ⟨schema, hschema, hread⟩ := (Option.any_eq_true _ _).mp hloaded
  have hload := toOption_eq_some.mp hschema
  have hdoubles := of_decide_eq_true hread
  obtain ⟨-, -, -, htext⟩ := descriptor_round_trips hload
  exact ⟨schema, hload, hdoubles, htext hdoubles⟩

/-- A limit of 5e32. It is read as a double whose text is read as another one. -/
def limitText : String :=
  "\x7b\"root\":\x7b\"kind\":\"container\",\"children\":\x7b\"x\":\x7b\"kind\":\"leaf\"," ++
    "\"type\":\x7b\"base\":\"double\",\"max\":5e32\x7d\x7d\x7d\x7d\x7d"

theorem descriptor_text_differs :
    ∃ schema again, load limitText = .ok schema ∧ load schema.toJson.render = .ok again ∧
      schema.equal again = false := by
  have hdiffers : (load limitText).toOption.any fun schema =>
      (load schema.toJson.render).toOption.any fun again => !schema.equal again := by
    decide +kernel
  obtain ⟨schema, hschema, hdiffers⟩ := (Option.any_eq_true _ _).mp hdiffers
  obtain ⟨again, hagain, hunequal⟩ := (Option.any_eq_true _ _).mp hdiffers
  refine ⟨schema, again, toOption_eq_some.mp hschema, toOption_eq_some.mp hagain, ?_⟩
  simpa using hunequal

end Schema

end Telemetry
