import Telemetry.Proofs.Schema.Records
import Telemetry.Proofs.Json.Reading

/-!
Regular schemas: what can be read from a document that has a value. Children are sorted, bounds
and defaults are values that reading gives, and the depth is bounded. Every schema that is read
is regular; a regular schema equals itself, and its descriptor is a regular value.
-/

namespace Telemetry

namespace LeafType

/-- A leaf type as reading gives it: no bound is a NaN, and there is room for the names of an
enumeration. -/
def Regular (depth : Nat) : LeafType → Prop
  | .double min max => (∀ x ∈ min, x.isNaN = false) ∧ ∀ x ∈ max, x.isNaN = false
  | .enumeration _ => 0 < depth
  | _ => True

def integer (i : Int64) : JsonNumber :=
  if 0 ≤ i then .natural i.toUInt64 else .negative i

end LeafType

namespace SchemaNode

/-- A node as reading gives it from a document that may nest `depth` deep: children are sorted, and
a default is a value other than `null`. -/
inductive Regular : Nat → SchemaNode → Prop
  | container {depth : Nat} {children : List (String × SchemaNode)}
    (sorted : SortedMap.Sorted children) (below : ∀ child ∈ children, Regular depth child.2) :
    Regular (depth + 2) (.container children)
  | list {depth : Nat} {keys : List String} {max : Option UInt64}
    {children : List (String × SchemaNode)} (sorted : SortedMap.Sorted children)
    (below : ∀ child ∈ children, Regular depth child.2) :
    Regular (depth + 2) (.list keys max children)
  | leaf {depth : Nat} {leaf : LeafSchema} (type : leaf.type.Regular depth)
    (default : ∀ value ∈ leaf.default, value.Regular (depth + 1) ∧ value ≠ .null) :
    Regular (depth + 2) (.leaf leaf)

end SchemaNode

/-! ### What is read is regular -/

namespace LeafType

theorem isNaN_of_bound? {document : Option Document} {bound : Option Binary64}
    (hdocument : ∀ part ∈ document, part.Canonical)
    (h : Document.bound? (some ·.toBinary64) document = some bound) :
    ∀ x ∈ bound, x.isNaN = false := by
  unfold Document.bound? at h
  split at h
  · cases h
    simp
  · cases h
    simp
  · rename_i n
    obtain ⟨x, hx, rfl⟩ := Option.map_eq_some_iff.mp h
    cases hx
    cases hdocument _ rfl with
    | number canonical =>
      rintro _ ⟨⟩
      exact JsonNumber.isNaN_toBinary64 (canonical n rfl)
  · cases h

/-- A type with two optional bounds is made of what the bounds are read as. -/
theorem exists_bounds {α : Type} (make : Option α → Option α → LeafType)
    {read? : JsonNumber → Option α} {names : List String} {record : Document} {type : LeafType}
    (h : (do
      let [min, max] ← record.record? names | none
      some (make (← Document.bound? read? min) (← Document.bound? read? max))) = some type) :
    ∃ least greatest min max, record.record? names = some [least, greatest] ∧
      Document.bound? read? least = some min ∧ Document.bound? read? greatest = some max ∧
      type = make min max := by
  obtain ⟨values, hrecord, h⟩ := Option.bind_eq_some_iff.mp h
  split at h
  · obtain ⟨min, hmin, h⟩ := Option.bind_eq_some_iff.mp h
    obtain ⟨max, hmax, h⟩ := Option.bind_eq_some_iff.mp h
    cases h
    exact ⟨_, _, min, max, hrecord, hmin, hmax, rfl⟩
  · cases h

theorem eq_of_unconstrained {record : Document} {type result : LeafType}
    (h : ofRecord?.unconstrained record type = some result) : result = type := by
  unfold ofRecord?.unconstrained at h
  split at h
  · exact (Option.some.inj h).symm
  · exact (Option.some.inj h).symm
  · cases h

/-- A leaf type that is read from a document is regular a level further in. -/
theorem regular_of_ofDocument? {depth : Nat} {nested : Bool} {document : Document}
    {type : LeafType} (hdocument : document.Fits (depth + 1))
    (h : ofDocument? nested document = some type) : type.Regular depth := by
  obtain ⟨⟨tag, record⟩, htagged, h⟩ := Option.bind_eq_some_iff.mp h
  obtain ⟨position, -, h⟩ := Option.bind_eq_some_iff.mp h
  have hparts : ∀ {names : List String} {values : List (Option Document)},
      record.record? names = some values → ∀ part, some part ∈ values → part.Fits depth := by
    intro names values hrecord part hpart
    exact hdocument.tagged htagged part (Document.mem_parts_of_record? hrecord hpart)
  unfold ofRecord? at h
  split at h
  · obtain ⟨_, _, _, _, -, -, -, rfl⟩ := exists_bounds .string h
    trivial
  · rw [eq_of_unconstrained h]
    trivial
  · obtain ⟨_, _, _, _, -, -, -, rfl⟩ := exists_bounds .int h
    trivial
  · obtain ⟨_, _, _, _, -, -, -, rfl⟩ := exists_bounds .uint h
    trivial
  · obtain ⟨least, greatest, min, max, hrecord, hmin, hmax, rfl⟩ := exists_bounds .double h
    refine ⟨isNaN_of_bound? ?_ hmin, isNaN_of_bound? ?_ hmax⟩
    · rintro part rfl
      exact (hparts hrecord part (by simp)).canonical
    · rintro part rfl
      exact (hparts hrecord part (by simp)).canonical
  · rw [eq_of_unconstrained h]
    trivial
  · obtain ⟨values, hrecord, h⟩ := Option.bind_eq_some_iff.mp h
    split at h
    · obtain ⟨part, rfl, hlisted⟩ := Option.bind_eq_some_iff.mp h
      obtain ⟨texts, htexts, hmade⟩ := Option.bind_eq_some_iff.mp hlisted
      cases hmade
      obtain ⟨value, hvalue⟩ := (hparts hrecord part (by simp)).hasValue
      cases part with
      | array items =>
        cases depth with
        | zero => cases hvalue
        | succ depth => exact Nat.succ_pos depth
      | _ => cases htexts
    · cases h
  · cases h

end LeafType

/-- The type of a leaf that is read is regular, and its default is a regular value, not `null`. -/
theorem LeafSchema.regular_of_ofRecord? {depth : Nat} {record : Document} {leaf : LeafSchema}
    (hparts : ∀ part ∈ record.parts, part.Fits (depth + 1)) (h : ofRecord? record = some leaf) :
    leaf.type.Regular depth ∧
      ∀ value ∈ leaf.default, value.Regular (depth + 1) ∧ value ≠ .null := by
  obtain ⟨fields, hrecord, h⟩ := Option.bind_eq_some_iff.mp h
  split at h
  · obtain ⟨part, rfl, hread⟩ := Option.bind_eq_some_iff.mp h
    obtain ⟨type, htype, hread⟩ := Option.bind_eq_some_iff.mp hread
    have hregular : type.Regular depth :=
      LeafType.regular_of_ofDocument?
        (hparts part (Document.mem_parts_of_record? hrecord (by simp))) htype
    split at hread
    · cases hread
      exact ⟨hregular, by simp⟩
    · cases hread
      exact ⟨hregular, by simp⟩
    · rename_i default hnull _
      obtain ⟨value, hvalue, hmade⟩ := Option.bind_eq_some_iff.mp hread
      cases hmade
      refine ⟨hregular, ?_⟩
      rintro _ ⟨⟩
      obtain ⟨hcanonical, inside, hinside⟩ :=
        hparts default (Document.mem_parts_of_record? hrecord (by simp))
      refine ⟨hcanonical.regular hinside hvalue, ?_⟩
      rintro rfl
      exact hnull (Document.eq_ofJson_of_valueAt? hvalue (by simp) (by simp))
  · cases h

namespace SchemaNode

theorem regular_of_readChildren? {fuel depth : Nat} {field : Option Document}
    {children : List (String × SchemaNode)}
    (ih : ∀ {document : Document} {node : SchemaNode}, document.Fits depth →
      ofDocument? fuel true document = some node → node.Regular depth)
    (hfield : ∀ part ∈ field, part.Fits (depth + 1))
    (h : readChildren? (ofDocument? fuel true) field = some children) :
    SortedMap.Sorted children ∧ ∀ child ∈ children, child.2.Regular depth := by
  unfold readChildren? at h
  split at h
  · cases h
    exact ⟨SortedMap.sorted_nil, by simp⟩
  · rename_i fields
    obtain ⟨named, hnamed, h⟩ := Option.bind_eq_some_iff.mp h
    obtain ⟨nodes, hnodes, h⟩ := Option.bind_eq_some_iff.mp h
    cases h
    refine ⟨SortedMap.sorted_ofList nodes, fun child hchild => ?_⟩
    obtain ⟨⟨name, document⟩, hmem, hread⟩ :=
      exists_of_mem_mapM hnodes (SortedMap.mem_of_mem_ofList hchild)
    obtain ⟨node, hnode, rfl⟩ := Option.map_eq_some_iff.mp hread
    have hpart : document ∈ (Document.object fields).parts := by
      rw [Document.parts, Document.eq_map_of_fieldNames? hnamed, List.map_map]
      exact List.mem_map.mpr ⟨(name, document), hmem, rfl⟩
    obtain ⟨inner, hinner, hfits⟩ := (hfield _ rfl).part hpart
    cases hinner
    exact ih hfits hnode
  · cases h

/-- A node that is read from a document is regular at the depth at which the document has a
value. Each level of nodes takes two levels of the document, so the depth is even. -/
theorem regular_of_ofDocument? {fuel half : Nat} {nested : Bool} {document : Document}
    {node : SchemaNode} (hdocument : document.Fits (2 * half))
    (h : ofDocument? fuel nested document = some node) : node.Regular (2 * half) := by
  induction fuel generalizing half nested document node with
  | zero => simp [ofDocument?] at h
  | succ fuel ih =>
    rw [ofDocument?] at h
    obtain ⟨⟨tag, record⟩, htagged, h⟩ := Option.bind_eq_some_iff.mp h
    obtain ⟨position, -, h⟩ := Option.bind_eq_some_iff.mp h
    obtain ⟨half, rfl⟩ : ∃ smaller, half = smaller + 1 := by
      obtain ⟨inner, hinner, -⟩ := hdocument.part (Document.mem_parts_of_tagged? htagged).1
      exact Nat.exists_eq_add_of_le' (show 1 ≤ half by omega)
    have hparts : ∀ part ∈ record.parts, part.Fits (2 * half + 1) := hdocument.tagged htagged
    have hfield {names : List String} {values : List (Option Document)}
        (hrecord : record.record? names = some values) {field : Option Document}
        (hmem : field ∈ values) : ∀ part ∈ field, part.Fits (2 * half + 1) := by
      rintro part rfl
      exact hparts part (Document.mem_parts_of_record? hrecord hmem)
    split at h
    · obtain ⟨values, hrecord, h⟩ := Option.bind_eq_some_iff.mp h
      split at h
      · obtain ⟨children, hchildren, h⟩ := Option.bind_eq_some_iff.mp h
        cases h
        obtain ⟨hsorted, hbelow⟩ := regular_of_readChildren? ih (hfield hrecord (by simp)) hchildren
        exact .container hsorted hbelow
      · cases h
    · obtain ⟨values, hrecord, h⟩ := Option.bind_eq_some_iff.mp h
      split at h
      · obtain ⟨_, -, h⟩ := Option.bind_eq_some_iff.mp h
        obtain ⟨keys, -, h⟩ := Option.bind_eq_some_iff.mp h
        obtain ⟨max, -, h⟩ := Option.bind_eq_some_iff.mp h
        obtain ⟨children, hchildren, h⟩ := Option.bind_eq_some_iff.mp h
        cases h
        obtain ⟨hsorted, hbelow⟩ := regular_of_readChildren? ih (hfield hrecord (by simp)) hchildren
        exact .list hsorted hbelow
      · cases h
    · obtain ⟨leaf, hleaf, rfl⟩ := Option.map_eq_some_iff.mp h
      obtain ⟨htype, hdefault⟩ := LeafSchema.regular_of_ofRecord? hparts hleaf
      exact .leaf htype hdefault

end SchemaNode

namespace Schema

/-- The root of a schema is read from a document that has a value. -/
theorem regular_of_ofDocument? {document : Document} {schema : Schema}
    (hcanonical : document.Canonical) (h : ofDocument? document = some schema) :
    schema.root.Regular (Document.depthLimit - 1) := by
  obtain ⟨fields, hrecord, h⟩ := Option.bind_eq_some_iff.mp h
  split at h
  · rename_i root
    have hroot (models : List ModelInfo) (hread : (do
        let root ← root
        let _ ← root.valueAt? (Document.depthLimit - 1)
        some (Schema.mk models (← SchemaNode.ofDocument? Document.depthLimit false root))) =
          some schema) : schema.root.Regular (Document.depthLimit - 1) := by
      obtain ⟨part, rfl, hvalued⟩ := Option.bind_eq_some_iff.mp hread
      obtain ⟨value, hvalue, hrooted⟩ := Option.bind_eq_some_iff.mp hvalued
      obtain ⟨node, hnode, hmade⟩ := Option.bind_eq_some_iff.mp hrooted
      cases hmade
      have hpart := hcanonical.part (Document.mem_parts_of_record? hrecord
        (List.mem_cons_of_mem _ List.mem_cons_self))
      have hfits : part.Fits (2 * 63) := ⟨hpart, value, hvalue⟩
      exact SchemaNode.regular_of_ofDocument? hfits hnode
    dsimp only at h
    split at h
    · exact hroot [] h
    · obtain ⟨models, -, h⟩ := Option.bind_eq_some_iff.mp h
      exact hroot models h
    · cases h
  · cases h

end Schema

/-! ### Regular schemas equal themselves -/

theorem LeafType.Regular.equal_self {depth : Nat} {type : LeafType} (h : type.Regular depth) :
    type.equal type = true := by
  cases type with
  | double min max =>
    have hbound : ∀ bound : Option Binary64, (∀ x ∈ bound, x.isNaN = false) →
        (bound == bound) = true := by
      intro bound hNaN
      cases bound with
      | none => rfl
      | some x => exact Binary64.beq_self (hNaN x rfl)
    simp [equal, hbound min h.1, hbound max h.2]
  | _ => simp [equal]

namespace SchemaNode

theorem equalChildren_self {children : List (String × SchemaNode)}
    (h : ∀ child ∈ children, child.2.equal child.2 = true) :
    equalChildren children children = true := by
  induction children with
  | nil => rfl
  | cons child children ih =>
    rw [equalChildren, beq_self_eq_true, h child List.mem_cons_self,
      ih fun other hother => h other (List.mem_cons_of_mem child hother)]
    rfl

theorem Regular.equal_self {depth : Nat} {node : SchemaNode} (h : node.Regular depth) :
    node.equal node = true := by
  induction h with
  | container sorted below ih => exact equalChildren_self ih
  | list sorted below ih => simp [equal, equalChildren_self ih]
  | @leaf depth leaf type default =>
    rw [equal, LeafSchema.equal, type.equal_self, Bool.true_and]
    cases hvalue : leaf.default with
    | none => rfl
    | some value => exact (default value hvalue).1.equal_self

end SchemaNode

/-! ### Descriptors are regular -/

namespace Json

theorem regular_ofFields {depth : Nat} {fields : List (String × Json)}
    (h : ∀ field ∈ fields, field.2.Regular depth) : (Json.ofFields fields).Regular (depth + 1) :=
  .object (SortedMap.sorted_ofList fields) fun field hfield =>
    h field (SortedMap.mem_of_mem_ofList hfield)

theorem regular_ofOption {α : Type} (depth : Nat) {write : α → JsonNumber} {bound : Option α}
    (h : ∀ a ∈ bound, (write a).Canonical) :
    (Json.ofOption (fun a => .number (write a)) bound).Regular depth := by
  cases bound with
  | none => exact .null depth
  | some a => exact .number depth (h a rfl)

theorem regular_texts (depth : Nat) (texts : List String) :
    (Json.array (texts.map .string)).Regular (depth + 1) := by
  refine .array fun item hitem => ?_
  obtain ⟨text, -, rfl⟩ := List.mem_map.mp hitem
  exact .string depth text

end Json

theorem LeafType.canonical_integer (i : Int64) : (integer i).Canonical := by
  unfold integer
  split
  · trivial
  · rename_i h
    exact Int64.not_le.mp h

/-- A type with two optional bounds has a regular descriptor. -/
theorem LeafType.regular_bounds {depth : Nat} {base least greatest : String} {min max : Json}
    (hmin : min.Regular depth) (hmax : max.Regular depth) :
    (Json.ofFields [("base", .string base), (least, min), (greatest, max)]).Regular (depth + 1) :=
  Json.regular_ofFields <| List.forall_mem_cons.mpr ⟨.string depth base,
    List.forall_mem_cons.mpr ⟨hmin, List.forall_mem_singleton.mpr hmax⟩⟩

theorem LeafType.Regular.descriptor {depth : Nat} {type : LeafType} (h : type.Regular depth) :
    type.toJson.Regular (depth + 1) := by
  have hnatural (bound : Option UInt64) :
      (Json.ofOption (.number <| .natural ·) bound).Regular depth :=
    Json.regular_ofOption depth fun _ _ => trivial
  have hinteger (bound : Option Int64) :
      (Json.ofOption LeafType.toJson.ofInt64 bound).Regular depth :=
    Json.regular_ofOption depth fun i _ => canonical_integer i
  cases type with
  | string min max => exact regular_bounds (hnatural min) (hnatural max)
  | int min max => exact regular_bounds (hinteger min) (hinteger max)
  | uint min max => exact regular_bounds (hnatural min) (hnatural max)
  | double min max =>
    obtain ⟨hmin, hmax⟩ := h
    exact regular_bounds (Json.regular_ofOption depth hmin) (Json.regular_ofOption depth hmax)
  | bool => exact Json.regular_ofFields (List.forall_mem_singleton.mpr (.string depth _))
  | bytes => exact Json.regular_ofFields (List.forall_mem_singleton.mpr (.string depth _))
  | enumeration values =>
    obtain ⟨depth, rfl⟩ := Nat.exists_eq_add_of_le' h
    exact Json.regular_ofFields <| List.forall_mem_cons.mpr ⟨.string _ _,
      List.forall_mem_singleton.mpr (Json.regular_texts depth values)⟩

namespace SchemaNode

theorem childrenToJson_eq_map (children : List (String × SchemaNode)) :
    childrenToJson children = children.map fun child => (child.1, child.2.toJson) := by
  induction children with
  | nil => rfl
  | cons child children ih => simp [childrenToJson, ih]

theorem regular_childrenToJson {depth : Nat} {children : List (String × SchemaNode)}
    (hsorted : SortedMap.Sorted children)
    (h : ∀ child ∈ children, child.2.toJson.Regular depth) :
    (Json.object (childrenToJson children)).Regular (depth + 1) := by
  rw [childrenToJson_eq_map]
  refine .object (List.pairwise_map.mpr hsorted) fun field hfield => ?_
  obtain ⟨child, hchild, rfl⟩ := List.mem_map.mp hfield
  exact h child hchild

theorem Regular.descriptor {depth : Nat} {node : SchemaNode} (h : node.Regular depth) :
    node.toJson.Regular depth := by
  induction h with
  | container sorted below ih =>
    exact Json.regular_ofFields <| List.forall_mem_cons.mpr ⟨.string _ _,
      List.forall_mem_singleton.mpr (regular_childrenToJson sorted ih)⟩
  | list sorted below ih =>
    exact Json.regular_ofFields <| List.forall_mem_cons.mpr ⟨.string _ _,
      List.forall_mem_cons.mpr ⟨Json.regular_texts _ _,
      List.forall_mem_cons.mpr ⟨Json.regular_ofOption _ fun _ _ => trivial,
        List.forall_mem_singleton.mpr (regular_childrenToJson sorted ih)⟩⟩⟩
  | @leaf depth leaf type default =>
    have hdefault : (leaf.default.getD .null).Regular (depth + 1) := by
      cases hvalue : leaf.default with
      | none => exact .null _
      | some value => exact (default value hvalue).1
    exact Json.regular_ofFields <| List.forall_mem_cons.mpr ⟨.string _ _,
      List.forall_mem_cons.mpr ⟨type.descriptor, List.forall_mem_singleton.mpr hdefault⟩⟩

end SchemaNode

end Telemetry
