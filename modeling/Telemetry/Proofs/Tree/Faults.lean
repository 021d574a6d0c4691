import Telemetry.Proofs.Tree.Merging

/-!
The errors of values. Converting a value to a leaf fails for the value alone. Merging a document
into a tree in the shape of its schema may also come upon a field that the schema does not have
where the field stands; nothing else can go wrong.
-/

namespace Telemetry

namespace TreeError

/-- An error that a value alone is to blame for. -/
def BlamesValue : TreeError → Prop
  | missingValue _ => True
  | typeMismatch _ _ _ => True
  | invalidJson _ _ => True
  | nonFinite _ _ => True
  | _ => False

abbrev Converts {α : Type} (result : Except TreeError α) : Prop :=
  Good BlamesValue (fun _ => True) result

theorem converts_ok {α : Type} (a : α) : Converts (.ok a) :=
  trivial

theorem converts_error {α : Type} {e : TreeError} (h : e.BlamesValue) :
    Converts (.error e : Except TreeError α) :=
  h

end TreeError

open TreeError (Converts converts_ok converts_error)

section Values

theorem LeafValue.converts_ofDouble (place : String) (d : Binary64) :
    Converts (ofDouble place d) := by
  unfold ofDouble
  split
  · exact converts_ok _
  · exact converts_error trivial

theorem LeafValue.converts_ofJson (type : LeafType) (value : Json) (place : String) :
    Converts (ofJson type value place) := by
  unfold ofJson
  split <;> simp only
  all_goals first
    | exact converts_ok _
    | exact converts_error trivial
    | exact converts_ofDouble place _
    | (split <;>
        first
          | exact converts_ok _
          | exact converts_error trivial
          | exact converts_ofDouble place _)

theorem Json.converts_ofBytes (bytes : List UInt8) (place : String) :
    Converts (Json.ofBytes bytes place) := by
  unfold Json.ofBytes
  split
  · exact converts_ok _
  · exact converts_error trivial

theorem LeafValue.converts_ofTyped (type : LeafType) (value : TypedValue) (place : String) :
    Converts (ofTyped type value place) := by
  unfold ofTyped
  split
  case h_2 | h_3 =>
    exact (Json.converts_ofBytes _ place).bind fun _ _ _ => converts_ofJson type _ place
  case h_13 | h_14 => exact converts_ofDouble place _
  case h_10 | h_12 =>
    split
    · exact converts_ok _
    · exact converts_error trivial
  all_goals first
    | exact converts_ok _
    | exact converts_error trivial

theorem Json.converts_ofTyped (value : TypedValue) (place : String) :
    Converts (Json.ofTyped value place) := by
  unfold Json.ofTyped
  split
  case h_1 | h_2 => exact converts_ofBytes _ place
  all_goals exact converts_error trivial

theorem Json.converts_keyText (value : Json) (place : String) :
    Converts (value.keyText place) := by
  unfold Json.keyText
  split
  case h_4 => exact converts_error trivial
  all_goals exact converts_ok _

theorem converts_entryKeys (place : String) (fields : List (String × Json))
    (names : List String) : Converts (entryKeys place fields names) := by
  induction names with
  | nil => exact converts_ok _
  | cons key rest ih =>
    unfold entryKeys
    cases fields.find? fun field => localName field.1 == key with
    | none => exact converts_error trivial
    | some field =>
      exact (Json.converts_keyText field.2 place).bind fun _ _ _ =>
        ih.bind fun _ _ _ => converts_ok _

theorem converts_requireAgreement (place : String) (entry : Option Keys) (name : String)
    (value : Json) : Converts (requireAgreement place entry name value) := by
  unfold requireAgreement
  split
  · exact converts_ok _
  · refine (Json.converts_keyText value place).bind fun given _ _ => ?_
    split
    · exact converts_ok _
    · exact converts_error trivial

end Values

namespace Json

/-- An error that names a field of a document which the schema does not have where the field
stands. -/
inductive NamesUnknown : SchemaNode → String → Json → TreeError → Prop
  | here {schema : SchemaNode} {place raw : String} {fields : List (String × Json)} {value : Json}
      (mem : (raw, value) ∈ fields) (notKey : localName raw ∉ schema.keyNames)
      (unknown : schema.child? (localName raw) = none) :
      NamesUnknown schema place (.object fields)
        (.unknownElement (placeText place) (localName raw))
  | field {schema child : SchemaNode} {place raw : String} {fields : List (String × Json)}
      {value : Json} {e : TreeError} (mem : (raw, value) ∈ fields)
      (notKey : localName raw ∉ schema.keyNames)
      (known : schema.child? (localName raw) = some child)
      (inner : NamesUnknown child (place ++ "/" ++ localName raw) value e) :
      NamesUnknown schema place (.object fields) e
  | item {schema : SchemaNode} {place : String} {items : List Json} {item : Json} {e : TreeError}
      (mem : item ∈ items) (inner : NamesUnknown schema place item e) :
      NamesUnknown schema place (.array items) e

def Faults (json : Json) (schema : SchemaNode) (place : String) (e : TreeError) : Prop :=
  e.BlamesValue ∨ NamesUnknown schema place json e

end Json

namespace Node

abbrev FailsFor (json : Json) (schema : SchemaNode) (place : String)
    (result : Except TreeError Unit) : Prop :=
  Good (json.Faults schema place) (fun _ => True) result

mutual

theorem ObjectMerge.failsFor {json : Json} {schema : SchemaNode} {place : String}
    {entry : Option Keys} {node merged : Node} {result : Except TreeError Unit}
    (hmerge : ObjectMerge json schema place entry node result merged)
    (hplace : IsPlace schema node) : FailsFor json schema place result := by
  match hmerge, hplace with
  | .fields hfields, hplace => exact hfields.failsFor hplace fun _ => id
  | .notContainer hother, hplace =>
    obtain ⟨children, rfl⟩ := hplace.isContainer
    exact absurd rfl (hother children)
  | .notObject _, _ => exact Or.inl trivial

theorem FieldsMerge.failsFor {fields whole : List (String × Json)} {schema : SchemaNode}
    {place : String} {entry : Option Keys} {children merged : List (String × Node)}
    {result : Except TreeError Unit}
    (hmerge : FieldsMerge fields schema place entry children result merged)
    (hplace : IsPlace schema (.container children)) (hwhole : ∀ field ∈ fields, field ∈ whole) :
    FailsFor (.object whole) schema place result := by
  match hmerge, hplace, hwhole with
  | .done, _, _ => trivial
  | .stop hfield, hplace, hwhole => exact hfield.failsFor hplace (hwhole _ List.mem_cons_self)
  | .next hfield hothers, hplace, hwhole =>
    exact hothers.failsFor (hfield.spec hplace).1
      fun other hother => hwhole other (List.mem_cons_of_mem _ hother)

theorem FieldMerge.failsFor {raw : String} {value : Json} {whole : List (String × Json)}
    {schema : SchemaNode} {place : String} {entry : Option Keys}
    {children merged : List (String × Node)} {result : Except TreeError Unit}
    (hmerge : FieldMerge raw value schema place entry children result merged)
    (hplace : IsPlace schema (.container children)) (hmem : (raw, value) ∈ whole) :
    FailsFor (.object whole) schema place result := by
  match hmerge, hplace, hmem with
  | .key _, _, _ => exact (converts_requireAgreement place entry _ value).mono fun _ => Or.inl
  | .unknown hkey hunknown, _, hmem => exact Or.inr (.here hmem hkey hunknown)
  | .noScalar _ _ hrefused, _, _ =>
    exact ((LeafValue.converts_ofJson _ _ _).mono fun _ => Or.inl).raise hrefused
  | .leaf _ _ _, _, _ => trivial
  | .container hkey hknown hobject, hplace, hmem =>
    have hold := fits_child_getD hplace hknown (IsPlace.empty (.container _))
    exact (hobject.failsFor hold).mono fun _ h => h.imp_right (.field hmem hkey hknown)
  | .list hkey hknown hlist, hplace, hmem =>
    have hold := fits_child_getD hplace hknown Fits.emptyList
    exact (hlist.failsFor hold).mono fun _ h => h.imp_right (.field hmem hkey hknown)

theorem ListMerge.failsFor {json : Json} {keys : List String} {max : Option UInt64}
    {schemas : List (String × SchemaNode)} {place : String} {node merged : Node}
    {result : Except TreeError Unit}
    (hmerge : ListMerge json keys max schemas place node result merged)
    (hfits : Fits (.list keys max schemas) node) :
    FailsFor json (.list keys max schemas) place result := by
  match hmerge, hfits with
  | .items hitems, hfits => exact hitems.failsFor hfits fun _ => id
  | .notList hother, hfits =>
    obtain ⟨entries, rfl, -⟩ := select?_of_fits_list hfits
    exact absurd rfl (hother entries)
  | .notArray _, _ => exact Or.inl trivial

theorem ItemsMerge.failsFor {items whole : List Json} {keys : List String} {max : Option UInt64}
    {schemas : List (String × SchemaNode)} {place : String} {entries merged : List (Keys × Node)}
    {result : Except TreeError Unit}
    (hmerge : ItemsMerge items keys max schemas place entries result merged)
    (hfits : Fits (.list keys max schemas) (.list entries))
    (hwhole : ∀ item ∈ items, item ∈ whole) :
    FailsFor (.array whole) (.list keys max schemas) place result := by
  match hmerge, hfits, hwhole with
  | .done, _, _ => trivial
  | .stop hitem, hfits, hwhole => exact hitem.failsFor hfits (hwhole _ List.mem_cons_self)
  | .next hitem hothers, hfits, hwhole =>
    exact hothers.failsFor (hitem.spec hfits).1
      fun other hother => hwhole other (List.mem_cons_of_mem _ hother)

theorem ItemMerge.failsFor {item : Json} {whole : List Json} {keys : List String}
    {max : Option UInt64} {schemas : List (String × SchemaNode)} {place : String}
    {entries merged : List (Keys × Node)} {result : Except TreeError Unit}
    (hmerge : ItemMerge item keys max schemas place entries result merged)
    (hfits : Fits (.list keys max schemas) (.list entries)) (hmem : item ∈ whole) :
    FailsFor (.array whole) (.list keys max schemas) place result := by
  match hmerge, hfits, hmem with
  | .notObject _, _, _ => exact Or.inl trivial
  | .noKeys hrefused, _, _ =>
    exact ((converts_entryKeys _ _ _).mono fun _ => Or.inl).raise hrefused
  | .entry _ hobject, hfits, hmem =>
    exact (hobject.failsFor (fits_entry_getD hfits _)).mono fun _ h => h.imp_right (.item hmem)

end

end Node

end Telemetry
