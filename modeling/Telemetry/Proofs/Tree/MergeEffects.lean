import Telemetry.Proofs.Tree.Effect
import Telemetry.Proofs.Tree.Merging

/-!
The effects of merges. A JSON value that is merged into a place fixes the leaves that it denotes and
the containers, lists and entries that it runs through. Which ones, and whether the merge goes
through at all, does not depend on the tree or on the places that messages name.
-/

namespace Telemetry

/-- An edit goes through exactly if it denotes an effect, and has that effect then. -/
def Does {α : Type} (effect? : Option Effect) (before : Contents) (result : Except TreeError α)
    (after : Contents) : Prop :=
  match effect? with
  | none => ∃ e, result = .error e
  | some effect => (∃ a, result = .ok a) ∧ after = effect.apply before

namespace Does

variable {α β : Type} {before between after : Contents} {effect? : Option Effect} {effect : Effect}
  {result : Except TreeError α}

theorem error (e : TreeError) : Does none before (.error e : Except TreeError α) after :=
  ⟨e, rfl⟩

theorem keep (a : α) (c : Contents) : Does (some .keep) c (.ok a) c :=
  ⟨⟨a, rfl⟩, rfl⟩

theorem effect_eq_none {e : TreeError}
    (h : Does effect? before (.error e : Except TreeError α) after) :
    effect? = none := by
  cases effect? with
  | none => rfl
  | some effect =>
    obtain ⟨a, ha⟩ := h.1
    cases ha

theorem effect_eq_some {a : α} (h : Does effect? before (.ok a) after) :
    ∃ effect, effect? = some effect ∧ after = effect.apply before := by
  cases effect? with
  | none =>
    obtain ⟨e, he⟩ := h
    cases he
  | some effect => exact ⟨effect, rfl, h.2⟩

/-- Edits one after the other. -/
theorem andThen (hfirst : between = effect.apply before) (h : Does effect? between result after) :
    Does (effect?.map effect.andThen) before result after := by
  cases effect? with
  | none => exact h
  | some second =>
    refine ⟨h.1, ?_⟩
    rw [Effect.apply_andThen, ← hfirst]
    exact h.2

/-- The same edit seen from elsewhere. -/
theorem map {lift : Effect → Effect} {outer outerAfter : Contents}
    (h : Does effect? before result after)
    (hafter : ∀ effect, after = effect.apply before → outerAfter = (lift effect).apply outer) :
    Does (effect?.map lift) outer result outerAfter := by
  cases effect? with
  | none => exact h
  | some effect => exact ⟨h.1, hafter effect h.2⟩

end Does

/-- The key fields of an entry agree with its keys alike at all places. -/
theorem toOption_requireAgreement (place : String) (entry : Option Keys) (name : String)
    (value : Json) :
    (requireAgreement place entry name value).toOption =
      (requireAgreement "" entry name value).toOption := by
  unfold requireAgreement
  split
  · rfl
  · simp only [toOption_bind, toOption_keyText _ place]
    congr 1
    funext given
    split <;> rfl

namespace Json

mutual

def placeEffect? : Json → SchemaNode → Option Keys → Option Effect
  | .object fields, schema, entry => fieldEffect? fields schema entry
  | _, _, _ => none

def fieldEffect? : List (String × Json) → SchemaNode → Option Keys → Option Effect
  | [], _, _ => some .keep
  | (raw, value) :: rest, schema, entry =>
    let name := localName raw
    let first : Option Effect :=
      if name ∈ schema.keyNames then
        (requireAgreement "" entry name value).toOption.map fun _ => .keep
      else
        match schema.child? name with
        | none => none
        | some (.leaf leafSchema) =>
          (LeafValue.ofJson? leafSchema.type value).map fun leaf =>
            .under (.child name) (.const (.leaf leaf))
        | some (.container children) =>
          (placeEffect? value (.container children) none).map (.into (.child name) .container)
        | some (.list keys max children) =>
          (listEffect? value (.list keys max children)).map (.into (.child name) .list)
    first.bind fun effect => (fieldEffect? rest schema entry).map effect.andThen

def listEffect? : Json → SchemaNode → Option Effect
  | .array items, schema => itemEffect? items schema
  | _, _ => none

def itemEffect? : List Json → SchemaNode → Option Effect
  | [], _ => some .keep
  | item :: rest, schema =>
    match item with
    | .object fields =>
      (entryKeys? fields schema.keyNames).bind fun keys =>
        (placeEffect? item schema (some keys)).bind fun effect =>
          (itemEffect? rest schema).map (effect.into (.entry keys) .container).andThen
    | _ => none

end

def effectOfField? (raw : String) (value : Json) (schema : SchemaNode) (entry : Option Keys) :
    Option Effect :=
  if localName raw ∈ schema.keyNames then
    (requireAgreement "" entry (localName raw) value).toOption.map fun _ => .keep
  else
    match schema.child? (localName raw) with
    | none => none
    | some (.leaf leafSchema) =>
      (LeafValue.ofJson? leafSchema.type value).map fun leaf =>
        .under (.child (localName raw)) (.const (.leaf leaf))
    | some (.container children) =>
      (placeEffect? value (.container children) none).map
        (.into (.child (localName raw)) .container)
    | some (.list keys max children) =>
      (listEffect? value (.list keys max children)).map (.into (.child (localName raw)) .list)

theorem fieldEffect?_cons (raw : String) (value : Json) (rest : List (String × Json))
    (schema : SchemaNode) (entry : Option Keys) :
    fieldEffect? ((raw, value) :: rest) schema entry =
      (effectOfField? raw value schema entry).bind fun effect =>
        (fieldEffect? rest schema entry).map effect.andThen := by
  rw [fieldEffect?]
  rfl

def effectOfItem? (item : Json) (schema : SchemaNode) : Option Effect :=
  match item with
  | .object fields =>
    (entryKeys? fields schema.keyNames).bind fun keys =>
      (placeEffect? item schema (some keys)).map (.into (.entry keys) .container)
  | _ => none

theorem itemEffect?_cons (item : Json) (rest : List Json) (schema : SchemaNode) :
    itemEffect? (item :: rest) schema =
      (effectOfItem? item schema).bind fun effect =>
        (itemEffect? rest schema).map effect.andThen := by
  cases item with
  | object fields =>
    simp only [itemEffect?, effectOfItem?, Option.bind_assoc, Option.bind_map, Function.comp_def]
  | _ => rfl

/-- A field changes what stands below a place and not the place. -/
theorem fieldEffect?_here {fields : List (String × Json)} {schema : SchemaNode}
    {entry : Option Keys} {effect : Effect}
    (h : fieldEffect? fields schema entry = some effect) : effect [] = none := by
  induction fields generalizing effect with
  | nil =>
    cases h
    rfl
  | cons field rest ih =>
    obtain ⟨raw, value⟩ := field
    unfold fieldEffect? at h
    obtain ⟨first, hfirst, h⟩ := Option.bind_eq_some_iff.mp h
    obtain ⟨others, hothers, rfl⟩ := Option.map_eq_some_iff.mp h
    refine Effect.andThen_here_eq_none ?_ (ih hothers)
    split at hfirst
    · obtain ⟨_, -, rfl⟩ := Option.map_eq_some_iff.mp hfirst
      rfl
    · split at hfirst
      · cases hfirst
      · obtain ⟨_, -, rfl⟩ := Option.map_eq_some_iff.mp hfirst
        rfl
      · obtain ⟨_, -, rfl⟩ := Option.map_eq_some_iff.mp hfirst
        rfl
      · obtain ⟨_, -, rfl⟩ := Option.map_eq_some_iff.mp hfirst
        rfl

theorem placeEffect?_here {json : Json} {schema : SchemaNode} {entry : Option Keys}
    {effect : Effect} (h : json.placeEffect? schema entry = some effect) : effect [] = none := by
  cases json with
  | object fields => exact fieldEffect?_here h
  | _ => cases h

end Json

namespace Node

mutual

theorem ObjectMerge.does {json : Json} {schema : SchemaNode} {place : String}
    {entry : Option Keys} {node merged : Node} {result : Except TreeError Unit}
    (hmerge : ObjectMerge json schema place entry node result merged)
    (hplace : IsPlace schema node) :
    Does (json.placeEffect? schema entry) node.contents result merged.contents := by
  match hmerge, hplace with
  | .fields hfields, hplace => exact hfields.does hplace
  | .notContainer hother, hplace =>
    obtain ⟨children, rfl⟩ := hplace.isContainer
    exact absurd rfl (hother children)
  | .notObject hother, _ =>
    cases json with
    | object fields => exact absurd rfl (hother fields)
    | _ => exact Does.error _

theorem FieldsMerge.does {fields : List (String × Json)} {schema : SchemaNode} {place : String}
    {entry : Option Keys} {children merged : List (String × Node)}
    {result : Except TreeError Unit}
    (hmerge : FieldsMerge fields schema place entry children result merged)
    (hplace : IsPlace schema (.container children)) :
    Does (Json.fieldEffect? fields schema entry) (container children).contents result
      (container merged).contents := by
  match hmerge, hplace with
  | .done, _ => exact Does.keep () _
  | .stop hfield, hplace =>
    rw [Json.fieldEffect?_cons, (hfield.does hplace).effect_eq_none]
    exact Does.error _
  | .next hfield hothers, hplace =>
    obtain ⟨effect, heffect, hcontents⟩ := (hfield.does hplace).effect_eq_some
    rw [Json.fieldEffect?_cons, heffect]
    exact Does.andThen hcontents (hothers.does (hfield.spec hplace).1)

theorem FieldMerge.does {raw : String} {value : Json} {schema : SchemaNode} {place : String}
    {entry : Option Keys} {children merged : List (String × Node)}
    {result : Except TreeError Unit}
    (hmerge : FieldMerge raw value schema place entry children result merged)
    (hplace : IsPlace schema (.container children)) :
    Does (Json.effectOfField? raw value schema entry) (container children).contents result
      (container merged).contents := by
  match hmerge, hplace with
  | .key hkey, _ =>
    rw [Json.effectOfField?, if_pos hkey, ← toOption_requireAgreement place]
    cases requireAgreement place entry (localName raw) value with
    | error e => exact Does.error e
    | ok => exact Does.keep () _
  | .unknown hkey hunknown, _ =>
    simp only [Json.effectOfField?, if_neg hkey, hunknown]
    exact Does.error _
  | .noScalar hkey hknown hrefused, _ =>
    simp only [Json.effectOfField?, if_neg hkey, hknown]
    rw [← LeafValue.toOption_ofJson, hrefused]
    exact Does.error _
  | .leaf hkey hknown hread, _ =>
    simp only [Json.effectOfField?, if_neg hkey, hknown]
    rw [← LeafValue.toOption_ofJson, hread]
    exact ⟨⟨(), rfl⟩, contents_insert_child rfl⟩
  | .container hkey hknown hobject, hplace =>
    have hold := fits_child_getD hplace hknown (IsPlace.empty (.container _))
    simp only [Json.effectOfField?, if_neg hkey, hknown]
    exact (hobject.does hold).map fun _ => contents_insert_container hplace hknown
  | .list hkey hknown hlist, hplace =>
    have hold := fits_child_getD hplace hknown Fits.emptyList
    simp only [Json.effectOfField?, if_neg hkey, hknown]
    exact (hlist.does hold).map fun _ => contents_insert_list hplace hknown

theorem ListMerge.does {json : Json} {keys : List String} {max : Option UInt64}
    {schemas : List (String × SchemaNode)} {place : String} {node merged : Node}
    {result : Except TreeError Unit}
    (hmerge : ListMerge json keys max schemas place node result merged)
    (hfits : Fits (.list keys max schemas) node) :
    Does (json.listEffect? (.list keys max schemas)) node.contents result merged.contents := by
  match hmerge, hfits with
  | .items hitems, hfits => exact hitems.does hfits
  | .notList hother, hfits =>
    obtain ⟨entries, rfl, -⟩ := select?_of_fits_list hfits
    exact absurd rfl (hother entries)
  | .notArray hother, _ =>
    cases json with
    | array items => exact absurd rfl (hother items)
    | _ => exact Does.error _

theorem ItemsMerge.does {items : List Json} {keys : List String} {max : Option UInt64}
    {schemas : List (String × SchemaNode)} {place : String} {entries merged : List (Keys × Node)}
    {result : Except TreeError Unit}
    (hmerge : ItemsMerge items keys max schemas place entries result merged)
    (hfits : Fits (.list keys max schemas) (.list entries)) :
    Does (Json.itemEffect? items (.list keys max schemas)) (list entries).contents result
      (list merged).contents := by
  match hmerge, hfits with
  | .done, _ => exact Does.keep () _
  | .stop hitem, hfits =>
    rw [Json.itemEffect?_cons, (hitem.does hfits).effect_eq_none]
    exact Does.error _
  | .next hitem hothers, hfits =>
    obtain ⟨effect, heffect, hcontents⟩ := (hitem.does hfits).effect_eq_some
    rw [Json.itemEffect?_cons, heffect]
    exact Does.andThen hcontents (hothers.does (hitem.spec hfits).1)

theorem ItemMerge.does {item : Json} {keys : List String} {max : Option UInt64}
    {schemas : List (String × SchemaNode)} {place : String} {entries merged : List (Keys × Node)}
    {result : Except TreeError Unit}
    (hmerge : ItemMerge item keys max schemas place entries result merged)
    (hfits : Fits (.list keys max schemas) (.list entries)) :
    Does (Json.effectOfItem? item (.list keys max schemas)) (list entries).contents result
      (list merged).contents := by
  match hmerge, hfits with
  | .notObject hother, _ =>
    cases item with
    | object fields => exact absurd rfl (hother fields)
    | _ => exact Does.error _
  | .noKeys hrefused, _ =>
    simp only [Json.effectOfItem?, SchemaNode.keyNames_list, entryKeys?_of_eq_error hrefused]
    exact Does.error _
  | .entry hread hobject, hfits =>
    simp only [Json.effectOfItem?, SchemaNode.keyNames_list, entryKeys?_of_eq_ok hread]
    exact (hobject.does (fits_entry_getD hfits _)).map fun _ => contents_insert_into hfits

end

end Node

end Telemetry
