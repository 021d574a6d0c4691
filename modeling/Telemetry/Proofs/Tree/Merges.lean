import Telemetry.Tree.Merge

/-!
What merging can do. Fields and items are merged one after the other up to the first that fails; a
field is a key, unknown, a leaf, or a container or a list that is merged in turn. What a merge does
and what it fails with is read off these cases.
-/

namespace Telemetry

theorem SchemaNode.keyNames_list (names : List String) (max : Option UInt64)
    (schemas : List (String × SchemaNode)) : (list names max schemas).keyNames = names :=
  rfl

namespace Node

mutual

/-- An object is merged into a node. The result and the node afterwards come last. -/
inductive ObjectMerge :
    Json → SchemaNode → String → Option Keys → Node → Except TreeError Unit → Node → Prop
  | fields {fields schema place entry children result merged}
      (merge : FieldsMerge fields schema place entry children result merged) :
      ObjectMerge (.object fields) schema place entry (.container children) result
        (.container merged)
  | notContainer {fields schema place entry node} (other : ∀ children, node ≠ .container children) :
      ObjectMerge (.object fields) schema place entry node
        (.error (.kindMismatch (placeText place))) node
  | notObject {json schema place entry node} (other : ∀ fields, json ≠ .object fields) :
      ObjectMerge json schema place entry node
        (.error (.invalidJson (placeText place) (.expectedObject json.kind))) node

inductive FieldsMerge :
    List (String × Json) → SchemaNode → String → Option Keys → List (String × Node) →
      Except TreeError Unit → List (String × Node) → Prop
  | done {schema place entry children} :
      FieldsMerge [] schema place entry children (.ok ()) children
  | stop {raw value rest schema place entry children e merged}
      (field : FieldMerge raw value schema place entry children (.error e) merged) :
      FieldsMerge ((raw, value) :: rest) schema place entry children (.error e) merged
  | next {raw value rest schema place entry children between result merged}
      (field : FieldMerge raw value schema place entry children (.ok ()) between)
      (others : FieldsMerge rest schema place entry between result merged) :
      FieldsMerge ((raw, value) :: rest) schema place entry children result merged

/-- One field is merged. A key, an unknown field and a value that is no scalar of the leaf leave the
children as they were. -/
inductive FieldMerge :
    String → Json → SchemaNode → String → Option Keys → List (String × Node) →
      Except TreeError Unit → List (String × Node) → Prop
  | key {raw value schema place entry children} (isKey : localName raw ∈ schema.keyNames) :
      FieldMerge raw value schema place entry children
        (requireAgreement place entry (localName raw) value) children
  | unknown {raw value schema place entry children} (notKey : localName raw ∉ schema.keyNames)
      (unknown : schema.child? (localName raw) = none) :
      FieldMerge raw value schema place entry children
        (.error (.unknownElement (placeText place) (localName raw))) children
  | noScalar {raw value schema place entry children leafSchema e}
      (notKey : localName raw ∉ schema.keyNames)
      (known : schema.child? (localName raw) = some (.leaf leafSchema))
      (refused : LeafValue.ofJson leafSchema.type value (place ++ "/" ++ localName raw) =
        .error e) :
      FieldMerge raw value schema place entry children (.error e) children
  | leaf {raw value schema place entry children leafSchema scalar}
      (notKey : localName raw ∉ schema.keyNames)
      (known : schema.child? (localName raw) = some (.leaf leafSchema))
      (read : LeafValue.ofJson leafSchema.type value (place ++ "/" ++ localName raw) =
        .ok scalar) :
      FieldMerge raw value schema place entry children (.ok ())
        (SortedMap.insert children (localName raw) (.leaf scalar))
  | container {raw value schema place entry children schemas result child}
      (notKey : localName raw ∉ schema.keyNames)
      (known : schema.child? (localName raw) = some (.container schemas))
      (merge : ObjectMerge value (.container schemas) (place ++ "/" ++ localName raw) none
        ((SortedMap.get? children (localName raw)).getD emptyContainer) result child) :
      FieldMerge raw value schema place entry children result
        (SortedMap.insert children (localName raw) child)
  | list {raw value schema place entry children names max schemas result child}
      (notKey : localName raw ∉ schema.keyNames)
      (known : schema.child? (localName raw) = some (.list names max schemas))
      (merge : ListMerge value names max schemas (place ++ "/" ++ localName raw)
        ((SortedMap.get? children (localName raw)).getD emptyList) result child) :
      FieldMerge raw value schema place entry children result
        (SortedMap.insert children (localName raw) child)

inductive ListMerge :
    Json → List String → Option UInt64 → List (String × SchemaNode) → String → Node →
      Except TreeError Unit → Node → Prop
  | items {items names max schemas place entries result merged}
      (merge : ItemsMerge items names max schemas place entries result merged) :
      ListMerge (.array items) names max schemas place (.list entries) result (.list merged)
  | notList {items names max schemas place node} (other : ∀ entries, node ≠ .list entries) :
      ListMerge (.array items) names max schemas place node (.error (.kindMismatch place)) node
  | notArray {json names max schemas place node} (other : ∀ items, json ≠ .array items) :
      ListMerge json names max schemas place node
        (.error (.invalidJson place (.expectedArray json.kind))) node

inductive ItemsMerge :
    List Json → List String → Option UInt64 → List (String × SchemaNode) → String →
      List (Keys × Node) → Except TreeError Unit → List (Keys × Node) → Prop
  | done {names max schemas place entries} :
      ItemsMerge [] names max schemas place entries (.ok ()) entries
  | stop {item rest names max schemas place entries e merged}
      (first : ItemMerge item names max schemas place entries (.error e) merged) :
      ItemsMerge (item :: rest) names max schemas place entries (.error e) merged
  | next {item rest names max schemas place entries between result merged}
      (first : ItemMerge item names max schemas place entries (.ok ()) between)
      (others : ItemsMerge rest names max schemas place between result merged) :
      ItemsMerge (item :: rest) names max schemas place entries result merged

/-- One item is merged, into the entry of the keys that it carries. -/
inductive ItemMerge :
    Json → List String → Option UInt64 → List (String × SchemaNode) → String →
      List (Keys × Node) → Except TreeError Unit → List (Keys × Node) → Prop
  | notObject {item names max schemas place entries} (other : ∀ fields, item ≠ .object fields) :
      ItemMerge item names max schemas place entries
        (.error (.invalidJson place (.expectedEntry item.kind))) entries
  | noKeys {fields names max schemas place entries e}
      (refused : entryKeys place fields names = .error e) :
      ItemMerge (.object fields) names max schemas place entries (.error e) entries
  | entry {fields names max schemas place entries pairs result entry}
      (read : entryKeys place fields names = .ok pairs)
      (merge : ObjectMerge (.object fields) (.list names max schemas) place
        (some (SortedMap.ofList pairs))
        ((SortedMap.get? entries (SortedMap.ofList pairs)).getD emptyContainer) result entry) :
      ItemMerge (.object fields) names max schemas place entries result
        (SortedMap.insert entries (SortedMap.ofList pairs) entry)

end

mutual

theorem objectMerge_mergeObject (json : Json) (schema : SchemaNode) (place : String)
    (entry : Option Keys) (node : Node) :
    ObjectMerge json schema place entry node (mergeObject json schema place entry node).1
      (mergeObject json schema place entry node).2 := by
  cases json with
  | object fields =>
    cases node with
    | container children =>
      exact .fields (fieldsMerge_mergeFields fields schema place entry children)
    | list entries => exact .notContainer fun _ h => by cases h
    | leaf value => exact .notContainer fun _ h => by cases h
  | _ => exact .notObject fun _ h => by cases h

theorem fieldsMerge_mergeFields (fields : List (String × Json)) (schema : SchemaNode)
    (place : String) (entry : Option Keys) (children : List (String × Node)) :
    FieldsMerge fields schema place entry children
      (mergeFields fields schema place entry children).1
      (mergeFields fields schema place entry children).2 := by
  cases fields with
  | nil => exact .done
  | cons field rest =>
    obtain ⟨raw, value⟩ := field
    have hrest := fieldsMerge_mergeFields rest schema place entry
    unfold mergeFields
    by_cases hkey : localName raw ∈ schema.keyNames
    · have hfield : FieldMerge raw value schema place entry children _ _ := .key hkey
      simp only [if_pos hkey]
      cases hagrees : requireAgreement place entry (localName raw) value with
      | error e =>
        rw [hagrees] at hfield
        exact .stop hfield
      | ok =>
        rw [hagrees] at hfield
        exact .next hfield (hrest children)
    · simp only [if_neg hkey]
      cases hchild : schema.child? (localName raw) with
      | none => exact .stop (.unknown hkey hchild)
      | some childSchema =>
        cases childSchema with
        | leaf leafSchema =>
          simp only
          cases hscalar : LeafValue.ofJson leafSchema.type value
            (place ++ "/" ++ localName raw) with
          | error e => exact .stop (.noScalar hkey hchild hscalar)
          | ok scalar => exact .next (.leaf hkey hchild hscalar) (hrest _)
        | container schemas =>
          have hmerge := objectMerge_mergeObject value (.container schemas)
            (place ++ "/" ++ localName raw) none
            ((SortedMap.get? children (localName raw)).getD emptyContainer)
          simp only
          split <;> rename_i hresult <;> rw [hresult] at hmerge
          · exact .stop (.container hkey hchild hmerge)
          · exact .next (.container hkey hchild hmerge) (hrest _)
        | list names max schemas =>
          have hmerge := listMerge_mergeList value names max schemas
            (place ++ "/" ++ localName raw)
            ((SortedMap.get? children (localName raw)).getD emptyList)
          simp only
          split <;> rename_i hresult <;> rw [hresult] at hmerge
          · exact .stop (.list hkey hchild hmerge)
          · exact .next (.list hkey hchild hmerge) (hrest _)

theorem listMerge_mergeList (json : Json) (names : List String) (max : Option UInt64)
    (schemas : List (String × SchemaNode)) (place : String) (node : Node) :
    ListMerge json names max schemas place node
      (mergeList json (.list names max schemas) place node).1
      (mergeList json (.list names max schemas) place node).2 := by
  cases json with
  | array items =>
    cases node with
    | list entries => exact .items (itemsMerge_mergeItems items names max schemas place entries)
    | container children => exact .notList fun _ h => by cases h
    | leaf value => exact .notList fun _ h => by cases h
  | _ => exact .notArray fun _ h => by cases h

theorem itemsMerge_mergeItems (items : List Json) (names : List String) (max : Option UInt64)
    (schemas : List (String × SchemaNode)) (place : String) (entries : List (Keys × Node)) :
    ItemsMerge items names max schemas place entries
      (mergeItems items (.list names max schemas) place entries).1
      (mergeItems items (.list names max schemas) place entries).2 := by
  cases items with
  | nil => exact .done
  | cons item rest =>
    cases item with
    | object fields =>
      unfold mergeItems
      simp only [SchemaNode.keyNames_list]
      cases hkeys : entryKeys place fields names with
      | error e => exact .stop (.noKeys hkeys)
      | ok pairs =>
        have hmerge := objectMerge_mergeObject (.object fields) (.list names max schemas) place
          (some (SortedMap.ofList pairs))
          ((SortedMap.get? entries (SortedMap.ofList pairs)).getD emptyContainer)
        simp only
        split <;> rename_i hresult <;> rw [hresult] at hmerge
        · exact .stop (.entry hkeys hmerge)
        · exact .next (.entry hkeys hmerge)
            (itemsMerge_mergeItems rest names max schemas place _)
    | _ => exact .stop (.notObject fun _ h => by cases h)

end

end Node

end Telemetry
