import Telemetry.Tree.Conversion
import Telemetry.Tree.Edit

/-!
Storing values in a tree. A leaf takes a scalar; a container or list entry takes a JSON object
that is merged into what is there; a list takes an array of entries that carry their key
fields. Field names may have a module qualifier, which ends at the first colon.
-/

namespace Telemetry

/-- A field name without its module qualifier. -/
def localName (name : String) : String :=
  match name.toList.dropWhile (· != ':') with
  | [] => name
  | _ :: rest => String.ofList rest

/-- The key values that an entry of an array carries, in the order of the key names. -/
def entryKeys (place : String) (fields : List (String × Json)) :
    List String → Except TreeError Keys
  | [] => .ok []
  | key :: rest => do
    let some (_, value) := fields.find? fun field => localName field.1 == key
      | .error (.invalidJson place (.missingKey key))
    let text ← value.keyText place
    let keys ← entryKeys place fields rest
    .ok ((key, text) :: keys)

/-- Requires that a key field agrees with the keys of the entry that it stands in. -/
def requireAgreement (place : String) (entry : Option Keys) (name : String) (value : Json) :
    Except TreeError Unit :=
  match entry.bind (SortedMap.get? · name) with
  | none => .ok ()
  | some expected => do
    let given ← value.keyText place
    if given = expected then .ok ()
    else .error (.invalidJson (placeText place) (.differingKey name))

namespace Node

mutual

/-- Merges an object into a container or list entry. Key fields of an entry are not stored; they
only have to agree with its keys, if those are known. -/
def mergeObject : Json → SchemaNode → String → Option Keys → Node → Edited Unit Node
  | .object fields, schema, place, entry, node =>
    match node with
    | .container children =>
      let (result, children) := mergeFields fields schema place entry children
      (result, .container children)
    | _ => (.error (.kindMismatch (placeText place)), node)
  | json, _, place, _, node =>
    (.error (.invalidJson (placeText place) (.expectedObject json.kind)), node)

def mergeFields : List (String × Json) → SchemaNode → String → Option Keys →
    List (String × Node) → Edited Unit (List (String × Node))
  | [], _, _, _, children => (.ok (), children)
  | (raw, value) :: rest, schema, place, entry, children =>
    let name := localName raw
    if name ∈ schema.keyNames then
      match requireAgreement place entry name value with
      | .error e => (.error e, children)
      | .ok () => mergeFields rest schema place entry children
    else
      let childPlace := place ++ "/" ++ name
      match schema.child? name with
      | none => (.error (.unknownElement (placeText place) name), children)
      | some (.leaf leafSchema) =>
        match LeafValue.ofJson leafSchema.type value childPlace with
        | .error e => (.error e, children)
        | .ok scalar =>
          mergeFields rest schema place entry (SortedMap.insert children name (.leaf scalar))
      | some (.container grandchildren) =>
        let child := (SortedMap.get? children name).getD emptyContainer
        match mergeObject value (.container grandchildren) childPlace none child with
        | (.error e, child) => (.error e, SortedMap.insert children name child)
        | (.ok (), child) =>
          mergeFields rest schema place entry (SortedMap.insert children name child)
      | some (.list keys max grandchildren) =>
        let child := (SortedMap.get? children name).getD emptyList
        match mergeList value (.list keys max grandchildren) childPlace child with
        | (.error e, child) => (.error e, SortedMap.insert children name child)
        | (.ok (), child) =>
          mergeFields rest schema place entry (SortedMap.insert children name child)

def mergeList : Json → SchemaNode → String → Node → Edited Unit Node
  | .array items, schema, place, node =>
    match node with
    | .list entries =>
      let (result, entries) := mergeItems items schema place entries
      (result, .list entries)
    | _ => (.error (.kindMismatch place), node)
  | json, _, place, node =>
    (.error (.invalidJson place (.expectedArray json.kind)), node)

def mergeItems : List Json → SchemaNode → String → List (Keys × Node) →
    Edited Unit (List (Keys × Node))
  | [], _, _, entries => (.ok (), entries)
  | item :: rest, schema, place, entries =>
    match item with
    | .object fields =>
      match entryKeys place fields schema.keyNames with
      | .error e => (.error e, entries)
      | .ok pairs =>
        let keys : Keys := SortedMap.ofList pairs
        let entry := (SortedMap.get? entries keys).getD emptyContainer
        match mergeObject item schema place (some keys) entry with
        | (.error e, entry) => (.error e, SortedMap.insert entries keys entry)
        | (.ok (), entry) => mergeItems rest schema place (SortedMap.insert entries keys entry)
    | other => (.error (.invalidJson place (.expectedEntry other.kind)), entries)

end

def putLast (path : Path) (last : PathElem) (value : TypedValue) : ChildEdit Unit :=
  fun schema children =>
    match schema.childFor path (path.elems.length - 1) last with
    | .error e => (.error e, children)
    | .ok childSchema =>
      match childSchema with
      | .leaf leafSchema =>
        match SchemaNode.requireNoKeys path last with
        | .error e => (.error e, children)
        | .ok () =>
          match LeafValue.ofTyped leafSchema.type value path.text with
          | .error e => (.error e, children)
          | .ok scalar => (.ok (), SortedMap.insert children last.name (.leaf scalar))
      | .container _ =>
        match SchemaNode.requireNoKeys path last with
        | .error e => (.error e, children)
        | .ok () =>
          match Json.ofTyped value path.text with
          | .error e => (.error e, children)
          | .ok json =>
            let child := (SortedMap.get? children last.name).getD emptyContainer
            let (result, child) := mergeObject json childSchema path.text none child
            (result, SortedMap.insert children last.name child)
      | .list _ _ _ =>
        let list := (SortedMap.get? children last.name).getD emptyList
        if last.keys.isEmpty then
          match Json.ofTyped value path.text with
          | .error e => (.error e, children)
          | .ok json =>
            let (result, list) := mergeList json childSchema path.text list
            (result, SortedMap.insert children last.name list)
        else
          match childSchema.requireKeys path last with
          | .error e => (.error e, children)
          | .ok () =>
            match Json.ofTyped value path.text with
            | .error e => (.error e, children)
            | .ok json =>
              match list with
              | .list entries =>
                let entry := (SortedMap.get? entries last.keys).getD emptyContainer
                let (result, entry) :=
                  mergeObject json childSchema path.text (some last.keys) entry
                (result, SortedMap.insert children last.name
                  (.list (SortedMap.insert entries last.keys entry)))
              | _ => (.error (.kindMismatch path.text), children)

/-- Stores a value at a path, creating what is missing above it. -/
def put (schema : SchemaNode) (root : Node) (path : Path) (value : TypedValue) :
    Edited Unit Node :=
  match schema.locate path with
  | .error e => (.error e, root)
  | .ok _ =>
    match path.elems.getLast? with
    | none =>
      match Json.ofTyped value path.text with
      | .error e => (.error e, root)
      | .ok json => mergeObject json schema "" none root
    | some last =>
      requireReached path
        (editBelow true path (putLast path last value) schema root 0 path.elems.dropLast)

end Node

end Telemetry
