import Telemetry.Tree.Conversion
import Telemetry.Tree.Edit

/-!
Filling in defaults: every leaf with a default that is absent from an existing container or list
entry gets its default value. Nothing else is created.
-/

namespace Telemetry.Node

/-- Runs an edit on the entries of a list one by one up to the first that fails. -/
def editEntries (edit : Node → Edited Unit Node) :
    List (Keys × Node) → Edited Unit (List (Keys × Node))
  | [] => (.ok (), [])
  | (keys, entry) :: rest =>
    match edit entry with
    | (.error e, entry) => (.error e, (keys, entry) :: rest)
    | (.ok (), entry) =>
      let (result, rest) := editEntries edit rest
      (result, (keys, entry) :: rest)

mutual

def fillNode : SchemaNode → String → Node → Edited Unit Node
  | .leaf _, _, node => (.ok (), node)
  | .container schemas, place, node => fillChildrenOf schemas place node
  | .list _ _ schemas, place, node => fillChildrenOf schemas place node

/-- Fills in the defaults of a node that has to be a container. -/
def fillChildrenOf : List (String × SchemaNode) → String → Node → Edited Unit Node
  | schemas, place, .container children =>
    let (result, children) := fillChildren schemas place children
    (result, .container children)
  | _, place, node => (.error (.kindMismatch (placeText place)), node)

def fillChildren : List (String × SchemaNode) → String → List (String × Node) →
    Edited Unit (List (String × Node))
  | [], _, children => (.ok (), children)
  | (name, schema) :: rest, place, children =>
    let childPlace := place ++ "/" ++ name
    match schema with
    | .leaf leafSchema =>
      match leafSchema.default, SortedMap.get? children name with
      | some default, none =>
        match LeafValue.ofJson leafSchema.type default childPlace with
        | .error e => (.error e, children)
        | .ok value => fillChildren rest place (SortedMap.insert children name (.leaf value))
      | _, _ => fillChildren rest place children
    | .container schemas =>
      match SortedMap.get? children name with
      | none => fillChildren rest place children
      | some child =>
        match fillChildrenOf schemas childPlace child with
        | (.error e, child) => (.error e, SortedMap.insert children name child)
        | (.ok (), child) => fillChildren rest place (SortedMap.insert children name child)
    | .list _ _ schemas =>
      match SortedMap.get? children name with
      | some (.list entries) =>
        match editEntries (fillChildrenOf schemas childPlace) entries with
        | (.error e, entries) => (.error e, SortedMap.insert children name (.list entries))
        | (.ok (), entries) =>
          fillChildren rest place (SortedMap.insert children name (.list entries))
      | _ => fillChildren rest place children

end

def fillDefaults (schema : SchemaNode) (root : Node) : Edited Unit Node :=
  fillNode schema "" root

end Telemetry.Node
