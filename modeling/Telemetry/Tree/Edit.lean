import Telemetry.Tree.Locate

/-!
Schema-directed creation and deletion. An edit returns its result together with the tree that it
leaves behind, also when it fails half way.
-/

namespace Telemetry

/-- The result of an edit of a `σ` and what the edit made of it. -/
abbrev Edited (α σ : Type) := Except TreeError α × σ

/-- One step down a tree: to a child, or to an entry of a list among the children. -/
inductive Step where
  | child (name : String)
  | entry (name : String) (keys : Keys)
deriving DecidableEq, Repr

namespace Step

def ofElem (childSchema : SchemaNode) (elem : PathElem) : Step :=
  match childSchema with
  | .list _ _ _ => .entry elem.name elem.keys
  | _ => .child elem.name

end Step

namespace SchemaNode

/-- Requires that a path may continue below a child, and gives the step to it. -/
def stepInto (schema : SchemaNode) (full : Path) (depth : Nat) (elem : PathElem) :
    Except TreeError (SchemaNode × Step) := do
  let child ← schema.childFor full depth elem
  child.requirePassable full depth elem false
  .ok (child, Step.ofElem child elem)

end SchemaNode

namespace Node

/-- What stands one step below a container; with `create` an empty container where nothing
does. -/
def enter (create : Bool) (full : Path) (depth : Nat) (node : Node) (step : Step) :
    Except TreeError (Option Node) :=
  let absent : Except TreeError (Option Node) :=
    .ok (if create then some emptyContainer else none)
  match node with
  | .container children =>
    match step with
    | .child name =>
      match SortedMap.get? children name with
      | some child => .ok (some child)
      | none => absent
    | .entry name keys =>
      match SortedMap.get? children name with
      | some (.list entries) =>
        match SortedMap.get? entries keys with
        | some entry => .ok (some entry)
        | none => absent
      | some _ => .error (.kindMismatch full.text)
      | none => absent
  | _ => .error (.kindMismatch (full.textUpTo depth))

/-- Puts `sub` one step below a container, in a new list if there is none yet. -/
def store (node : Node) (step : Step) (sub : Node) : Node :=
  match node with
  | .container children =>
    match step with
    | .child name => .container (SortedMap.insert children name sub)
    | .entry name keys =>
      let entries :=
        match SortedMap.get? children name with
        | some (.list entries) => entries
        | _ => []
      .container (SortedMap.insert children name (.list (SortedMap.insert entries keys sub)))
  | other => other

abbrev ChildEdit (α : Type) :=
  SchemaNode → List (String × Node) → Edited α (List (String × Node))

/-- Runs `edit` on the children of the container or list entry that the elements of `full` from
position `depth` on lead to, `elems` being all of them but the last. With `create` missing
nodes on the way are made; else the result is `none` when one is missing. -/
def editBelow {α : Type} (create : Bool) (full : Path) (edit : ChildEdit α)
    (schema : SchemaNode) (node : Node) (depth : Nat) :
    List PathElem → Edited (Option α) Node
  | [] =>
    match node with
    | .container children =>
      let (result, children) := edit schema children
      (result.map some, .container children)
    | _ => (.error (.kindMismatch (full.textUpTo depth)), node)
  | elem :: rest =>
    match schema.stepInto full depth elem with
    | .error e => (.error e, node)
    | .ok (childSchema, step) =>
      match node.enter create full depth step with
      | .error e => (.error e, node)
      | .ok none => (.ok none, node)
      | .ok (some sub) =>
        let (result, sub) := editBelow create full edit childSchema sub (depth + 1) rest
        (result, node.store step sub)

/-- The edit that creates what the last element names: a container, a list or a list entry.
A leaf is looked up and never created. -/
def createLast (path : Path) (last : PathElem) : ChildEdit (Option Node × SchemaNode) :=
  fun schema children =>
    match schema.childFor path (path.elems.length - 1) last with
    | .error e => (.error e, children)
    | .ok childSchema =>
      match childSchema with
      | .leaf _ =>
        ((SchemaNode.requireNoKeys path last).map fun _ =>
          (SortedMap.get? children last.name, childSchema), children)
      | .container _ =>
        match SchemaNode.requireNoKeys path last with
        | .error e => (.error e, children)
        | .ok () =>
          let child := (SortedMap.get? children last.name).getD emptyContainer
          (.ok (some child, childSchema), SortedMap.insert children last.name child)
      | .list _ _ _ =>
        let list := (SortedMap.get? children last.name).getD emptyList
        let listed := SortedMap.insert children last.name list
        if last.keys.isEmpty then (.ok (some list, childSchema), listed)
        else
          match childSchema.requireKeys path last, list with
          | .error e, _ => (.error e, listed)
          | .ok (), .list entries =>
            let entry := (SortedMap.get? entries last.keys).getD emptyContainer
            (.ok (some entry, childSchema),
              SortedMap.insert children last.name
                (.list (SortedMap.insert entries last.keys entry)))
          | .ok (), _ => (.error (.kindMismatch path.text), listed)

/-- Makes an edit below created ancestors fail where it has to have a place to run. -/
def requireReached {α : Type} (path : Path) (outcome : Edited (Option α) Node) : Edited α Node :=
  match outcome with
  | (.ok (some result), node) => (.ok result, node)
  | (.ok none, node) => (.error (.kindMismatch path.text), node)
  | (.error e, node) => (.error e, node)

/-- The node at a path with its schema, all missing containers, lists and entries up to it being
created. Only a leaf may be absent still. -/
def create (schema : SchemaNode) (root : Node) (path : Path) :
    Edited (Option Node × SchemaNode) Node :=
  match schema.locate path with
  | .error e => (.error e, root)
  | .ok _ =>
    match path.elems.getLast? with
    | none => (.ok (some root, schema), root)
    | some last =>
      requireReached path
        (editBelow true path (createLast path last) schema root 0 path.elems.dropLast)

def eraseLast (path : Path) (last : PathElem) : ChildEdit Unit :=
  fun schema children =>
    match schema.childFor path (path.elems.length - 1) last with
    | .error e => (.error e, children)
    | .ok childSchema =>
      match childSchema with
      | .list _ _ _ =>
        if last.keys.isEmpty then (.ok (), SortedMap.erase children last.name)
        else
          match childSchema.requireKeys path last with
          | .error e => (.error e, children)
          | .ok () =>
            match SortedMap.get? children last.name with
            | none => (.ok (), children)
            | some (.list entries) =>
              (.ok (), SortedMap.insert children last.name
                (.list (SortedMap.erase entries last.keys)))
            | some _ => (.error (.kindMismatch path.text), children)
      | _ =>
        match SchemaNode.requireNoKeys path last with
        | .error e => (.error e, children)
        | .ok () => (.ok (), SortedMap.erase children last.name)

/-- Removes the node at a path; nothing there to remove is no error. The empty path empties the
whole tree. -/
def erase (schema : SchemaNode) (root : Node) (path : Path) : Edited Unit Node :=
  match path.elems.getLast? with
  | none => (.ok (), emptyContainer)
  | some last =>
    let (result, node) :=
      editBelow false path (eraseLast path last) schema root 0 path.elems.dropLast
    (result.map fun _ => (), node)

end Node

end Telemetry
