import Telemetry.Path.Text
import Telemetry.Schema.Basic
import Telemetry.Tree.Basic
import Telemetry.Tree.Error

/-!
Walking a path: through the schema alone (`SchemaNode.locate`) and through a tree beside its
schema (`Node.locate`). Containers and list entries can be walked through; leaves and lists
without keys only end a path.
-/

namespace Telemetry

namespace Path

def textUpTo (path : Path) (count : Nat) : String :=
  (ofElems (path.elems.take count)).text

end Path

namespace SchemaNode

def childFor (schema : SchemaNode) (full : Path) (depth : Nat) (elem : PathElem) :
    Except TreeError SchemaNode :=
  match schema.child? elem.name with
  | some child => .ok child
  | none => .error (.unknownElement (full.textUpTo depth) elem.name)

def requireKeys (schema : SchemaNode) (full : Path) (elem : PathElem) : Except TreeError Unit :=
  let expected := schema.keyNames
  if expected.length = elem.keys.length ∧ expected.all (SortedMap.contains elem.keys ·) then .ok ()
  else .error (.keyMismatch full.text expected (SortedMap.keys elem.keys))

def requireNoKeys (full : Path) (elem : PathElem) : Except TreeError Unit :=
  if elem.keys.isEmpty then .ok () else .error (.unexpectedKeys full.text)

/-- Requires that a path may pass through, or if `isLast` end at, a child. -/
def requirePassable (child : SchemaNode) (full : Path) (depth : Nat) (elem : PathElem)
    (isLast : Bool) : Except TreeError Unit :=
  match child with
  | .list _ _ _ =>
    if !elem.keys.isEmpty then child.requireKeys full elem
    else if isLast then .ok ()
    else .error (.notTraversable (full.textUpTo (depth + 1)))
  | .leaf _ =>
    if isLast then requireNoKeys full elem
    else .error (.notTraversable (full.textUpTo (depth + 1)))
  | .container _ => requireNoKeys full elem

def locateFrom (full : Path) (schema : SchemaNode) (depth : Nat) :
    List PathElem → Except TreeError SchemaNode
  | [] => .ok schema
  | elem :: rest => do
    let child ← schema.childFor full depth elem
    child.requirePassable full depth elem rest.isEmpty
    locateFrom full child (depth + 1) rest

def locate (schema : SchemaNode) (path : Path) : Except TreeError SchemaNode :=
  locateFrom path schema 0 path.elems

end SchemaNode

namespace Node

/-- Walks from `node` along the elements of `full` from position `depth` on. A missing child ends
the walk before the rest of the path is looked at. -/
def locateFrom (full : Path) (schema : SchemaNode) (node : Node) (depth : Nat) :
    List PathElem → Except TreeError (Option Node)
  | [] => .ok (some node)
  | elem :: rest => do
    let childSchema ← schema.childFor full depth elem
    let .container children := node | .error (.kindMismatch (full.textUpTo depth))
    match SortedMap.get? children elem.name with
    | none => .ok none
    | some child =>
      match childSchema with
      | .container _ => do
        SchemaNode.requireNoKeys full elem
        locateFrom full childSchema child (depth + 1) rest
      | .leaf _ =>
        if !rest.isEmpty ∧ elem.keys.isEmpty then
          .error (.notTraversable (full.textUpTo (depth + 1)))
        else do
          SchemaNode.requireNoKeys full elem
          locateFrom full childSchema child (depth + 1) rest
      | .list _ _ _ =>
        if elem.keys.isEmpty then
          if rest.isEmpty then .ok (some child)
          else .error (.notTraversable (full.textUpTo (depth + 1)))
        else do
          childSchema.requireKeys full elem
          let .list entries := child | .error (.kindMismatch (full.textUpTo (depth + 1)))
          match SortedMap.get? entries elem.keys with
          | none => .ok none
          | some entry => locateFrom full childSchema entry (depth + 1) rest

/-- The node at a path, none when it or a node above it is absent. -/
def locate (schema : SchemaNode) (root : Node) (path : Path) : Except TreeError (Option Node) :=
  locateFrom path schema root 0 path.elems

end Node

end Telemetry
