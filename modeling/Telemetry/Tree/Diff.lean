import Telemetry.Notification
import Telemetry.Path.Text
import Telemetry.Tree.Basic
import Telemetry.Tree.Error

/-!
The leaves of a tree with their paths, and the difference of two trees as a notification: the
leaves that are gone are deleted, those that are new or changed are updated, both in the order
of their path texts.
-/

namespace Telemetry

namespace Node

mutual

/-- The leaves at and below a node that stands at `above`. A list has no place of its own: its
entries stand at their keyed elements. -/
def leavesBelow : Node → List PathElem → List (Path × LeafValue)
  | .leaf value, above => [(Path.ofElems above, value)]
  | .container children, above => childLeaves children above
  | .list _, _ => []

def childLeaves : List (String × Node) → List PathElem → List (Path × LeafValue)
  | [], _ => []
  | (name, .list entries) :: rest, above =>
    entryLeaves entries name above ++ childLeaves rest above
  | (name, child) :: rest, above =>
    child.leavesBelow (above ++ [PathElem.plain name]) ++ childLeaves rest above

def entryLeaves : List (Keys × Node) → String → List PathElem → List (Path × LeafValue)
  | [], _, _ => []
  | (keys, entry) :: rest, name, above =>
    entry.leavesBelow (above ++ [⟨name, keys⟩]) ++ entryLeaves rest name above

end

def leaves (root : Node) : List (Path × LeafValue) :=
  root.leavesBelow []

def leavesByText (root : Node) : List (String × (Path × LeafValue)) :=
  SortedMap.ofList (root.leaves.map fun leaf => (leaf.1.text, leaf))

def isContainer : Node → Bool
  | .container _ => true
  | _ => false

end Node

namespace Notification

/-- What turns one tree into another; both have to start with a container. -/
def ofDiff (old new : Node) : Except TreeError Notification :=
  if old.isContainer && new.isContainer then
    let before := old.leavesByText
    let after := new.leavesByText
    let deletes := before.filter fun (text, _) => !SortedMap.contains after text
    let updates := after.filter fun (text, _, value) =>
      match SortedMap.get? before text with
      | some (_, previous) => !(previous == value)
      | none => true
    .ok { empty with
      deletes := deletes.map fun (_, path, _) => path
      updates := updates.map fun (_, path, value) => Update.of path value.toTyped }
  else .error (.kindMismatch "/")

end Notification

end Telemetry
