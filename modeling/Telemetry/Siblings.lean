import Telemetry.Notification
import Telemetry.Path.Text

/-!
State containers and their config siblings. A leaf in a state container has a sibling at the
same path with the container renamed; a notification is extended so that every change of a state
leaf also changes its sibling.
-/

namespace Telemetry

structure Siblings where
  state : String
  config : String

inductive SiblingError where
  | nonStateDelete (path sentinel : String)
  | nonStateUpdate (path sentinel : String)
  | tooShort (path sentinel : String)
deriving DecidableEq, Repr

namespace SiblingError

def message : SiblingError → String
  | nonStateDelete path sentinel => s!"unexpected non-{sentinel} value for deletion at {path}"
  | nonStateUpdate path sentinel => s!"unexpected non-{sentinel} value for update at {path}"
  | tooShort path sentinel => s!"path {path} is too short to carry a {sentinel} container"

end SiblingError

namespace Siblings

def standard : Siblings := ⟨"state", "config"⟩

/-- Renames the parent of the last element if it is the state container. -/
def renameParent (s : Siblings) : List PathElem → Option (List PathElem)
  | [parent, last] =>
    if parent.name = s.state then some [{ parent with name := s.config }, last] else none
  | elem :: rest => (s.renameParent rest).map (elem :: ·)
  | [] => none

/-- The sibling of a state leaf; `notState` is the error for other leaves. -/
def siblingOf (s : Siblings) (notState : String → String → SiblingError) (path : Path) :
    Except SiblingError Path :=
  if path.elems.length < 2 then .error (.tooShort path.text s.state)
  else
    match s.renameParent path.elems with
    | some elems => .ok { path with elems := elems }
    | none => .error (notState path.text s.state)

def siblingUpdate (s : Siblings) (update : Update) : Except SiblingError Update :=
  (s.siblingOf .nonStateUpdate (update.path.getD Path.root)).map fun path =>
    { update with path := some path }

/-- Extends a notification to the siblings: their deletes go before its own, their updates after
its own. The first path outside of a state container is an error, deletes looked at first. -/
def extend (s : Siblings) (n : Notification) : Except SiblingError Notification := do
  let deletes ← n.deletes.mapM (s.siblingOf .nonStateDelete)
  let updates ← n.updates.mapM s.siblingUpdate
  .ok { n with deletes := deletes ++ n.deletes, updates := n.updates ++ updates }

end Siblings

end Telemetry
