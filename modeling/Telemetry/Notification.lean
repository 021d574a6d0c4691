import Telemetry.Path.Basic
import Telemetry.Value

/-!
Notifications: changes of one target at one time. Deleted and updated paths are relative to
the base path.
-/

namespace Telemetry

structure Update where
  path : Option Path
  value : Option TypedValue
  duplicates : UInt32

structure Notification where
  /-- Nanoseconds since the epoch. -/
  timestamp : Int64
  base : Option Path
  updates : List Update
  deletes : List Path
  atomic : Bool

namespace Update

def of (path : Path) (value : TypedValue) : Update :=
  ⟨some path, some value, 0⟩

end Update

namespace Notification

def empty : Notification :=
  ⟨0, none, [], [], false⟩

def isEmpty (n : Notification) : Bool :=
  n.deletes.isEmpty && n.updates.isEmpty

def basePath (n : Notification) : Path :=
  n.base.getD Path.root

def fullDeletes (n : Notification) : List Path :=
  n.deletes.map n.basePath.join

end Notification

end Telemetry
