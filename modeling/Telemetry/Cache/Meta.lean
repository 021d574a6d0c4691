import Telemetry.Cache.Target

/-!
What the cache says about its target, written as leaves of the cache's own container. A write that
the cache refuses is dropped.
-/

namespace Telemetry.CacheTarget

def metaUpdate (name : String) (value : TypedValue) : Update :=
  Update.of (Path.ofElems [PathElem.plain metaName, PathElem.plain name]) value

def size (t : CacheTarget) : Nat :=
  Wire.total (t.dataLeaves.map fun leaf => Wire.updateSize leaf.path leaf.value)

def statistics (t : CacheTarget) : List Update :=
  [metaUpdate "connected" (.bool t.connected),
    metaUpdate "sync" (.bool t.synced),
    metaUpdate "updateCount" (.uint (UInt64.ofNat t.updateCount)),
    metaUpdate "deleteCount" (.uint (UInt64.ofNat t.deleteCount)),
    metaUpdate "latestTimestamp" (.int t.latest),
    metaUpdate "leafCount" (.uint (UInt64.ofNat t.leafCount))]

def sizeUpdates (t : CacheTarget) : List Update :=
  [metaUpdate "size" (.uint (UInt64.ofNat t.size))]

/-- Writes updates of the cache's own leaves at a time; none when the cache refuses them. -/
def writeMeta (t : CacheTarget) (now : Int64) (updates : List Update) :
    Option (CacheTarget × Notification) :=
  (t.apply ⟨now, none, updates, [], false⟩).toOption

end Telemetry.CacheTarget
