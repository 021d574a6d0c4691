import Telemetry.InPlace
import Telemetry.Notification
import Telemetry.Path.Text
import Telemetry.Wire

/-!
The cache of one target: the latest value of every leaf with the time it was written at, and
counters. Leaves are kept by the text of their paths. Applying a notification either changes
nothing or applies all of it, and says what changed in a notification of full paths.
-/

namespace Telemetry

inductive CacheError where
  | unknownTarget (name : String)
  | missingPath
  | missingValue (path : String)
  | stale (path : String) (cached received : Int64)
deriving DecidableEq, Repr

namespace CacheError

def message : CacheError → String
  | unknownTarget name => s!"unknown target {Text.quoted name}"
  | missingPath => "update without a path"
  | missingValue path => s!"update for {path} carries no value"
  | stale path cached received =>
    s!"update for {path} is stale: cached {cached.toInt}, received {received.toInt}"

end CacheError

structure CachedLeaf where
  path : Path
  value : TypedValue
  timestamp : Int64

structure CacheTarget where
  name : String
  leaves : List (String × CachedLeaf)
  connected : Bool
  synced : Bool
  updateCount : Nat
  deleteCount : Nat
  latest : Int64

def metaName : String := "meta"

namespace Path

def isMeta (path : Path) : Bool :=
  match path.elems with
  | [] => false
  | elem :: _ => elem.name == metaName

end Path

namespace CacheTarget

def fresh (name : String) : CacheTarget :=
  ⟨name, [], false, false, 0, 0, 0⟩

def connect (t : CacheTarget) : CacheTarget := { t with connected := true }

def markSynced (t : CacheTarget) : CacheTarget := { t with synced := true }

def dataLeaves (t : CacheTarget) : List CachedLeaf :=
  (SortedMap.values t.leaves).filter fun leaf => !leaf.path.isMeta

def leafCount (t : CacheTarget) : Nat :=
  t.dataLeaves.length

def base (t : CacheTarget) : Path :=
  { Path.root with target := t.name }

/-- The updates of a notification with their full paths; each has to have a path and a value. -/
def resolve (base : Path) : List Update → Except CacheError (List (Path × TypedValue))
  | [] => .ok []
  | update :: rest => do
    let some path := update.path | .error .missingPath
    let full := (base.join path).bare
    let some value := update.value | .error (.missingValue full.text)
    let resolved ← resolve base rest
    .ok ((full, value) :: resolved)

/-- Refuses updates of leaves that were written later. -/
def requireFresh (t : CacheTarget) (timestamp : Int64) :
    List (Path × TypedValue) → Except CacheError Unit
  | [] => .ok ()
  | (path, _) :: rest =>
    match SortedMap.get? t.leaves path.text with
    | some cached =>
      if timestamp < cached.timestamp then
        .error (.stale path.text cached.timestamp timestamp)
      else t.requireFresh timestamp rest
    | none => t.requireFresh timestamp rest

/-- Removes the leaves that match any of some patterns, pattern by pattern; gives the removed
paths in that order. -/
def removeMatches (leaves : List (String × CachedLeaf)) :
    List Path → List Path × List (String × CachedLeaf)
  | [] => ([], leaves)
  | pattern :: rest =>
    let hit := leaves.filter fun (_, leaf) => leaf.path.isMatch pattern
    let kept := leaves.filter fun (_, leaf) => !leaf.path.isMatch pattern
    let (removed, kept) := removeMatches kept rest
    (hit.map (fun (_, leaf) => leaf.path) ++ removed, kept)

def writeAll (timestamp : Int64) (leaves : List (String × CachedLeaf))
    (updates : List (Path × TypedValue)) : List (String × CachedLeaf) :=
  updates.foldl (fun leaves (path, value) =>
    SortedMap.insert leaves path.text ⟨path, value, timestamp⟩) leaves

end CacheTarget

/-- A target and what its listener has been handed. -/
structure WatchedTarget where
  target : CacheTarget
  heard : List Notification

namespace WatchedTarget

open CacheTarget

/-- Removes the leaves that match any of some patterns; gives their paths. -/
def remove (patterns : List Path) : StateM WatchedTarget (List Path) := do
  let w ← get
  let (removed, kept) := removeMatches w.target.leaves patterns
  set { w with target.leaves := kept }
  return removed

def write (timestamp : Int64) (updates : List (Path × TypedValue)) : StateM WatchedTarget Unit :=
  modify fun w => { w with target.leaves := writeAll timestamp w.target.leaves updates }

/-- Counts what was written and removed. What only writes to the cache's own container does not
count. -/
def count (timestamp : Int64) (updates : List (Path × TypedValue)) (removed : List Path) :
    StateM WatchedTarget Unit :=
  modify fun w =>
    if !updates.all (·.1.isMeta) || !removed.isEmpty then
      { w with target := { w.target with
        updateCount := w.target.updateCount + updates.length
        deleteCount := w.target.deleteCount + removed.length
        latest := if w.target.latest < timestamp then timestamp else w.target.latest } }
    else w

def notify (changes : Notification) : StateM WatchedTarget Unit :=
  modify fun w => { w with heard := w.heard ++ if changes.isEmpty then [] else [changes] }

/-- Applies deletes, then updates, and notifies the listener. Gives what changed. -/
def apply (n : Notification) : InPlace CacheError WatchedTarget Notification := do
  let updates ← .ofExcept (resolve n.basePath n.updates)
  .ofExcept ((← get).target.requireFresh n.timestamp updates)
  let removed ← remove (n.deletes.map fun path => (n.basePath.join path).bare)
  write n.timestamp updates
  count n.timestamp updates removed
  let changes : Notification :=
    ⟨n.timestamp, some (← get).target.base,
      updates.map fun (path, value) => Update.of path value, removed, n.atomic⟩
  notify changes
  return changes

end WatchedTarget

namespace CacheTarget

/-- What applying a notification makes of a target, and what changed. -/
def apply (t : CacheTarget) (n : Notification) :
    Except CacheError (CacheTarget × Notification) :=
  match (WatchedTarget.apply n).on ⟨t, []⟩ with
  | (.ok changes, w) => .ok (w.target, changes)
  | (.error e, _) => .error e

/-- The leaves that match any of the patterns, one notification per leaf, in the order of their
path texts. -/
def query (t : CacheTarget) (patterns : List Path) : List Notification :=
  ((SortedMap.values t.leaves).filter fun leaf => patterns.any leaf.path.isMatch).map fun leaf =>
    ⟨leaf.timestamp, some t.base, [Update.of leaf.path leaf.value], [], false⟩

end CacheTarget

end Telemetry
