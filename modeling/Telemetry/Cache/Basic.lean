import Telemetry.Cache.Meta

/-!
A cache of several targets with one listener. The listener, if there is one, is handed every
notification of changes that is not empty.
-/

namespace Telemetry

structure Cache where
  targets : List (String × CacheTarget)
  /-- The name of the listener. -/
  listener : Option String

structure Delivery where
  listener : String
  notification : Notification

namespace Cache

/-- The cache of some targets, all fresh, without listener. -/
def ofNames (names : List String) : Cache :=
  ⟨SortedMap.ofList (names.map fun name => (name, CacheTarget.fresh name)), none⟩

def target (cache : Cache) (name : String) : Except CacheError CacheTarget :=
  match SortedMap.get? cache.targets name with
  | some t => .ok t
  | none => .error (.unknownTarget name)

def names (cache : Cache) : List String :=
  SortedMap.keys cache.targets

def listen (cache : Cache) (listener : String) : Cache :=
  { cache with listener := some listener }

def update (cache : Cache) (t : CacheTarget) : Cache :=
  { cache with targets := SortedMap.insert cache.targets t.name t }

/-- What the listener is handed after a change. -/
def deliver (cache : Cache) (changes : Notification) : List Delivery :=
  match cache.listener with
  | some listener => if changes.isEmpty then [] else [⟨listener, changes⟩]
  | none => []

def apply (cache : Cache) (name : String) (n : Notification) :
    Except CacheError (Cache × List Delivery) := do
  let t ← cache.target name
  let (t, changes) ← t.apply n
  .ok (cache.update t, cache.deliver changes)

def writeMeta (cache : Cache) (name : String) (now : Int64)
    (updates : CacheTarget → List Update) : Except CacheError (Cache × List Delivery) := do
  let t ← cache.target name
  match t.writeMeta now (updates t) with
  | some (t, changes) => .ok (cache.update t, cache.deliver changes)
  | none => .ok (cache, [])

end Cache

end Telemetry
