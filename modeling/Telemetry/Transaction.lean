import Telemetry.Cache.Target
import Telemetry.Schema.Check
import Telemetry.Siblings
import Telemetry.Tree.Diff
import Telemetry.Tree.Merge

/-!
Transactions on a device tree. The deletes, replaces and updates of a request run in this order on
a copy of the committed tree; the copy is checked, its difference from the committed tree is
extended to the siblings and handed to the cache, and only then it is committed.
-/

namespace Telemetry

/-- A request; its paths are relative to the base path. -/
structure SetRequest where
  base : Option Path
  deletes : List Path
  replaces : List Update
  updates : List Update

inductive Operation where
  | delete
  | replace
  | update
deriving DecidableEq, Repr

/-- What a committed transaction published, and its operations in the order they ran. -/
structure SetOutcome where
  notification : Notification
  results : List (Path × Operation)

inductive SetError where
  | unsupported
  | base (path : String) (cause : TreeError)
  | baseNotContainer (path : String)
  | delete (path : String) (cause : TreeError)
  | replace (path : String) (cause : TreeError)
  | update (path : String) (cause : TreeError)
  | validation (cause : TreeError)
  | diff (cause : TreeError)
  | siblings (cause : SiblingError)
  | publish (cause : CacheError)

namespace SetError

def message : SetError → String
  | unsupported => "collector is not configured for Set"
  | base path cause => s!"failed to resolve prefix {path}: {cause.message}"
  | baseNotContainer path => s!"prefix {path} does not address a container"
  | delete path cause => s!"delete of {path} failed: {cause.message}"
  | replace path cause => s!"replace of {path} failed: {cause.message}"
  | update path cause => s!"update of {path} failed: {cause.message}"
  | validation cause => s!"invalid SetRequest: {cause.message}"
  | diff cause => s!"failed to compute update notification: {cause.message}"
  | siblings cause => cause.message
  | publish cause => s!"failed to publish update notification: {cause.message}"

def stage : SetError → String
  | unsupported => "unsupported"
  | base _ _ => "prefix"
  | baseNotContainer _ => "prefix"
  | delete _ _ => "mutation"
  | replace _ _ => "mutation"
  | update _ _ => "mutation"
  | validation _ => "validation"
  | diff _ => "diff"
  | siblings _ => "rewrite"
  | publish _ => "publish"

end SetError

namespace SchemaNode

def stepsTo (schema : SchemaNode) : List PathElem → List Step
  | [] => []
  | elem :: rest =>
    match schema.child? elem.name with
    | some child => Step.ofElem child elem :: stepsTo child rest
    | none => []

end SchemaNode

namespace Node

def below? : Node → Step → Option Node
  | .container children, .child name => SortedMap.get? children name
  | .container children, .entry name keys =>
    match SortedMap.get? children name with
    | some (.list entries) => SortedMap.get? entries keys
    | _ => none
  | _, _ => none

def replaceAt (node sub : Node) : List Step → Node
  | [] => sub
  | step :: rest =>
    match node.below? step with
    | some next => node.store step (next.replaceAt sub rest)
    | none => node

end Node

namespace SetRequest

def pathOf (update : Update) : Path :=
  update.path.getD Path.root

def valueOf (update : Update) : TypedValue :=
  update.value.getD .empty

def applyWrite (schema : SchemaNode) (update : Update) : InPlace TreeError Node Unit := do
  let _ ← .ofEdit fun node => node.create schema (pathOf update)
  .ofEdit fun node => node.put schema (pathOf update) (valueOf update)

def applyDelete (schema : SchemaNode) (path : Path) : InPlace SetError Node Unit :=
  .adapt (.delete path.text) <| .ofEdit fun node => node.erase schema path

def applyReplace (schema : SchemaNode) (update : Update) : InPlace SetError Node Unit :=
  .adapt (.replace (pathOf update).text) do
    .ofEdit fun node => node.erase schema (pathOf update)
    applyWrite schema update

def applyUpdate (schema : SchemaNode) (update : Update) : InPlace SetError Node Unit :=
  .adapt (.update (pathOf update).text) (applyWrite schema update)

def applyBelow (req : SetRequest) (schema : SchemaNode) : InPlace SetError Node Unit := do
  req.deletes.forM (applyDelete schema)
  req.replaces.forM (applyReplace schema)
  req.updates.forM (applyUpdate schema)

def results (req : SetRequest) : List (Path × Operation) :=
  req.deletes.map (·, .delete) ++ req.replaces.map (pathOf ·, .replace)
    ++ req.updates.map (pathOf ·, .update)

/-- Whether operations may start at what a base path addresses: a container or a list entry. -/
def startsAt (base : Path) : SchemaNode → Bool
  | .container _ => true
  | .list _ _ _ => (base.elems.getLast?.map fun e => !e.keys.isEmpty).getD false
  | .leaf _ => false

/-- Runs the operations on a tree. What the base path addresses is created if it is missing. An
operation that fails leaves the tree half-made. -/
def applyTo (req : SetRequest) (schema : SchemaNode) : InPlace SetError Node Unit := do
  let base := (req.base.getD Path.root).bare
  let (found, baseSchema) ←
    .adapt (.base base.text) <| .ofEdit fun root => root.create schema base
  match startsAt base baseSchema, found with
  | true, some node =>
    .onPart (fun _ => node) (fun node root => root.replaceAt node (schema.stepsTo base.elems))
      (req.applyBelow baseSchema)
  | _, _ => throw (.baseNotContainer base.text)

end SetRequest

structure Transactor where
  schema : Schema
  siblings : Siblings

/-- What a transaction changes: the committed tree, the copy of it that takes the operations, and
the cache. -/
structure Workspace where
  committed : Option Node
  draft : Node
  cache : WatchedTarget

namespace Transactor

/-- Runs a transaction. The committed tree is replaced at the very end, after the cache has taken
the difference. -/
def carryOut (t : Transactor) (now : Int64) (req : SetRequest) :
    InPlace SetError Workspace SetOutcome := do
  let some before := (← get).committed | throw .unsupported
  modify fun w => { w with draft := before }
  .onPart (·.draft) (fun draft w => { w with draft }) (req.applyTo t.schema.root)
  let after := (← get).draft
  .ofExcept ((Node.validate t.schema.root after).mapError .validation)
  let difference ← .ofExcept ((Notification.ofDiff before after).mapError .diff)
  let stamped := { difference with
    timestamp := now
    base := some ⟨(req.base.getD Path.root).origin, [], (← get).cache.target.name⟩ }
  let notification ← .ofExcept ((t.siblings.extend stamped).mapError .siblings)
  let _ ← .onPart (·.cache) (fun cache w => { w with cache }) <|
    .adapt .publish (WatchedTarget.apply notification)
  modify fun w => { w with committed := some after }
  return ⟨notification, req.results⟩

end Transactor

end Telemetry
