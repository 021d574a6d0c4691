import Telemetry.Proofs.Cache.Apply
import Telemetry.Transaction

/-!
What a transaction comes to: the tree that its operations leave where all of them go through, and
the workspace that it leaves at any exit. A transaction that fails has touched its draft only.
-/

namespace Telemetry

namespace SetRequest

variable {schema : SchemaNode} {node : Node}

def write (schema : SchemaNode) (node : Node) (update : Update) : Except TreeError Node :=
  (applyWrite schema update).outcome node

def runDelete (schema : SchemaNode) (node : Node) (path : Path) : Except SetError Node :=
  (applyDelete schema path).outcome node

def runReplace (schema : SchemaNode) (node : Node) (update : Update) : Except SetError Node :=
  (applyReplace schema update).outcome node

def runUpdate (schema : SchemaNode) (node : Node) (update : Update) : Except SetError Node :=
  (applyUpdate schema update).outcome node

def runBelow (req : SetRequest) (schema : SchemaNode) (node : Node) : Except SetError Node :=
  (req.applyBelow schema).outcome node

def run (req : SetRequest) (schema : SchemaNode) (root : Node) : Except SetError Node :=
  (req.applyTo schema).outcome root

theorem write_eq (schema : SchemaNode) (node : Node) (update : Update) :
    write schema node update =
      match node.create schema (pathOf update) with
      | (.error e, _) => .error e
      | (.ok _, node) =>
        match node.put schema (pathOf update) (valueOf update) with
        | (.error e, _) => .error e
        | (.ok (), node) => .ok node := by
  rw [write, applyWrite, InPlace.outcome_bind, InPlace.on_ofEdit]
  cases node.create schema (pathOf update) with
  | mk created between =>
    cases created with
    | error e => rfl
    | ok found =>
      simp only [InPlace.outcome_ofEdit]
      cases between.put schema (pathOf update) (valueOf update) with
      | mk stored after => cases stored <;> rfl

theorem runDelete_eq (schema : SchemaNode) (node : Node) (path : Path) :
    runDelete schema node path =
      match node.erase schema path with
      | (.error e, _) => .error (.delete path.text e)
      | (.ok (), node) => .ok node := by
  rw [runDelete, applyDelete, InPlace.outcome_adapt, InPlace.outcome_ofEdit]
  cases node.erase schema path with
  | mk erased after => cases erased <;> rfl

theorem runReplace_eq (schema : SchemaNode) (node : Node) (update : Update) :
    runReplace schema node update =
      match node.erase schema (pathOf update) with
      | (.error e, _) => .error (.replace (pathOf update).text e)
      | (.ok (), node) =>
        (write schema node update).mapError (.replace (pathOf update).text) := by
  rw [runReplace, applyReplace, InPlace.outcome_adapt, InPlace.outcome_seq,
    InPlace.outcome_ofEdit]
  cases node.erase schema (pathOf update) with
  | mk erased after => cases erased <;> rfl

theorem runUpdate_eq (schema : SchemaNode) (node : Node) (update : Update) :
    runUpdate schema node update =
      (write schema node update).mapError (.update (pathOf update).text) :=
  InPlace.outcome_adapt _ (applyWrite schema update) node

theorem runBelow_eq (req : SetRequest) (schema : SchemaNode) (node : Node) :
    req.runBelow schema node = (do
      let node ← req.deletes.foldlM (runDelete schema) node
      let node ← req.replaces.foldlM (runReplace schema) node
      req.updates.foldlM (runUpdate schema) node) := by
  rw [runBelow, applyBelow, InPlace.outcome_seq, InPlace.outcome_forM]
  refine congrArg _ (funext fun deleted => ?_)
  rw [InPlace.outcome_seq, InPlace.outcome_forM]
  exact congrArg _ (funext fun replaced => InPlace.outcome_forM _ _ replaced)

/-- The operations go through one group after the other. -/
theorem runBelow_eq_ok {req : SetRequest} {schema : SchemaNode} {node after : Node} :
    req.runBelow schema node = .ok after ↔ ∃ deleted replaced,
      req.deletes.foldlM (runDelete schema) node = .ok deleted ∧
      req.replaces.foldlM (runReplace schema) deleted = .ok replaced ∧
      req.updates.foldlM (runUpdate schema) replaced = .ok after := by
  simp only [runBelow_eq, bind_eq_ok, exists_and_left]

theorem run_eq (req : SetRequest) (schema : SchemaNode) (root : Node) :
    req.run schema root =
      let base := (req.base.getD Path.root).bare
      match root.create schema base with
      | (.error e, _) => .error (.base base.text e)
      | (.ok (found, baseSchema), root) =>
        match startsAt base baseSchema, found with
        | true, some node => do
          let node ← req.runBelow baseSchema node
          .ok (root.replaceAt node (schema.stepsTo base.elems))
        | _, _ => .error (.baseNotContainer base.text) := by
  rw [run, applyTo]
  simp only [InPlace.outcome_bind, InPlace.on_adapt, InPlace.on_ofEdit]
  cases root.create schema (req.base.getD Path.root).bare with
  | mk created between =>
    cases created with
    | error e => rfl
    | ok place =>
      obtain ⟨found, baseSchema⟩ := place
      simp only [Except.mapError]
      cases startsAt (req.base.getD Path.root).bare baseSchema with
      | false => rfl
      | true =>
        cases found with
        | none => rfl
        | some node =>
          simp only [InPlace.outcome_onPart]
          rw [runBelow]
          cases (req.applyBelow baseSchema).outcome node <;> rfl

end SetRequest

/-- The state that a committed transaction leaves and what it published. -/
structure Committed where
  tree : Node
  target : CacheTarget
  outcome : SetOutcome
  /-- What changed in the cache. -/
  changes : Notification

namespace Transactor

/-- What a transaction makes of a committed tree and a cache where it goes through. -/
def transact (t : Transactor) (now : Int64) (tree : Option Node) (target : CacheTarget)
    (req : SetRequest) : Except SetError Committed := do
  let some before := tree | .error .unsupported
  let after ← req.run t.schema.root before
  (Node.validate t.schema.root after).mapError .validation
  let difference ← (Notification.ofDiff before after).mapError .diff
  let stamped := { difference with
    timestamp := now
    base := some ⟨(req.base.getD Path.root).origin, [], target.name⟩ }
  let notification ← (t.siblings.extend stamped).mapError .siblings
  let (target, changes) ← (target.apply notification).mapError .publish
  .ok ⟨after, target, ⟨notification, req.results⟩, changes⟩

/-- The draft as far as the operations of a request get. -/
def draftOf (t : Transactor) (req : SetRequest) (w : Workspace) : Node :=
  match w.committed with
  | some before => ((req.applyTo t.schema.root).on before).2
  | none => w.draft

/-- A transaction that fails, at whatever stage, leaves the committed tree, the cache and what the
listener has heard as they were; the draft may be half-made. One that goes through commits. -/
theorem on_carryOut (t : Transactor) (now : Int64) (req : SetRequest) (w : Workspace) :
    (t.carryOut now req).on w =
      match t.transact now w.committed w.cache.target req with
      | .error e => (.error e, { w with draft := t.draftOf req w })
      | .ok c => (.ok c.outcome, ⟨some c.tree, t.draftOf req w, c.target, w.cache.heard ++
          if c.changes.isEmpty then [] else [c.changes]⟩) := by
  obtain ⟨committed, draft, cache⟩ := w
  unfold carryOut
  cases committed with
  | none => rfl
  | some before =>
    simp only [InPlace.on_bind, InPlace.on_get, InPlace.on_modify, InPlace.on_onPart,
      InPlace.on_ofExcept, InPlace.on_adapt, transact, draftOf, SetRequest.run, InPlace.outcome]
    cases (req.applyTo t.schema.root).on before with
    | mk result after =>
      cases result with
      | error e => rfl
      | ok =>
        simp only [Except.map, ok_bind]
        cases Node.validate t.schema.root after with
        | error cause => rfl
        | ok =>
          simp only [Except.mapError, ok_bind]
          cases Notification.ofDiff before after with
          | error cause => rfl
          | ok difference =>
            simp only [ok_bind]
            generalize t.siblings.extend _ = extended
            cases extended with
            | error cause => rfl
            | ok notification =>
              simp only [ok_bind]
              rw [WatchedTarget.on_apply_eq]
              cases cache.target.apply notification <;> rfl

end Transactor

end Telemetry
