import Telemetry.Proofs.Service.Start
import Telemetry.Proofs.Transaction.Publication
import Telemetry.Proofs.Tree.Conforms
import Telemetry.Proofs.Tree.Patch

/-!
What holds of the committed tree in every state of a collector, whatever happens to it. The tree
conforms to the schema and its doubles are finite, though nothing but the conversion of values
looks at finiteness. And all its leaves outside of state containers are those of the default
root: a transaction may change them on its copy of the tree, but then it is not committed.
-/

namespace Telemetry

structure Node.IsValid (schema : SchemaNode) (tree : Node) : Prop where
  place : Node.IsPlace schema tree
  conforms : Node.Conforms schema tree
  finite : ∀ elems value, tree.leafAt? elems = some value → value.IsFinite

theorem Node.IsValid.hasFiniteLeaves {schema : SchemaNode} {tree : Node}
    (h : Node.IsValid schema tree) : tree.HasFiniteLeaves := by
  intro leaf hleaf
  have hvalue := ((Node.mem_leaves_iff h.place).mp hleaf).2
  exact h.finite leaf.1.elems leaf.2 hvalue

theorem Schema.isValid_defaultRoot {schema : Schema} {root : Node}
    (h : schema.defaultRoot = .ok root) : Node.IsValid schema.root root := by
  obtain ⟨hplace, children, rfl, hleaves⟩ := defaultRoot_spec h
  refine ⟨hplace, Node.validate_eq_ok_iff_conforms.mp (defaultRoot_eq_ok.mp h).2, ?_⟩
  intro elems value hvalue
  exact (hleaves.wellFormed elems value hvalue).2

namespace Transactor

variable {t : Transactor} {now : Int64} {before : Node} {target : CacheTarget} {req : SetRequest}
  {c : Committed}

/-- A transaction is committed only after its tree has been checked. -/
theorem validate_of_transact {tree : Option Node} (h : t.transact now tree target req = .ok c) :
    Node.validate t.schema.root c.tree = .ok () := by
  unfold transact at h
  cases tree with
  | none => cases h
  | some before =>
    obtain ⟨after, -, h⟩ := bind_eq_ok.mp h
    obtain ⟨_, hvalid, h⟩ := bind_eq_ok.mp h
    obtain ⟨difference, -, h⟩ := bind_eq_ok.mp h
    obtain ⟨notification, -, h⟩ := bind_eq_ok.mp h
    obtain ⟨⟨applied, changes⟩, -, h⟩ := bind_eq_ok.mp h
    cases h
    exact mapError_eq_ok.mp hvalid

theorem isValid_transact (hbefore : Node.IsValid t.schema.root before)
    (h : t.transact now (some before) target req = .ok c) :
    Node.IsValid t.schema.root c.tree := by
  obtain ⟨_, _, hsame, hrun, -⟩ := transact_eq_ok h
  cases hsame
  have hplace := (SetRequest.run_spec hbefore.place hrun).1
  have hconforms := Node.validate_eq_ok_iff_conforms.mp (validate_of_transact h)
  exact ⟨hplace, hconforms, SetRequest.isFinite_run hbefore.place hbefore.finite hrun⟩

end Transactor

/-- Outside of state containers nothing is published, so nothing has changed there. -/
theorem Publishes.rel_of_not_isState {s : Siblings} {before after : LeafMap} {n : Notification}
    (h : Publishes s before after n) {elems : List PathElem} (helems : ¬ s.IsState elems) :
    Option.Rel (fun v w => (v == w) = true) (before elems) (after elems) := by
  cases hafter : after elems with
  | none =>
    cases hbefore : before elems with
    | none => exact .none
    | some value => exact absurd (h.lost_state elems ⟨⟨value, hbefore⟩, hafter⟩) helems
  | some value =>
    rcases LeafMap.gained_or_kept before hafter with hgained | ⟨old, hold, hequal⟩
    · exact absurd (h.gained_state elems value hgained) helems
    · rw [hold]
      exact .some hequal

theorem LeafValue.rel_trans {u v w : Option LeafValue}
    (huv : Option.Rel (fun a b => (a == b) = true) u v)
    (hvw : Option.Rel (fun a b => (a == b) = true) v w) :
    Option.Rel (fun a b => (a == b) = true) u w := by
  cases huv with
  | none => exact hvw
  | some hab =>
    cases hvw with
    | some hbc => exact .some (LeafValue.beq_trans hab hbc)

/-- What every transaction that is committed preserves holds of the tree after every run. -/
theorem Service.committed_after {s : Service} {t : Transactor} (ht : s.transactor = some t)
    {P : Node → Prop} (hcommit : ∀ now before target req c, P before →
      t.transact now (some before) target req = .ok c → P c.tree)
    {tree : Node} (htree : s.tree = some tree) (h : P tree) (events : ServiceRun) :
    ∃ after, (s.after events).tree = some after ∧ P after := by
  have hafter : (s.after events).transactor = some t ∧
      ∃ after, (s.after events).tree = some after ∧ P after := by
    refine after_induction (P := fun s => s.transactor = some t ∧
      ∃ after, s.tree = some after ∧ P after) (fun _ _ h => h) ?_ ⟨ht, tree, htree, h⟩ events
    rintro s event ⟨ht, before, hbefore, h⟩
    refine ⟨(sameKind_perform s event).1.trans ht, ?_⟩
    rcases tree_perform s event with hsame | ⟨other, req, c, hother, hc, htree⟩
    · exact ⟨before, hsame.trans hbefore, h⟩
    · rw [ht] at hother
      cases hother
      rw [hbefore] at hc
      exact ⟨c.tree, htree, hcommit _ before _ req c h hc⟩
  exact hafter.2

namespace Collector

section Host

def hostSchema : Schema where
  models := []
  root := .container [
    ("cpu", .container [("state", .container [
      ("load", .leafOf (.double (some ⟨0⟩) (some ⟨0x3FF0000000000000⟩)))])]),
    ("hostname", .leaf ⟨.string none none, some (.string "host")⟩)]

def loadPath : Path :=
  .ofElems [.plain "cpu", .plain "state", .plain "load"]

def hostnamePath : Path :=
  .ofElems [.plain "hostname"]

def setLeaf (path : Path) (value : TypedValue) : SetRequest :=
  ⟨none, [], [], [.of path value]⟩

def startedHost : Collector :=
  ⟨(Service.start "target" (some (.container [("hostname", .leaf (.string "host"))]))
    (some ⟨hostSchema, Siblings.standard⟩) 1024 0).connect, {}, .running, 0, true, true⟩

def hostRun : ServiceRun :=
  [(1, .set (setLeaf hostnamePath (.string "other"))),
    (2, .set (setLeaf loadPath (.double ⟨0x3FE0000000000000⟩)))]

theorem defaultRoot_host : hostSchema.defaultRoot =
    .ok (.container [("hostname", .leaf (.string "host"))]) := by
  refine Schema.defaultRoot_eq_ok.mpr ⟨?_, ?_⟩
  · simp [hostSchema, Node.fillDefaults, Node.fillNode, Node.fillChildrenOf, Node.fillChildren,
      Node.emptyContainer, SortedMap.get?, LeafValue.ofJson, SortedMap.insert]
  · simp [hostSchema, Node.validate, Node.violations, Node.childViolations, SchemaNode.child?,
      SchemaNode.children?, SortedMap.get?, LeafType.violations, breaksBound]

theorem start_host : start {} (some hostSchema) (fun _ => none) true 0 = .ok startedHost :=
  start_of_defaultRoot defaultRoot_host

end Host

variable {settings : Settings} {given : Option Schema} {files : String → Option String}
  {isFree : Bool} {now : Int64} {c : Collector} {t : Transactor}

theorem isValid_after (hstart : start settings given files isFree now = .ok c)
    (ht : c.service.transactor = some t) (events : ServiceRun) :
    ∃ tree, (c.service.after events).tree = some tree ∧ Node.IsValid t.schema.root tree := by
  obtain ⟨-, root, hroot, htree⟩ := transactor_of_start hstart ht
  exact Service.committed_after ht (fun _ _ _ _ _ h hc => Transactor.isValid_transact h hc) htree
    (Schema.isValid_defaultRoot hroot) events

/-- In every state the committed tree conforms to the schema, and its doubles are finite. -/
theorem committed_tree_conforms (hstart : start settings given files isFree now = .ok c)
    (ht : c.service.transactor = some t) (events : ServiceRun) :
    ∃ tree, (c.service.after events).tree = some tree ∧ Node.Conforms t.schema.root tree ∧
      tree.HasFiniteLeaves := by
  obtain ⟨tree, htree, hvalid⟩ := isValid_after hstart ht events
  exact ⟨tree, htree, hvalid.conforms, hvalid.hasFiniteLeaves⟩

/-- A load of a half is committed and finite. -/
theorem committed_tree_conforms_host :
    ∃ tree, (startedHost.service.after hostRun).tree = some tree ∧
      Node.Conforms hostSchema.root tree ∧ tree.HasFiniteLeaves ∧
      tree.leafMap loadPath.elems = some (.double ⟨0x3FE0000000000000⟩) := by
  obtain ⟨tree, htree, hconforms, hfinite⟩ := committed_tree_conforms start_host rfl hostRun
  refine ⟨tree, htree, hconforms, hfinite, ?_⟩
  have hload : (startedHost.service.after hostRun).tree.bind (·.leafMap loadPath.elems) =
      some (.double ⟨0x3FE0000000000000⟩) := by rfl
  rwa [htree] at hload

/-- In every state the leaves of the committed tree outside of state containers are those of the
default root, with equal values. -/
theorem leaves_outside_state_stay (hstart : start settings given files isFree now = .ok c)
    (ht : c.service.transactor = some t) (events : ServiceRun) :
    ∃ root tree, t.schema.defaultRoot = .ok root ∧ (c.service.after events).tree = some tree ∧
      ∀ elems, ¬ (siblingsOf settings).IsState elems →
        Option.Rel (fun v w => (v == w) = true) (root.leafMap elems) (tree.leafMap elems) := by
  obtain ⟨hsiblings, root, hroot, htree⟩ := transactor_of_start hstart ht
  have hvalid := Schema.isValid_defaultRoot hroot
  have hrefl : ∀ elems, Option.Rel (fun v w => (v == w) = true) (root.leafAt? elems)
      (root.leafAt? elems) := by
    intro elems
    cases hvalue : root.leafAt? elems with
    | none => exact .none
    | some value => exact .some (LeafValue.beq_self_of_isFinite (hvalid.finite elems value hvalue))
  obtain ⟨tree, hafter, hplace, hsame⟩ := Service.committed_after ht
    (P := fun tree => Node.IsPlace t.schema.root tree ∧ ∀ elems, ¬ t.siblings.IsState elems →
      Option.Rel (fun v w => (v == w) = true) (root.leafAt? elems) (tree.leafAt? elems))
    (fun _ before _ _ c h hc => by
      have hpublishes := Transactor.publishes_of_transact h.1 hc
      obtain ⟨_, _, hbefore, hrun, -⟩ := Transactor.transact_eq_ok hc
      cases hbefore
      refine ⟨(SetRequest.run_spec h.1 hrun).1, ?_⟩
      intro elems helems
      exact LeafValue.rel_trans (h.2 elems helems) (hpublishes.rel_of_not_isState helems))
    htree ⟨hvalid.place, fun elems _ => hrefl elems⟩ events
  refine ⟨root, tree, hroot, hafter, ?_⟩
  rw [hsiblings] at hsame
  rw [Node.leafMap_eq_leafAt? hvalid.place, Node.leafMap_eq_leafAt? hplace]
  exact hsame

/-- The name of the host stays, though one transaction sets it and another one is committed. -/
theorem leaves_outside_state_stay_host :
    ∃ root tree, hostSchema.defaultRoot = .ok root ∧
      (startedHost.service.after hostRun).tree = some tree ∧
      (∀ elems, ¬ (siblingsOf {}).IsState elems →
        Option.Rel (fun v w => (v == w) = true) (root.leafMap elems) (tree.leafMap elems)) ∧
      root.leafMap hostnamePath.elems = some (.string "host") ∧
      (tree.leafMap loadPath.elems).isSome = true := by
  obtain ⟨root, tree, hroot, htree, hsame⟩ := leaves_outside_state_stay start_host rfl hostRun
  refine ⟨root, tree, hroot, htree, hsame, ?_, ?_⟩
  · have hother := hroot.symm.trans defaultRoot_host
    rw [Except.ok.inj hother]
    rfl
  · have hload : ((startedHost.service.after hostRun).tree.bind
        (·.leafMap loadPath.elems)).isSome = true := by rfl
    rwa [htree] at hload

end Collector

end Telemetry
