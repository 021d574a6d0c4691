import Telemetry.Proofs.Siblings
import Telemetry.Proofs.Transaction.Commit
import Telemetry.Proofs.Tree.Difference

/-!
What a committed transaction publishes, read off the leaves before and after. Every leaf that is
lost is deleted at all its copies, every leaf that is gained is updated at all its copies, and
only state leaves are lost or gained.
-/

namespace Telemetry

open LeafMap (Lost Gained)

/-- A notification of the change from one leaf map to another, extended to the siblings. -/
structure Publishes (s : Siblings) (before after : LeafMap) (n : Notification) : Prop where
  deletes : ∀ path, path ∈ n.deletes ↔ ∃ elems copy, Lost before after elems ∧
    copy ∈ s.copies elems ∧ path = Path.ofElems copy
  updates : ∀ update, update ∈ n.updates ↔ ∃ elems value copy,
    Gained before after elems value ∧ copy ∈ s.copies elems ∧
      update = Update.of (Path.ofElems copy) value.toTyped
  lost_state : ∀ elems, Lost before after elems → s.IsState elems
  gained_state : ∀ elems value, Gained before after elems value → s.IsState elems
  /-- Paths are published in full. -/
  base : n.basePath.elems = []

theorem publishes_of_extend {s : Siblings} {schema : SchemaNode} {old new : Node}
    {difference n extended : Notification} (hold : Node.IsPlace schema old)
    (hnew : Node.IsPlace schema new) (hdiff : Notification.ofDiff old new = .ok difference)
    (hdeletes : n.deletes = difference.deletes) (hupdates : n.updates = difference.updates)
    (hbase : n.basePath.elems = []) (h : s.extend n = .ok extended) :
    Publishes s old.leafAt? new.leafAt? extended := by
  have hlost := @Notification.mem_deletes_ofDiff schema old new difference hold hnew hdiff
  have hgained := @Notification.mem_updates_ofDiff schema old new difference hold hnew hdiff
  rw [← hdeletes] at hlost
  rw [← hupdates] at hgained
  have hpaths : ∀ own ∈ n.updates, ∃ path value, own = Update.of path value := by
    intro own hown
    obtain ⟨elems, value, rfl, -⟩ := hgained.mp hown
    exact ⟨_, _, rfl⟩
  refine ⟨?_, ?_, ?_, ?_, ?_⟩
  · intro path
    rw [Siblings.mem_deletes_extend h]
    constructor
    · rintro ⟨own, hown, copy, hcopy, rfl⟩
      obtain ⟨elems, rfl, helems⟩ := hlost.mp hown
      exact ⟨elems, copy, helems, hcopy, rfl⟩
    · rintro ⟨elems, copy, helems, hcopy, rfl⟩
      exact ⟨_, hlost.mpr ⟨elems, rfl, helems⟩, copy, hcopy, rfl⟩
  · intro update
    rw [Siblings.mem_updates_extend h hpaths]
    constructor
    · rintro ⟨path, typed, hown, copy, hcopy, rfl⟩
      obtain ⟨elems, value, hsame, hvalue⟩ := hgained.mp hown
      cases hsame
      exact ⟨elems, value, copy, hvalue, hcopy, rfl⟩
    · rintro ⟨elems, value, copy, hvalue, hcopy, rfl⟩
      exact ⟨_, _, hgained.mpr ⟨elems, value, rfl, hvalue⟩, copy, hcopy, rfl⟩
  · intro elems helems
    exact Siblings.isState_of_mem_deletes h (hlost.mpr ⟨elems, rfl, helems⟩)
  · intro elems value hvalue
    exact Siblings.isState_of_mem_updates h (hgained.mpr ⟨elems, value, rfl, hvalue⟩)
  · obtain ⟨_, _, -, -, rfl⟩ := Siblings.extend_eq_ok h
    exact hbase

/-- A transaction that is committed publishes the change of its tree. -/
theorem Transactor.publishes_of_transact {t : Transactor} {now : Int64} {before : Node}
    {target : CacheTarget} {req : SetRequest} {c : Committed}
    (hplace : Node.IsPlace t.schema.root before)
    (h : t.transact now (some before) target req = .ok c) :
    Publishes t.siblings before.leafAt? c.tree.leafAt? c.outcome.notification := by
  obtain ⟨_, difference, htree, hrun, hdiff, hextend, -⟩ := transact_eq_ok h
  cases htree
  exact publishes_of_extend (n := difference.stamped now req target.name) hplace
    (SetRequest.run_spec hplace hrun).1 hdiff rfl rfl rfl hextend

end Telemetry
