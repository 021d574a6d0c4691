import Telemetry.Proofs.Transaction.Refinement

/-!
What a committed transaction went through. The tree it leaves is the tree that its request makes
of the one before and is valid; what it published is the difference of the two, extended to the
siblings and applied to the cache.
-/

namespace Telemetry

def Notification.stamped (difference : Notification) (now : Int64) (req : SetRequest)
    (target : String) : Notification :=
  { difference with
    timestamp := now
    base := some ⟨(req.base.getD Path.root).origin, [], target⟩ }

namespace Transactor

theorem transact_eq_ok {t : Transactor} {now : Int64} {tree : Option Node}
    {target : CacheTarget} {req : SetRequest} {c : Committed}
    (h : t.transact now tree target req = .ok c) :
    ∃ before difference, tree = some before ∧ req.run t.schema.root before = .ok c.tree ∧
      Notification.ofDiff before c.tree = .ok difference ∧
      t.siblings.extend (difference.stamped now req target.name) = .ok c.outcome.notification ∧
      target.apply c.outcome.notification = .ok (c.target, c.changes) ∧
      c.outcome.results = req.results := by
  unfold transact at h
  cases tree with
  | none => cases h
  | some before =>
    obtain ⟨after, hrun, h⟩ := bind_eq_ok.mp h
    obtain ⟨_, _, h⟩ := bind_eq_ok.mp h
    obtain ⟨difference, hdiff, h⟩ := bind_eq_ok.mp h
    obtain ⟨notification, hextend, h⟩ := bind_eq_ok.mp h
    obtain ⟨⟨applied, changes⟩, happly, h⟩ := bind_eq_ok.mp h
    cases h
    exact ⟨before, difference, rfl, hrun, mapError_eq_ok.mp hdiff, mapError_eq_ok.mp hextend,
      mapError_eq_ok.mp happly, rfl⟩

section Stages

variable {t : Transactor} {now : Int64} {before after : Node} {target applied : CacheTarget}
  {req : SetRequest} {difference notification changes : Notification}

/-- A request is committed if every stage goes through. -/
theorem transact_of_stages (hrun : req.run t.schema.root before = .ok after)
    (hvalid : Node.validate t.schema.root after = .ok ())
    (hdiff : Notification.ofDiff before after = .ok difference)
    (hextend : t.siblings.extend (difference.stamped now req target.name) = .ok notification)
    (happly : target.apply notification = .ok (applied, changes)) :
    t.transact now (some before) target req =
      .ok ⟨after, applied, ⟨notification, req.results⟩, changes⟩ := by
  unfold transact
  refine bind_eq_ok.mpr ⟨after, hrun, bind_eq_ok.mpr ⟨(), mapError_eq_ok.mpr hvalid, ?_⟩⟩
  refine bind_eq_ok.mpr ⟨difference, mapError_eq_ok.mpr hdiff, ?_⟩
  refine bind_eq_ok.mpr ⟨notification, mapError_eq_ok.mpr hextend, ?_⟩
  exact bind_eq_ok.mpr ⟨(applied, changes), mapError_eq_ok.mpr happly, rfl⟩

/-- How far a transaction gets that fails, and the error of the stage that it fails at. -/
inductive FailsAt (t : Transactor) (now : Int64) (target : CacheTarget) (req : SetRequest) :
    Option Node → SetError → Prop
  | tree : FailsAt t now target req none .unsupported
  | operations {before : Node} {e : SetError} (hrun : req.run t.schema.root before = .error e) :
    FailsAt t now target req (some before) e
  | validation {before after : Node} {cause : TreeError}
    (hrun : req.run t.schema.root before = .ok after)
    (hvalid : Node.validate t.schema.root after = .error cause) :
    FailsAt t now target req (some before) (.validation cause)
  | difference {before after : Node} {cause : TreeError}
    (hrun : req.run t.schema.root before = .ok after)
    (hvalid : Node.validate t.schema.root after = .ok ())
    (hdiff : Notification.ofDiff before after = .error cause) :
    FailsAt t now target req (some before) (.diff cause)
  | siblings {before after : Node} {difference : Notification} {cause : SiblingError}
    (hrun : req.run t.schema.root before = .ok after)
    (hvalid : Node.validate t.schema.root after = .ok ())
    (hdiff : Notification.ofDiff before after = .ok difference)
    (hextend : t.siblings.extend (difference.stamped now req target.name) = .error cause) :
    FailsAt t now target req (some before) (.siblings cause)
  | cache {before after : Node} {difference notification : Notification} {cause : CacheError}
    (hrun : req.run t.schema.root before = .ok after)
    (hvalid : Node.validate t.schema.root after = .ok ())
    (hdiff : Notification.ofDiff before after = .ok difference)
    (hextend : t.siblings.extend (difference.stamped now req target.name) = .ok notification)
    (happly : target.apply notification = .error cause) :
    FailsAt t now target req (some before) (.publish cause)

variable {tree : Option Node} {e : SetError}

theorem failsAt_of_transact (h : t.transact now tree target req = .error e) :
    t.FailsAt now target req tree e := by
  cases tree with
  | none =>
    cases h
    exact .tree
  | some before =>
    rcases bind_eq_error.mp h with hrun | ⟨after, hrun, h⟩
    · exact .operations hrun
    rcases bind_eq_error.mp h with hrefused | ⟨_, hvalid, h⟩
    · obtain ⟨cause, hcause, rfl⟩ := mapError_eq_error.mp hrefused
      exact .validation hrun hcause
    rw [mapError_eq_ok] at hvalid
    rcases bind_eq_error.mp h with hrefused | ⟨difference, hdiff, h⟩
    · obtain ⟨cause, hcause, rfl⟩ := mapError_eq_error.mp hrefused
      exact .difference hrun hvalid hcause
    rw [mapError_eq_ok] at hdiff
    rcases bind_eq_error.mp h with hrefused | ⟨notification, hextend, h⟩
    · obtain ⟨cause, hcause, rfl⟩ := mapError_eq_error.mp hrefused
      exact .siblings hrun hvalid hdiff hcause
    rcases bind_eq_error.mp h with hrefused | ⟨_, -, h⟩
    · obtain ⟨cause, hcause, rfl⟩ := mapError_eq_error.mp hrefused
      exact .cache hrun hvalid hdiff (mapError_eq_ok.mp hextend) hcause
    · cases h

theorem transact_eq_error_iff :
    t.transact now tree target req = .error e ↔ t.FailsAt now target req tree e := by
  refine ⟨failsAt_of_transact, ?_⟩
  intro h
  unfold transact
  cases h with
  | tree => rfl
  | operations hrun =>
    simp only [hrun]
    rfl
  | validation hrun hvalid =>
    simp only [hrun, ok_bind, hvalid]
    rfl
  | difference hrun hvalid hdiff =>
    simp only [hrun, ok_bind, hvalid, hdiff]
    rfl
  | siblings hrun hvalid hdiff hextend =>
    unfold Notification.stamped at hextend
    simp only [hrun, ok_bind, hvalid, hdiff, Except.mapError, hextend]
    rfl
  | cache hrun hvalid hdiff hextend happly =>
    unfold Notification.stamped at hextend
    simp only [hrun, ok_bind, hvalid, hdiff, Except.mapError, hextend, happly]
    rfl

end Stages

end Transactor

end Telemetry
