import Telemetry.Proofs.Service.History
import Telemetry.Proofs.Service.Start
import Telemetry.Proofs.Transaction.Failures

/-!
Errors that no transaction of a collector with a schema returns. While the clock does not go
backwards the only leaves that the cache refuses to a transaction are those for which the source has
given a time that is still to come.
-/

namespace Telemetry.Collector

variable {settings : Settings} {given : Option Schema} {files : String → Option String}
  {isFree : Bool} {now : Int64} {c : Collector} {t : Transactor}

theorem dates_start (h : start settings given files isFree now = .ok c) (reading : Int64) :
    History.Dates [] reading c.service.target := by
  refine History.dates_of_no_leaves ?_
  rw [(start_eq_ok h).1]
  rfl

/-- A transaction of a collector fails for its request, or for a leaf that the source has written
with a time that is still to come. -/
theorem legitimate_or_overtaken (hstart : start settings given files isFree now = .ok c)
    (ht : c.service.transactor = some t) {events : ServiceRun} {reading : Int64}
    (hclock : ∀ event ∈ events, event.1 ≤ reading) {req : SetRequest} {e : SetError}
    (hset : (((c.service.after events).withClock reading).set req).result = .error e) :
    e.Legitimate ∨ ∃ before after difference path leaf delta,
      (c.service.after events).tree = some before ∧ req.run t.schema.root before = .ok after ∧
      Notification.ofDiff before after = .ok difference ∧
      Overtaken (siblingsOf settings) difference (c.service.after events).target reading path
        leaf ∧
      (c.service.history events).lastWrite path.text = some (.source, delta) ∧
      leaf.timestamp = delta.timestamp ∧
      e = .publish (.stale path.text leaf.timestamp reading) := by
  obtain ⟨hsiblings, -⟩ := transactor_of_start hstart ht
  have htransactor : ((c.service.after events).withClock reading).transactor = some t :=
    (Service.transactor_after _ events).trans ht
  obtain ⟨before, htree, hplace⟩ :=
    Service.placed_after (placed_start hstart) events t htransactor
  have hfails : t.FailsAt reading (c.service.after events).target req (some before) e := by
    rcases Service.set_eq_error hset with ⟨hnone, -⟩ | ⟨other, hother, hfails⟩
    · rw [htransactor] at hnone
      cases hnone
    · rw [htransactor] at hother
      cases hother
      exact htree ▸ hfails
  rcases Transactor.legitimate_or_overtaken_of_failsAt hplace hfails with
    hlegitimate | ⟨after, difference, path, leaf, hrun, hdiff, hovertaken, rfl⟩
  · exact Or.inl hlegitimate
  rw [hsiblings] at hovertaken
  obtain ⟨writer, delta, hlast, htime, hclocked⟩ :=
    (Service.dates_after (dates_start hstart reading) hclock).written path.text leaf
      hovertaken.cached
  have hwriter : writer = .source := by
    by_cases hsource : writer = .source
    · exact hsource
    · have hlater := hovertaken.later
      rw [htime] at hlater
      exact absurd (hclocked hsource) (Int64.not_le.mpr hlater)
  subst hwriter
  exact Or.inr ⟨before, after, difference, path, leaf, delta, htree, hrun, hdiff, hovertaken,
    hlast, htime, rfl⟩

/-- No transaction fails with an error of the collector's own making: there is a schema, trees can
be compared, and no node has another kind than the schema has there. The cache refuses a transaction
only for a leaf, or its copy, that the source has last written with a time later than that of the
transaction; without ingestion it never does. -/
theorem internal_errors_are_unreachable
    (hstart : start settings given files isFree now = .ok c)
    (ht : c.service.transactor = some t) {events : ServiceRun} {reading : Int64}
    (hclock : (events.map (·.1) ++ [reading]).Pairwise (· ≤ ·)) {req : SetRequest} {e : SetError}
    (hset : (((c.service.after events).withClock reading).set req).result = .error e) :
    e ≠ .unsupported ∧ (∀ cause, e ≠ .diff cause) ∧
      (∀ path, e.cause? ≠ some (.kindMismatch path)) ∧
      (∀ cause, e = .publish cause →
        ∃ before after difference path leaf delta,
          (c.service.after events).tree = some before ∧
          req.run t.schema.root before = .ok after ∧
          Notification.ofDiff before after = .ok difference ∧
          Overtaken (siblingsOf settings) difference (c.service.after events).target reading path
            leaf ∧
          (c.service.history events).lastWrite path.text = some (.source, delta) ∧
          leaf.timestamp = delta.timestamp ∧
          cause = .stale path.text leaf.timestamp reading) ∧
      ((∀ event ∈ events, ∀ cancelled responses, event.2 ≠ .ingest cancelled responses) →
        ∀ cause, e ≠ .publish cause) := by
  have hpast : ∀ event ∈ events, event.1 ≤ reading := by
    intro event hevent
    exact (List.pairwise_append.mp hclock).2.2 event.1 (List.mem_map_of_mem hevent) reading
      (List.mem_singleton_self reading)
  rcases legitimate_or_overtaken hstart ht hpast hset with hlegitimate |
    ⟨before, after, difference, path, leaf, delta, htree, hrun, hdiff, hovertaken, hlast, htime,
      rfl⟩
  · refine ⟨hlegitimate.supported, hlegitimate.compared, ?_, ?_, fun _ => hlegitimate.published⟩
    · intro path hcause
      exact hlegitimate.cause hcause
    · intro cause hpublish
      exact absurd hpublish (hlegitimate.published cause)
  · refine ⟨by simp, by simp, by simp [SetError.cause?], ?_, ?_⟩
    · rintro cause ⟨⟩
      exact ⟨before, after, difference, path, leaf, delta, htree, hrun, hdiff, hovertaken, hlast,
        htime, rfl⟩
    · intro hnone
      obtain ⟨event, hevent, cancelled, responses, hingest⟩ :=
        Service.isIngest_of_mem_history (History.mem_of_lastWrite hlast)
      exact absurd hingest (hnone event hevent cancelled responses)

def objection? {α : Type} : Except SetError α → Option CacheError
  | .error (.publish cause) => some cause
  | _ => none

theorem objection?_eq_some {α : Type} {result : Except SetError α} {cause : CacheError} :
    objection? result = some cause ↔ result = .error (.publish cause) := by
  constructor
  · intro h
    unfold objection? at h
    split at h
    · rw [Option.some.inj h]
    · cases h
  · rintro rfl
    rfl

/-- The source gives the size of the packets of an interface for a time to come. Until then the size
cannot be set. -/
theorem internal_errors_are_unreachable_aheadOfClock :
    let events : ServiceRun := [(5, .ingest false [.update
      ⟨100, none, [Update.of (mtuPath "eth0") (.uint 9000)], [], false⟩])]
    (((startedInterfaces.service.after events).withClock 10).set (setMtus [("eth0", 1500)])).result =
        .error (.publish (.stale (mtuPath "eth0").text 100 10)) ∧
      ∃ delta, (startedInterfaces.service.history events).lastWrite (mtuPath "eth0").text =
        some (.source, delta) ∧ delta.timestamp = 100 := by
  intro events
  have hset : (((startedInterfaces.service.after events).withClock 10).set
      (setMtus [("eth0", 1500)])).result =
      .error (.publish (.stale (mtuPath "eth0").text 100 10)) := by
    rw [← objection?_eq_some]
    decide +kernel
  obtain ⟨-, -, -, hpublish, -⟩ :=
    internal_errors_are_unreachable start_interfaces rfl (by decide) hset
  obtain ⟨_, _, _, path, leaf, delta, -, -, -, -, hlast, htime, hcause⟩ := hpublish _ rfl
  obtain ⟨htext, hleaf, -⟩ := CacheError.stale.inj hcause
  exact ⟨hset, delta, htext ▸ hlast, htime ▸ hleaf.symm⟩

end Telemetry.Collector
