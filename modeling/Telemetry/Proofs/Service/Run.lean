import Telemetry.Collector
import Telemetry.Proofs.Cache.Apply
import Telemetry.Proofs.Transaction.Commit

/-!
Runs of a service: events one after the other, each with the reading that the clock gives at it.
No event changes the schema and the container names or the name of the target, and only a
transaction that is committed changes the tree.
-/

namespace Telemetry

/-- What may happen to a service. -/
inductive ServiceEvent where
  | set (req : SetRequest)
  | ingest (cancelled : Bool) (responses : List Response)
  /-- The cache's own leaves are written: its flags and counters, or its size. -/
  | statistics
  | size
  | subscribe (id : String) (first : Option (Except Status ClientMessage))
  | serve
  | cancel

inductive EventResult where
  | set (result : Except SetError SetOutcome)
  | ingest (result : Except IngestError Unit)
  | subscribe (result : Except Status Unit)
  | served (messages : List (String × List FeedMessage))
  | done

abbrev ServiceRun := List (Int64 × ServiceEvent)

def Reply.map {α β : Type} (f : α → β) (reply : Reply α) : Reply β :=
  ⟨f reply.result, reply.service, reply.published⟩

def Reply.isFailedSet (reply : Reply EventResult) : Bool :=
  match reply.result with
  | .set (.error _) => true
  | _ => false

def ServiceRun.ofSets (sets : List (Int64 × SetRequest)) : ServiceRun :=
  sets.map fun set => (set.1, .set set.2)

namespace Service

def withClock (s : Service) (reading : Int64) : Service := { s with now := reading }

def perform (s : Service) : ServiceEvent → Reply EventResult
  | .set req => (s.set req).map .set
  | .ingest cancelled responses => (s.ingest cancelled responses).map .ingest
  | .statistics => (s.writeMeta CacheTarget.statistics).map fun _ => .done
  | .size => (s.writeMeta CacheTarget.sizeUpdates).map fun _ => .done
  | .subscribe id first => (s.subscribe id first).map .subscribe
  | .serve => ⟨.served s.serve.2, s.serve.1, []⟩
  | .cancel => s.cancel.quiet .done

def replies (s : Service) : ServiceRun → List (Reply EventResult)
  | [] => []
  | (reading, event) :: rest =>
    let reply := (s.withClock reading).perform event
    reply :: replies reply.service rest

def after (s : Service) : ServiceRun → Service
  | [] => s
  | (reading, event) :: rest => after ((s.withClock reading).perform event).service rest

section Perform

variable {s : Service}

theorem set_eq_error_of_no_transactor (h : s.transactor = none) (req : SetRequest) :
    s.set req = s.quiet (.error .unsupported) := by
  simp [set, h]

/-- A transaction that is refused leaves its label in the counters and nothing else. -/
theorem publish_nil {α : Type} (s : Service) (result : α) :
    s.publish [] result = ⟨result, s, []⟩ := by
  simp [publish]

/-- Publishing drops what is empty, also if that has been done before. -/
theorem publish_nonempty {α : Type} (s : Service) (changes : Notification) (result : α) :
    s.publish (if changes.isEmpty then [] else [changes]) result = s.publish [changes] result := by
  cases hempty : changes.isEmpty <;> simp [publish, hempty]

theorem set_of_error {t : Transactor} {req : SetRequest} {e : SetError}
    (ht : s.transactor = some t) (h : t.transact s.now s.tree s.target req = .error e) :
    s.set req =
      ⟨.error e, { s.tick with transactions := s.transactions.add e.stage }, []⟩ := by
  simp only [set, ht, Transactor.on_carryOut, workspace, h, publish_nil]
  rfl

theorem set_of_ok {t : Transactor} {req : SetRequest} {c : Committed}
    (ht : s.transactor = some t) (h : t.transact s.now s.tree s.target req = .ok c) :
    s.set req = publish { s.tick with
      transactions := s.transactions.add (outcomeLabel (.ok c.outcome)),
      tree := some c.tree, target := c.target } [c.changes] (.ok c.outcome) := by
  simp only [set, ht, Transactor.on_carryOut, workspace, h, List.nil_append, publish_nonempty]

/-- A transaction that succeeds was committed. -/
theorem set_eq_ok {req : SetRequest} {outcome : SetOutcome}
    (h : (s.set req).result = .ok outcome) :
    ∃ t c, s.transactor = some t ∧ t.transact s.now s.tree s.target req = .ok c ∧
      c.outcome = outcome := by
  cases ht : s.transactor with
  | none => simp [set_eq_error_of_no_transactor ht, quiet] at h
  | some t =>
    cases hc : t.transact s.now s.tree s.target req with
    | error e => simp [set_of_error ht hc] at h
    | ok c =>
      rw [set_of_ok ht hc] at h
      exact ⟨t, c, rfl, hc, Except.ok.inj h⟩

/-- A transaction that fails was refused for lack of a schema, or at one of its stages. -/
theorem set_eq_error {req : SetRequest} {e : SetError} (h : (s.set req).result = .error e) :
    (s.transactor = none ∧ e = .unsupported) ∨
      ∃ t, s.transactor = some t ∧ t.FailsAt s.now s.target req s.tree e := by
  cases ht : s.transactor with
  | none =>
    rw [set_eq_error_of_no_transactor ht] at h
    exact Or.inl ⟨rfl, (Except.error.inj h).symm⟩
  | some t =>
    cases hc : t.transact s.now s.tree s.target req with
    | error other =>
      rw [set_of_error ht hc] at h
      cases h
      exact Or.inr ⟨t, rfl, Transactor.transact_eq_error_iff.mp hc⟩
    | ok c =>
      rw [set_of_ok ht hc] at h
      cases h

private theorem sameKind_writeMeta (s : Service) (updates : CacheTarget → List Update) :
    (s.writeMeta updates).service.transactor = s.transactor ∧
      (s.writeMeta updates).service.target.name = s.target.name ∧
      (s.writeMeta updates).service.tree = s.tree := by
  unfold writeMeta
  cases hmeta : s.target.writeMeta s.now (updates s.target) with
  | none => exact ⟨rfl, rfl, rfl⟩
  | some written =>
    exact ⟨rfl, CacheTarget.name_of_apply (toOption_eq_some.mp hmeta), rfl⟩

/-- No event changes the schema and the container names or the name of the target. -/
theorem sameKind_perform (s : Service) (event : ServiceEvent) :
    (s.perform event).service.transactor = s.transactor ∧
      (s.perform event).service.target.name = s.target.name := by
  cases event with
  | set req =>
    cases ht : s.transactor with
    | none => simp [perform, set_eq_error_of_no_transactor ht, Reply.map, quiet, ht]
    | some t =>
      cases hc : t.transact s.now s.tree s.target req with
      | error e => simp [perform, set_of_error ht hc, Reply.map, tick, ht]
      | ok c =>
        obtain ⟨_, _, -, -, -, -, happly, -⟩ := Transactor.transact_eq_ok hc
        have hname := CacheTarget.name_of_apply happly
        simp [perform, set_of_ok ht hc, Reply.map, tick, ht, publish, hname]
  | ingest cancelled responses =>
    cases cancelled with
    | true => exact ⟨rfl, rfl⟩
    | false => exact ⟨rfl, CacheTarget.name_of_ingest s.target responses⟩
  | statistics =>
    have h := sameKind_writeMeta s CacheTarget.statistics
    exact ⟨h.1, h.2.1⟩
  | size =>
    have h := sameKind_writeMeta s CacheTarget.sizeUpdates
    exact ⟨h.1, h.2.1⟩
  | subscribe id first =>
    simp only [perform, subscribe]
    cases Subscription.ofFirst s.target.name first <;> exact ⟨rfl, rfl⟩
  | serve => exact ⟨rfl, rfl⟩
  | cancel => exact ⟨rfl, rfl⟩

/-- The cache changes by applying notifications only, apart from being marked as complete. -/
theorem target_perform {P : CacheTarget → Prop}
    (happly : ∀ t n after changes, P t → t.apply n = .ok (after, changes) → P after)
    (hsynced : ∀ t, P t → P t.markSynced) (s : Service) (event : ServiceEvent)
    (h : P s.target) : P (s.perform event).service.target := by
  have hmeta : ∀ updates, P (s.writeMeta updates).service.target := by
    intro updates
    unfold writeMeta
    cases hwritten : s.target.writeMeta s.now (updates s.target) with
    | none => exact h
    | some written => exact happly _ _ _ _ h (toOption_eq_some.mp hwritten)
  have hingest : ∀ responses t, P t → P (CacheTarget.ingest t responses).2.target := by
    intro responses
    induction responses with
    | nil => exact fun t ht => ht
    | cons response rest ih =>
      intro t ht
      cases response with
      | update n =>
        cases happlied : t.apply n with
        | error e =>
          simp only [CacheTarget.ingest, SourceMessage.ofResponse, CacheTarget.take, happlied]
          exact ht
        | ok applied =>
          simp only [CacheTarget.ingest, SourceMessage.ofResponse, CacheTarget.take, happlied]
          exact ih _ (happly _ _ _ _ ht happlied)
      | sync complete => exact ih _ (hsynced _ ht)
      | failure code message => exact ht
      | empty => exact ht
  cases event with
  | set req =>
    cases ht : s.transactor with
    | none =>
      simp only [perform, set_eq_error_of_no_transactor ht]
      exact h
    | some t =>
      cases hc : t.transact s.now s.tree s.target req with
      | error e =>
        simp only [perform, set_of_error ht hc]
        exact h
      | ok c =>
        obtain ⟨_, _, -, -, -, -, hcommitted, -⟩ := Transactor.transact_eq_ok hc
        simp only [perform, set_of_ok ht hc]
        exact happly _ _ _ _ h hcommitted
  | ingest cancelled responses =>
    cases cancelled with
    | true => exact h
    | false => exact hingest responses _ h
  | statistics => exact hmeta CacheTarget.statistics
  | size => exact hmeta CacheTarget.sizeUpdates
  | subscribe id first =>
    simp only [perform, subscribe]
    cases Subscription.ofFirst s.target.name first <;> exact h
  | serve => exact h
  | cancel => exact h

/-- Only a transaction that is committed changes the tree. -/
theorem tree_perform (s : Service) (event : ServiceEvent) :
    (s.perform event).service.tree = s.tree ∨
      ∃ t req c, s.transactor = some t ∧ t.transact s.now s.tree s.target req = .ok c ∧
        (s.perform event).service.tree = some c.tree := by
  cases event with
  | set req =>
    cases ht : s.transactor with
    | none => exact Or.inl (by simp [perform, set_eq_error_of_no_transactor ht, Reply.map, quiet])
    | some t =>
      cases hc : t.transact s.now s.tree s.target req with
      | error e => exact Or.inl (by simp [perform, set_of_error ht hc, Reply.map, tick])
      | ok c =>
        exact Or.inr ⟨t, req, c, rfl, hc, by simp [perform, set_of_ok ht hc, Reply.map, publish]⟩
  | ingest cancelled responses => cases cancelled <;> exact Or.inl rfl
  | statistics => exact Or.inl (sameKind_writeMeta s CacheTarget.statistics).2.2
  | size => exact Or.inl (sameKind_writeMeta s CacheTarget.sizeUpdates).2.2
  | subscribe id first =>
    simp only [perform, subscribe]
    cases Subscription.ofFirst s.target.name first <;> exact Or.inl rfl
  | serve => exact Or.inl rfl
  | cancel => exact Or.inl rfl

theorem tree_perform_of_not_set {event : ServiceEvent} (h : ∀ req, event ≠ .set req) :
    (s.perform event).service.tree = s.tree := by
  cases event with
  | set req => exact absurd rfl (h req)
  | ingest cancelled responses => cases cancelled <;> rfl
  | statistics => exact (sameKind_writeMeta s CacheTarget.statistics).2.2
  | size => exact (sameKind_writeMeta s CacheTarget.sizeUpdates).2.2
  | subscribe id first =>
    simp only [perform, subscribe]
    cases Subscription.ofFirst s.target.name first <;> rfl
  | serve => rfl
  | cancel => rfl

end Perform

theorem after_append (s : Service) (first second : ServiceRun) :
    s.after (first ++ second) = (s.after first).after second := by
  induction first generalizing s with
  | nil => rfl
  | cons head rest ih => exact ih _

theorem replies_append (s : Service) (first second : ServiceRun) :
    s.replies (first ++ second) = s.replies first ++ (s.after first).replies second := by
  induction first generalizing s with
  | nil => rfl
  | cons head rest ih => exact congrArg (List.cons _) (ih _)

/-- What every event preserves holds after a run. -/
theorem after_induction {P : Service → Prop}
    (hclock : ∀ s reading, P s → P (s.withClock reading))
    (hevent : ∀ s event, P s → P (s.perform event).service) {s : Service} (hs : P s)
    (events : ServiceRun) : P (s.after events) := by
  induction events generalizing s with
  | nil => exact hs
  | cons head rest ih => exact ih (hevent _ _ (hclock _ _ hs))

theorem transactor_after (s : Service) (events : ServiceRun) :
    (s.after events).transactor = s.transactor :=
  after_induction (P := fun other => other.transactor = s.transactor) (fun _ _ h => h)
    (fun other event h => (sameKind_perform other event).1.trans h) rfl events

theorem name_after (s : Service) (events : ServiceRun) :
    (s.after events).target.name = s.target.name :=
  after_induction (P := fun other => other.target.name = s.target.name) (fun _ _ h => h)
    (fun other event h => (sameKind_perform other event).2.trans h) rfl events

theorem tree_after_of_no_set {s : Service} {events : ServiceRun}
    (h : ∀ event ∈ events, ∀ req, event.2 ≠ .set req) : (s.after events).tree = s.tree := by
  induction events generalizing s with
  | nil => rfl
  | cons head rest ih =>
    refine (ih fun event hevent => h event (List.mem_cons_of_mem head hevent)).trans ?_
    exact tree_perform_of_not_set (h head List.mem_cons_self)

/-- There is a tree in the shape of the schema where there is a schema. -/
def Placed (s : Service) : Prop :=
  ∀ t, s.transactor = some t → ∃ tree, s.tree = some tree ∧ Node.IsPlace t.schema.root tree

theorem placed_perform {s : Service} (h : s.Placed) (event : ServiceEvent) :
    (s.perform event).service.Placed := by
  intro t ht
  rw [(sameKind_perform s event).1] at ht
  obtain ⟨tree, htree, hplace⟩ := h t ht
  rcases tree_perform s event with hsame | ⟨other, req, c, hother, hc, hcommitted⟩
  · exact ⟨tree, hsame.trans htree, hplace⟩
  · rw [ht] at hother
    cases hother
    obtain ⟨before, _, hbefore, hrun, -⟩ := Transactor.transact_eq_ok hc
    rw [htree] at hbefore
    cases hbefore
    exact ⟨c.tree, hcommitted, (SetRequest.run_spec hplace hrun).1⟩

theorem placed_after {s : Service} (h : s.Placed) (events : ServiceRun) :
    (s.after events).Placed :=
  after_induction (P := Placed) (fun _ _ h => h) (fun _ event h => placed_perform h event) h
    events

end Service

end Telemetry
