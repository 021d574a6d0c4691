import Telemetry.Proofs.Service.Start

/-!
Transactions that fail, at whatever stage, cannot be seen: they leave the tree, the cache and
the feeds as they were and publish nothing, although their operations may have been done halfway.
The only trace is a counter and a reading of the clock; so a run without its failed transactions
shows the same, every other event having the same reading as before.
-/

namespace Telemetry

namespace Service

/-- A service without the reading of the clock and the counts of transactions. -/
def visible (s : Service) : Service := { s with now := 0, transactions := [] }

/-- A run without the transactions that fail in it. -/
def withoutFailed (s : Service) : ServiceRun → ServiceRun
  | [] => []
  | (reading, event) :: rest =>
    let reply := (s.withClock reading).perform event
    if reply.isFailedSet then reply.service.withoutFailed rest
    else (reading, event) :: reply.service.withoutFailed rest

end Service

def Reply.visible {α : Type} (reply : Reply α) : Reply α :=
  { reply with service := reply.service.visible }

namespace Service

/-- A service that looks the same differs in the clock and the counts only. -/
theorem eq_of_visible_eq {s other : Service} (h : s.visible = other.visible) :
    other = { s with now := other.now, transactions := other.transactions } := by
  obtain ⟨target, tree, transactor, capacity, now, cancelled, feeds, transactions, ingested⟩ := s
  cases other
  simp only [visible, mk.injEq] at h ⊢
  grind

private theorem visible_writeMeta_counts (s : Service) (counts : Tally)
    (updates : CacheTarget → List Update) :
    ({ s with transactions := counts }.writeMeta updates).visible =
      (s.writeMeta updates).visible := by
  unfold writeMeta
  cases s.target.writeMeta s.now (updates s.target) <;> rfl

/-- The counts of transactions have no part in what happens. -/
private theorem visible_perform_counts (s : Service) (counts : Tally) (event : ServiceEvent) :
    ({ s with transactions := counts }.perform event).visible = (s.perform event).visible := by
  generalize hother : ({ s with transactions := counts } : Service) = other
  cases event with
  | set req =>
    cases ht : s.transactor with
    | none =>
      have ht' : other.transactor = none := by rw [← hother, ← ht]
      simp only [perform, set_eq_error_of_no_transactor ht, set_eq_error_of_no_transactor ht']
      rw [← hother]
      rfl
    | some t =>
      have ht' : other.transactor = some t := by rw [← hother, ← ht]
      have hsame : t.transact other.now other.tree other.target req =
          t.transact s.now s.tree s.target req := by rw [← hother]
      cases hc : t.transact s.now s.tree s.target req with
      | error e =>
        simp only [perform, set_of_error ht hc, set_of_error ht' (hsame.trans hc)]
        rw [← hother]
        rfl
      | ok c =>
        simp only [perform, set_of_ok ht hc, set_of_ok ht' (hsame.trans hc)]
        rw [← hother]
        rfl
  | ingest cancelled responses =>
    rw [← hother]
    cases cancelled <;> rfl
  | statistics =>
    rw [← hother]
    exact congrArg (Reply.map fun _ => EventResult.done)
      (visible_writeMeta_counts s counts CacheTarget.statistics)
  | size =>
    rw [← hother]
    exact congrArg (Reply.map fun _ => EventResult.done)
      (visible_writeMeta_counts s counts CacheTarget.sizeUpdates)
  | subscribe id first =>
    rw [← hother]
    unfold perform subscribe
    cases hfirst : Subscription.ofFirst s.target.name first <;> simp only [hfirst] <;> rfl
  | serve =>
    rw [← hother]
    rfl
  | cancel =>
    rw [← hother]
    rfl

/-- Events show the same in services that look the same. -/
theorem visible_perform {s other : Service} (h : s.visible = other.visible) (reading : Int64)
    (event : ServiceEvent) :
    ((s.withClock reading).perform event).visible =
      ((other.withClock reading).perform event).visible := by
  rw [eq_of_visible_eq h]
  exact (visible_perform_counts (s.withClock reading) other.transactions event).symm

/-- A transaction that fails shows nothing. -/
theorem visible_of_isFailedSet {s : Service} {event : ServiceEvent}
    (h : (s.perform event).isFailedSet = true) :
    (s.perform event).service.visible = s.visible ∧ (s.perform event).published = [] := by
  cases event with
  | set req =>
    cases ht : s.transactor with
    | none =>
      simp only [perform, set_eq_error_of_no_transactor ht]
      exact ⟨rfl, rfl⟩
    | some t =>
      cases hc : t.transact s.now s.tree s.target req with
      | error e =>
        simp only [perform, set_of_error ht hc]
        exact ⟨rfl, rfl⟩
      | ok c =>
        simp only [perform, set_of_ok ht hc] at h
        cases h
  | _ => cases h

/-- Services that look the same show the same in a run, once it has no failed transactions in
one of them. -/
theorem visible_replies_withoutFailed {s other : Service} (h : s.visible = other.visible)
    (events : ServiceRun) :
    (other.replies (s.withoutFailed events)).map Reply.visible =
      ((s.replies events).filter (!·.isFailedSet)).map Reply.visible := by
  induction events generalizing s other with
  | nil => rfl
  | cons head rest ih =>
    obtain ⟨reading, event⟩ := head
    cases hfailed : ((s.withClock reading).perform event).isFailedSet with
    | true =>
      have hsame := (visible_of_isFailedSet hfailed).1
      simp only [withoutFailed, replies, hfailed, if_true, List.filter_cons, Bool.not_true,
        Bool.false_eq_true, if_false]
      exact ih (hsame.trans h)
    | false =>
      have hreply := visible_perform h reading event
      have hservice := congrArg Reply.service hreply
      simp only [withoutFailed, replies, hfailed, Bool.false_eq_true, if_false, List.filter_cons,
        Bool.not_false, if_true, List.map_cons]
      rw [ih hservice, hreply]

/-- A transaction fails for lack of a schema or at one of its stages. At every stage it leaves the
committed tree, the cache and the feeds as they were and publishes nothing; and a run without its
failed transactions replies, publishes and leaves behind the same at every other event. -/
theorem failed_sets_are_invisible (s : Service) (events : ServiceRun) :
    (∀ reading req e, ((s.after events).withClock reading |>.set req).result = .error e →
      let called := (s.after events).withClock reading
      let reply := called.set req
      ((called.transactor = none ∧ e = .unsupported) ∨
          ∃ t, called.transactor = some t ∧ t.FailsAt reading called.target req called.tree e) ∧
        reply.service.tree = (s.after events).tree ∧
        reply.service.target = (s.after events).target ∧
        reply.service.feeds = (s.after events).feeds ∧ reply.published = []) ∧
      (s.replies (s.withoutFailed events)).map Reply.visible =
        ((s.replies events).filter (!·.isFailedSet)).map Reply.visible := by
  refine ⟨?_, visible_replies_withoutFailed rfl events⟩
  intro reading req e herror
  have hfailed : (((s.after events).withClock reading).perform (.set req)).isFailedSet = true := by
    simp [perform, Reply.map, Reply.isFailedSet, herror]
  obtain ⟨hvisible, hpublished⟩ := visible_of_isFailedSet hfailed
  have htree := congrArg Service.tree hvisible
  have htarget := congrArg Service.target hvisible
  have hfeeds := congrArg Service.feeds hvisible
  exact ⟨set_eq_error herror, htree, htarget, hfeeds, hpublished⟩

/-- A request fails at its second update, when its draft has the first one already. -/
theorem failed_set_is_invisible_half_way :
    let s := Collector.startedInterfaces.service.after
      (.ofSets [(1, Collector.setMtus [("eth0", 1500)])])
    let called := s.withClock 2
    let req : SetRequest := ⟨none, [], [], [.of (Collector.mtuPath "eth0") (.uint 9000),
      .of (.ofElems [.plain "routes"]) (.uint 1)]⟩
    let mtu : Node → Option LeafValue := fun tree => tree.leafAt? (Collector.mtuPath "eth0").elems
    (called.set req).result = .error (.update "/routes" (.unknownElement "/" "routes")) ∧
      (∃ t, called.transactor = some t ∧
        mtu ((t.carryOut 2 req).on called.workspace).2.draft = some (.uint 9000)) ∧
      (called.set req).service.tree.bind mtu = some (.uint 1500) ∧
      (called.set req).service.tree = s.tree ∧ (called.set req).service.target = s.target ∧
      (called.set req).published = [] := by
  intro s called req mtu
  have herror : (called.set req).result =
      .error (.update "/routes" (.unknownElement "/" "routes")) := rfl
  obtain ⟨-, htree, htarget, -, hpublished⟩ := (failed_sets_are_invisible
    Collector.startedInterfaces.service
    (.ofSets [(1, Collector.setMtus [("eth0", 1500)])])).1 2 req _ herror
  have hmtu : (called.set req).service.tree.bind mtu = some (.uint 1500) := by
    rw [htree]
    rfl
  exact ⟨herror, ⟨_, rfl, rfl⟩, hmtu, htree, htarget, hpublished⟩

end Service

end Telemetry
