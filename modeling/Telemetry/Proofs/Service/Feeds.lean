import Telemetry.Proofs.Service.Run

/-!
What happens to the feeds of a service. Every event offers what is published to all feeds alike;
only serving them sends messages, and only opening one puts it in place of another.
-/

namespace Telemetry

def Feed.offerAll (feed : Feed) (published : List Notification) : Feed :=
  published.foldl (fun feed n => feed.offer n) feed

/-- Only a stream subscription that goes on takes changes. -/
theorem Feed.offerAll_eq (feed : Feed) (published : List Notification) :
    feed.offerAll published =
      if feed.subscription.mode = .stream ∧ feed.ended = false then
        { feed with pending := feed.pending ++ published }
      else feed := by
  by_cases h : feed.subscription.mode = .stream ∧ feed.ended = false
  · rw [if_pos h]
    induction published generalizing feed with
    | nil => simp [offerAll]
    | cons n rest ih =>
      have hoffer : feed.offer n = { feed with pending := feed.pending ++ [n] } := by
        simp [offer, h.1, h.2]
      rw [offerAll, List.foldl_cons, hoffer]
      refine (ih { feed with pending := feed.pending ++ [n] } h).trans ?_
      simp
  · rw [if_neg h]
    induction published with
    | nil => rfl
    | cons n rest ih =>
      have hoffer : feed.offer n = feed := by
        unfold offer
        rw [if_neg (by simpa using h)]
      rw [offerAll, List.foldl_cons, hoffer]
      exact ih

namespace Service

def received (id : String) (replies : List (Reply EventResult)) : List FeedMessage :=
  replies.flatMap fun reply =>
    match reply.result with
    | .served messages => (SortedMap.get? messages id).getD []
    | _ => []

def backlog (s : Service) (id : String) : Nat :=
  ((SortedMap.get? s.feeds id).map (·.pending.length)).getD 0

section Feeds

variable {event : ServiceEvent} {id : String}

theorem feeds_publish {α : Type} (s : Service) (changes : List Notification) (result : α)
    (id : String) : SortedMap.get? (s.publish changes result).service.feeds id =
      (SortedMap.get? s.feeds id).map (·.offerAll (s.publish changes result).published) :=
  SortedMap.get?_map s.feeds (fun _ feed => feed.offerAll (s.publish changes result).published) id

theorem feeds_quiet {α : Type} (s : Service) (result : α) (id : String) :
    SortedMap.get? (s.quiet result).service.feeds id =
      (SortedMap.get? s.feeds id).map (·.offerAll (s.quiet result).published) := by
  cases hget : SortedMap.get? s.feeds id with
  | none => exact hget
  | some feed => exact hget

theorem feeds_writeMeta (s : Service) (updates : CacheTarget → List Update) (id : String) :
    SortedMap.get? (s.writeMeta updates).service.feeds id =
      (SortedMap.get? s.feeds id).map (·.offerAll (s.writeMeta updates).published) := by
  unfold writeMeta
  cases s.target.writeMeta s.now (updates s.target) with
  | none => exact feeds_quiet s.tick () id
  | some written => exact feeds_publish _ _ _ id

/-- A feed that is neither served nor opened anew is offered what is published. -/
theorem feeds_perform (s : Service) (hserve : event ≠ .serve)
    (hid : ∀ first, event ≠ .subscribe id first) :
    SortedMap.get? (s.perform event).service.feeds id =
      (SortedMap.get? s.feeds id).map (·.offerAll (s.perform event).published) := by
  cases event with
  | set req =>
    cases ht : s.transactor with
    | none =>
      simp only [perform, set_eq_error_of_no_transactor ht]
      exact feeds_quiet s () id
    | some t =>
      cases hc : t.transact s.now s.tree s.target req with
      | error e =>
        simp only [perform, set_of_error ht hc]
        exact feeds_quiet s () id
      | ok c =>
        simp only [perform, set_of_ok ht hc]
        exact feeds_publish _ _ _ id
  | ingest cancelled responses =>
    cases cancelled with
    | true => exact feeds_quiet s () id
    | false => exact feeds_publish _ _ _ id
  | statistics => exact feeds_writeMeta s CacheTarget.statistics id
  | size => exact feeds_writeMeta s CacheTarget.sizeUpdates id
  | subscribe other first =>
    have hother : id ≠ other := by
      rintro rfl
      exact hid first rfl
    simp only [perform, subscribe]
    cases Subscription.ofFirst s.target.name first with
    | error status => exact feeds_quiet s () id
    | ok subscription =>
      have hget := SortedMap.get?_insert_of_ne s.feeds (Feed.ofSubscription subscription) hother
      exact hget.trans (feeds_quiet s () id)
  | serve => exact absurd rfl hserve
  | cancel => exact feeds_quiet s () id

/-- No event changes how far feeds may lag, and only cancelling cancels. -/
theorem kept_perform (s : Service) (event : ServiceEvent) :
    (s.perform event).service.capacity = s.capacity ∧
      (event ≠ .cancel → (s.perform event).service.cancelled = s.cancelled) := by
  cases event with
  | set req =>
    cases ht : s.transactor with
    | none =>
      simp only [perform, set_eq_error_of_no_transactor ht]
      exact ⟨rfl, fun _ => rfl⟩
    | some t =>
      cases hc : t.transact s.now s.tree s.target req with
      | error e =>
        simp only [perform, set_of_error ht hc]
        exact ⟨rfl, fun _ => rfl⟩
      | ok c =>
        simp only [perform, set_of_ok ht hc]
        exact ⟨rfl, fun _ => rfl⟩
  | ingest cancelled responses => cases cancelled <;> exact ⟨rfl, fun _ => rfl⟩
  | statistics =>
    simp only [perform, writeMeta]
    cases s.target.writeMeta s.now s.target.statistics <;> exact ⟨rfl, fun _ => rfl⟩
  | size =>
    simp only [perform, writeMeta]
    cases s.target.writeMeta s.now s.target.sizeUpdates <;> exact ⟨rfl, fun _ => rfl⟩
  | subscribe id first =>
    simp only [perform, subscribe]
    cases Subscription.ofFirst s.target.name first <;> exact ⟨rfl, fun _ => rfl⟩
  | serve => exact ⟨rfl, fun _ => rfl⟩
  | cancel => exact ⟨rfl, fun h => absurd rfl h⟩

theorem cancelled_perform (s : Service) (hcancel : event ≠ .cancel) :
    (s.perform event).service.cancelled = s.cancelled :=
  (kept_perform s event).2 hcancel

theorem get?_serve (s : Service) (id : String) :
    SortedMap.get? s.serve.2 id = (SortedMap.get? s.feeds id).map (fun feed =>
        (feed.run s.cancelled s.capacity (s.target.query feed.subscription.patterns)).1) ∧
      SortedMap.get? s.serve.1.feeds id = (SortedMap.get? s.feeds id).map fun feed =>
        (feed.run s.cancelled s.capacity (s.target.query feed.subscription.patterns)).2 := by
  have hruns := SortedMap.get?_map s.feeds (fun _ feed =>
    feed.run s.cancelled s.capacity (s.target.query feed.subscription.patterns)) id
  constructor
  · have hmap := SortedMap.get?_map (s.feeds.map fun entry => (entry.1, entry.2.run s.cancelled
      s.capacity (s.target.query entry.2.subscription.patterns))) (fun _ run => run.1) id
    rw [hruns, Option.map_map] at hmap
    exact hmap
  · have hmap := SortedMap.get?_map (s.feeds.map fun entry => (entry.1, entry.2.run s.cancelled
      s.capacity (s.target.query entry.2.subscription.patterns))) (fun _ run => run.2) id
    rw [hruns, Option.map_map] at hmap
    exact hmap

/-- Nothing but being served sends a feed messages. -/
theorem received_perform (s : Service) (id : String) (hserve : event ≠ .serve) :
    received id [s.perform event] = [] := by
  cases event with
  | serve => exact absurd rfl hserve
  | set req => rfl
  | ingest cancelled responses => rfl
  | statistics => rfl
  | size => rfl
  | subscribe other first => rfl
  | cancel => rfl

theorem received_append (id : String) (first second : List (Reply EventResult)) :
    received id (first ++ second) = received id first ++ received id second :=
  List.flatMap_append

end Feeds

end Service

end Telemetry
