import Mathlib.Data.List.Infix
import Telemetry.Proofs.Service.Feeds
import Telemetry.Proofs.Service.Start
import Telemetry.Proofs.Transaction.Naming

/-!
What a stream subscriber knows. Its feed collects everything that is published from its opening
on; the initial state is read later, when the feed is first served, and the changes collected so
far are sent after it although it contains them. That does no harm: the changes lead from some
view to that of the cache, and taking them again on top of it changes nothing. From then on each
change takes the subscriber along.
-/

namespace Telemetry

namespace ServiceEvent

/-- What an event writes to the cache is written at paths of named elements: those of what is
ingested, or those that the schema leads along. -/
def Named (transactor : Option Transactor) : ServiceEvent → Prop
  | ingest _ responses => ∀ n, .update n ∈ responses → n.Named
  | set _ => ∀ t, transactor = some t → t.schema.root.Named ∧ t.siblings.config ≠ ""
  | _ => True

end ServiceEvent

namespace Feed

def streaming (s : Subscription) (started : Bool) (pending : List Notification) : Feed :=
  ⟨s, started, pending, [], false, true, false, false⟩

variable {s : Subscription} {started : Bool} {pending : List Notification}

theorem offerAll_streaming (hmode : s.mode = .stream) (published : List Notification) :
    (streaming s started pending).offerAll published =
      streaming s started (pending ++ published) := by
  rw [offerAll_eq, if_pos ⟨hmode, rfl⟩]
  rfl

/-- A feed that has not fallen behind is sent the initial state, once, and all that is pending. -/
theorem run_streaming (hmode : s.mode = .stream) {capacity : Nat}
    (hroom : pending.length ≤ capacity) (dump : List Notification) :
    (streaming s started pending).run false capacity dump =
      ((if started then [] else (streaming s started pending).opening dump) ++
        (pending.filterMap s.filter).map .delta, streaming s true []) := by
  have hmissed : ¬ 0 < pending.length - capacity := by omega
  have hflush : flush capacity (streaming s true pending) =
      ((pending.filterMap s.filter).map .delta, false) := by
    rw [flush, streaming, if_neg hmissed, List.map_filterMap]
  have hserve : serve false capacity dump (streaming s started pending) =
      ((if started then [] else (streaming s started pending).opening dump) ++
        (pending.filterMap s.filter).map .delta ++ [], streaming s true []) := by
    unfold serve
    simp only [streaming, hmode, Bool.false_eq_true, if_false]
    simp only [streaming] at hflush
    rw [hflush]
    rfl
  rw [List.append_nil] at hserve
  exact hserve

end Feed

namespace View

theorem receive_deltas (v : View) (ns : List Notification) :
    (ns.map FeedMessage.delta).foldl receive v = v.takes ns := by
  rw [List.foldl_map]
  rfl

end View

namespace Service

structure Naming (s : Service) : Prop where
  allKeyed : CacheTarget.AllKeyed s.target.leaves
  placed : s.Placed

section Perform

variable {s : Service} {event : ServiceEvent}

open CacheTarget (Shows)

theorem shows_set (h : s.Naming) {req : SetRequest}
    (hreq : (ServiceEvent.set req).Named s.transactor) :
    Shows s.target (s.set req).service.target (s.set req).published := by
  cases ht : s.transactor with
  | none =>
    rw [set_eq_error_of_no_transactor ht]
    exact Shows.of_leaves_eq h.allKeyed rfl
  | some t =>
    cases hc : t.transact s.now s.tree s.target req with
    | error e =>
      rw [set_of_error ht hc]
      exact Shows.of_leaves_eq h.allKeyed rfl
    | ok c =>
      rw [set_of_ok ht hc]
      obtain ⟨tree, htree, hplace⟩ := h.placed t ht
      obtain ⟨hschema, hconfig⟩ := hreq t ht
      rw [htree] at hc
      have hnamed := Transactor.named_of_transact hschema hconfig hplace hc
      obtain ⟨_, _, -, -, -, -, happly, -⟩ := Transactor.transact_eq_ok hc
      exact (CacheTarget.shows_apply h.allKeyed hnamed happly).filter_isEmpty

theorem shows_writeMeta (h : s.Naming) {updates : CacheTarget → List Update}
    (hupdates : Notification.Named ⟨s.now, none, updates s.target, [], false⟩) :
    Shows s.target (s.writeMeta updates).service.target (s.writeMeta updates).published := by
  unfold writeMeta
  cases hwritten : s.target.writeMeta s.now (updates s.target) with
  | none => exact Shows.of_leaves_eq h.allKeyed rfl
  | some written =>
    have happly := toOption_eq_some.mp hwritten
    exact (CacheTarget.shows_apply h.allKeyed hupdates happly).filter_isEmpty

/-- Whatever happens, what is published takes the view of the cache along. -/
theorem shows_perform (h : s.Naming) (hevent : event.Named s.transactor) :
    Shows s.target (s.perform event).service.target (s.perform event).published := by
  cases event with
  | set req => exact shows_set h hevent
  | ingest cancelled responses =>
    cases cancelled with
    | true => exact Shows.of_leaves_eq h.allKeyed rfl
    | false => exact (CacheTarget.shows_ingest h.allKeyed hevent).filter_isEmpty
  | statistics => exact shows_writeMeta h (s.target.named_statistics s.now)
  | size => exact shows_writeMeta h (s.target.named_sizeUpdates s.now)
  | subscribe id first =>
    simp only [perform, subscribe]
    cases Subscription.ofFirst s.target.name first <;>
      exact Shows.of_leaves_eq h.allKeyed rfl
  | serve => exact Shows.of_leaves_eq h.allKeyed rfl
  | cancel => exact Shows.of_leaves_eq h.allKeyed rfl

theorem naming_perform (h : s.Naming) (hevent : event.Named s.transactor) :
    (s.perform event).service.Naming :=
  ⟨(shows_perform h hevent).allKeyed, placed_perform h.placed event⟩

end Perform

section Follow

variable {s : Service} {id : String} {subscription : Subscription} {event : ServiceEvent}
  {known : View}

/-- A feed with what its client knows. Before the initial state is read the pending changes lead
from some view to that of the cache; after it they lead from what the client knows. -/
structure Follows (s : Service) (id : String) (subscription : Subscription) (known : View) :
    Prop where
  cancelled : s.cancelled = false
  feed : ∃ started pending,
    SortedMap.get? s.feeds id = some (Feed.streaming subscription started pending) ∧
    (∀ n ∈ pending, n.basePath.elems = []) ∧
    (started = false → known = View.empty ∧ ∃ v : View, v.takes pending = s.target.view) ∧
    (started = true → known.takes (pending.filterMap subscription.filter) =
      s.target.view.restrict subscription)

/-- A feed that is not served goes on collecting. -/
theorem follows_perform (hmode : subscription.mode = .stream) (hnaming : s.Naming)
    (h : s.Follows id subscription known) (hevent : event.Named s.transactor)
    (hserve : event ≠ .serve) (hcancel : event ≠ .cancel)
    (hid : ∀ first, event ≠ .subscribe id first) :
    (s.perform event).service.Follows id subscription known := by
  obtain ⟨started, pending, hget, hbase, hwaiting, hstarted⟩ := h.feed
  have hshows := shows_perform hnaming hevent
  have hfeed := feeds_perform s hserve hid
  rw [hget, Option.map_some, Feed.offerAll_streaming hmode] at hfeed
  have hcancelled := (cancelled_perform s hcancel).trans h.cancelled
  refine ⟨hcancelled, started, pending ++ (s.perform event).published, hfeed, ?_, ?_, ?_⟩
  · intro n hn
    rcases List.mem_append.mp hn with hn | hn
    · exact hbase n hn
    · exact hshows.base n hn
  · intro hfalse
    obtain ⟨hempty, v, hv⟩ := hwaiting hfalse
    refine ⟨hempty, v, ?_⟩
    rw [View.takes_append, hv, hshows.view]
  · intro htrue
    rw [List.filterMap_append, View.takes_append, hstarted htrue, hshows.view,
      View.restrict_takes hshows.base]

/-- A feed that is served sends all that its client does not know yet. -/
theorem follows_serve (hmode : subscription.mode = .stream)
    (hdump : subscription.updatesOnly = false) (hnaming : s.Naming)
    (h : s.Follows id subscription known) (hroom : s.backlog id ≤ s.capacity) :
    (received id [s.perform .serve]).foldl View.receive known =
        s.target.view.restrict subscription ∧
      (s.perform .serve).service.Follows id subscription
        (s.target.view.restrict subscription) := by
  obtain ⟨started, pending, hget, hbase, hwaiting, hstarted⟩ := h.feed
  obtain ⟨hsent, hfeed⟩ := get?_serve s id
  have hpending : pending.length ≤ s.capacity := by
    rw [backlog, hget] at hroom
    exact hroom
  rw [hget, Option.map_some, h.cancelled, Feed.run_streaming hmode hpending] at hsent hfeed
  have hreceived : received id [s.perform .serve] =
      (if started then [] else (Feed.streaming subscription started pending).opening
        (s.target.query subscription.patterns)) ++
        (pending.filterMap subscription.filter).map .delta := by
    simp only [received, perform, List.flatMap_cons, List.flatMap_nil, List.append_nil, hsent]
    rfl
  refine ⟨?_, h.cancelled, true, [], hfeed, ?_, ?_, ?_⟩
  · rw [hreceived, List.foldl_append, View.receive_deltas]
    cases started with
    | true => exact hstarted rfl
    | false =>
      obtain ⟨rfl, v, hv⟩ := hwaiting rfl
      have hopening : ((Feed.streaming subscription false pending).opening
          (s.target.query subscription.patterns)).foldl View.receive View.empty =
          s.target.view.restrict subscription := by
        simp only [Feed.opening, Feed.streaming, hdump, Bool.false_eq_true, if_false,
          List.foldl_append, View.receive_deltas]
        exact CacheTarget.takes_query hnaming.allKeyed subscription
      simp only [Bool.false_eq_true, if_false]
      rw [hopening, ← View.restrict_takes hbase, ← hv, View.takes_takes]
  · intro n hn
    cases hn
  · intro hfalse
    cases hfalse
  · intro _
    rfl

/-- The events of a run that leave a feed to itself and write at paths of named elements. -/
structure Undisturbed (transactor : Option Transactor) (id : String) (events : ServiceRun) :
    Prop where
  named : ∀ event ∈ events, event.2.Named transactor
  cancel : ∀ event ∈ events, event.2 ≠ .cancel
  subscribe : ∀ event ∈ events, ∀ first, event.2 ≠ .subscribe id first

/-- Whatever a run does, the feed and what its client knows go along. -/
theorem follows_after (hmode : subscription.mode = .stream)
    (hdump : subscription.updatesOnly = false) (hnaming : s.Naming)
    (h : s.Follows id subscription known) {events : ServiceRun}
    (hevents : Undisturbed s.transactor id events)
    (hroom : ∀ done, done <+: events → (s.after done).backlog id ≤ (s.after done).capacity) :
    (s.after events).Naming ∧ (s.after events).Follows id subscription
      ((received id (s.replies events)).foldl View.receive known) := by
  induction events generalizing s known with
  | nil => exact ⟨hnaming, h⟩
  | cons head rest ih =>
    obtain ⟨reading, event⟩ := head
    have hclock : (s.withClock reading).Naming := ⟨hnaming.allKeyed, hnaming.placed⟩
    have hfollows : (s.withClock reading).Follows id subscription known := ⟨h.cancelled, h.feed⟩
    have hnamed := hevents.named _ List.mem_cons_self
    have hnext := naming_perform hclock hnamed
    have hlater : Undisturbed ((s.withClock reading).perform event).service.transactor id rest := by
      rw [(sameKind_perform (s.withClock reading) event).1]
      refine ⟨?_, ?_, ?_⟩
      · intro other hother
        exact hevents.named other (List.mem_cons_of_mem _ hother)
      · intro other hother
        exact hevents.cancel other (List.mem_cons_of_mem _ hother)
      · intro other hother
        exact hevents.subscribe other (List.mem_cons_of_mem _ hother)
    have hlaterRoom : ∀ done, done <+: rest →
        (((s.withClock reading).perform event).service.after done).backlog id ≤
          (((s.withClock reading).perform event).service.after done).capacity := by
      intro done hdone
      exact hroom ((reading, event) :: done) ((List.prefix_cons_inj _).mpr hdone)
    have hreplies : received id (s.replies ((reading, event) :: rest)) =
        received id [(s.withClock reading).perform event] ++
          received id (((s.withClock reading).perform event).service.replies rest) :=
      received_append id [_] _
    rw [hreplies, List.foldl_append]
    by_cases hserve : event = .serve
    · subst hserve
      have hnow : (s.withClock reading).backlog id ≤ (s.withClock reading).capacity :=
        hroom [] List.nil_prefix
      obtain ⟨hknown, hserved⟩ := follows_serve hmode hdump hclock hfollows hnow
      rw [hknown]
      exact ih hnext hserved hlater hlaterRoom
    · have hcancel := hevents.cancel _ List.mem_cons_self
      have hid := hevents.subscribe _ List.mem_cons_self
      have hserved := follows_perform hmode hclock hfollows hnamed hserve hcancel hid
      rw [received_perform _ id hserve]
      exact ih hnext hserved hlater hlaterRoom

end Follow

section Open

variable {s : Service} {id : String} {list : SubscriptionList}

def streamOf (list : SubscriptionList) : Subscription :=
  ⟨.stream, patternsBelow (list.base.getD Path.root) (list.paths.map (·.getD Path.root)),
    list.updatesOnly⟩

theorem ofFirst_stream {own : String} {subscription : Subscription} (hmode : list.mode = 0)
    (h : Subscription.ofFirst own (some (.ok (.subscribe list))) = .ok subscription) :
    subscription = streamOf list := by
  have hstream : Mode.ofInt? list.mode = some .stream := by
    rw [hmode]
    rfl
  simp only [Subscription.ofFirst, Subscription.ofList, hstream] at h
  obtain ⟨_, -, h⟩ := bind_eq_ok.mp h
  exact (Except.ok.inj h).symm

/-- A feed that was just opened knows nothing. -/
theorem follows_subscribe (hmode : list.mode = 0) (hcancelled : s.cancelled = false)
    (hopened : (s.subscribe id (some (.ok (.subscribe list)))).result = .ok ()) :
    (s.subscribe id (some (.ok (.subscribe list)))).service.Follows id (streamOf list)
      View.empty := by
  unfold subscribe at hopened ⊢
  cases hfirst : Subscription.ofFirst s.target.name (some (.ok (.subscribe list))) with
  | error status =>
    rw [hfirst] at hopened
    cases hopened
  | ok subscription =>
    rw [ofFirst_stream hmode hfirst]
    refine ⟨hcancelled, false, [], SortedMap.get?_insert_self _ _ _, ?_, ?_, ?_⟩
    · intro n hn
      cases hn
    · intro _
      exact ⟨rfl, s.target.view, rfl⟩
    · intro htrue
      cases htrue

theorem naming_after (h : s.Naming) (hcancelled : s.cancelled = false) {events : ServiceRun}
    (hnamed : ∀ event ∈ events, event.2.Named s.transactor)
    (hcancel : ∀ event ∈ events, event.2 ≠ .cancel) :
    (s.after events).Naming ∧ (s.after events).cancelled = false := by
  induction events generalizing s with
  | nil => exact ⟨h, hcancelled⟩
  | cons head rest ih =>
    have hclock : (s.withClock head.1).Naming := ⟨h.allKeyed, h.placed⟩
    have hnext := naming_perform hclock (hnamed head List.mem_cons_self)
    have hsteady := cancelled_perform (s.withClock head.1) (hcancel head List.mem_cons_self)
    have hlater : ∀ event ∈ rest,
        event.2.Named ((s.withClock head.1).perform head.2).service.transactor := by
      intro event hevent
      rw [(sameKind_perform (s.withClock head.1) head.2).1]
      exact hnamed event (List.mem_cons_of_mem _ hevent)
    exact ih hnext (hsteady.trans hcancelled) hlater
      fun event hevent => hcancel event (List.mem_cons_of_mem _ hevent)

end Open

end Service

namespace Collector

open Service

variable {settings : Settings} {given : Option Schema} {files : String → Option String}
  {isFree : Bool} {now : Int64} {c : Collector}

/-- Whenever a stream subscription is opened and whenever its initial state is read, if it never
falls behind, then once it is served the values it was sent make up what it covers of the cache. -/
theorem streamed_view_is_cached (hstart : start settings given files isFree now = .ok c)
    {before during : ServiceRun} {id : String} {list : SubscriptionList}
    (hnamed : ∀ event ∈ before ++ during, event.2.Named c.service.transactor)
    (hcancel : ∀ event ∈ before ++ during, event.2 ≠ .cancel)
    (hid : ∀ event ∈ during, ∀ first, event.2 ≠ .subscribe id first)
    (hmode : list.mode = 0) (hdump : list.updatesOnly = false) {opened : Service}
    (hopened : (c.service.after before).subscribe id (some (.ok (.subscribe list))) =
      opened.quiet (.ok ()))
    (hroom : ∀ done, done <+: during → (opened.after done).backlog id ≤ (opened.after done).capacity)
    (reading : Int64) (elems : List PathElem) (value : TypedValue) (timestamp : Int64) :
    View.ofMessages (received id (opened.replies (during ++ [(reading, .serve)]))) elems =
        some (value, timestamp) ↔
      ∃ leaf ∈ SortedMap.values (opened.after (during ++ [(reading, .serve)])).target.leaves,
        leaf.path.elems = elems ∧ leaf.value = value ∧ leaf.timestamp = timestamp ∧
        (patternsBelow (list.base.getD Path.root) (list.paths.map (·.getD Path.root))).any
          leaf.path.isMatch = true := by
  have hleaves : c.service.target.leaves = [] := by
    rw [(start_eq_ok hstart).1]
    rfl
  have hfresh : c.service.Naming :=
    ⟨hleaves ▸ CacheTarget.allKeyed_nil, placed_start hstart⟩
  obtain ⟨hbefore, hcancelled⟩ := naming_after hfresh (cancelled_start hstart)
    (fun event hevent => hnamed event (List.mem_append_left _ hevent))
    (fun event hevent => hcancel event (List.mem_append_left _ hevent))
  have hnaming : ((c.service.after before).perform
      (.subscribe id (some (.ok (.subscribe list))))).service.Naming :=
    naming_perform hbefore trivial
  have hfollows := follows_subscribe hmode hcancelled (congrArg Reply.result hopened)
  rw [hopened] at hfollows
  rw [perform, hopened] at hnaming
  have hsame : opened.transactor = c.service.transactor := by
    have hsubscribed := (sameKind_perform (c.service.after before)
      (.subscribe id (some (.ok (.subscribe list))))).1
    rw [perform, hopened] at hsubscribed
    exact hsubscribed.trans (transactor_after c.service before)
  have hduring : Undisturbed opened.transactor id during := by
    refine ⟨?_, ?_, hid⟩
    · intro event hevent
      rw [hsame]
      exact hnamed event (List.mem_append_right _ hevent)
    · intro event hevent
      exact hcancel event (List.mem_append_right _ hevent)
  obtain ⟨hlast, hcollected⟩ := follows_after rfl hdump hnaming hfollows hduring hroom
  have hclock : ((opened.after during).withClock reading).Naming :=
    ⟨hlast.allKeyed, hlast.placed⟩
  obtain ⟨hknown, -⟩ := follows_serve (s := (opened.after during).withClock reading) rfl hdump
    hclock ⟨hcollected.cancelled, hcollected.feed⟩ (hroom during List.prefix_rfl)
  have hview : View.ofMessages (received id (opened.replies (during ++ [(reading, .serve)]))) =
      (opened.after during).target.view.restrict (streamOf list) := by
    rw [replies_append, received_append, View.ofMessages, List.foldl_append]
    exact hknown
  rw [hview, after_append]
  exact CacheTarget.restrict_view_eq_some_iff hlast.allKeyed

theorem named_interfaces : interfacesSchema.root.Named := by
  refine SchemaNode.named_of_field (by decide) rfl ?_
  refine SchemaNode.named_of_field (by decide) rfl ?_
  refine SchemaNode.named_of_field (by decide) rfl ?_
  exact SchemaNode.named_of_field (by decide) rfl (SchemaNode.named_leafOf _)

/-- A value is overwritten between the opening of a feed and its first turn, and another one is
deleted after it. -/
theorem streamed_view_is_cached_interfaces :
    let mtu : Int64 → String → UInt64 → Notification := fun time name value =>
      ⟨time, none, [.of (mtuPath name) (.uint value)], [], false⟩
    let before : ServiceRun := [(0, .ingest false [.update (mtu 1 "eth0" 1500)])]
    let during : ServiceRun :=
      [(0, .ingest false [.update (mtu 2 "eth0" 9000), .update (mtu 2 "eth1" 1500)]),
        (3, .set (setMtus [("eth2", 1280)])), (0, .serve),
        (0, .ingest false [.update ⟨4, none, [], [mtuPath "eth1"], false⟩])]
    let list : SubscriptionList := ⟨none, [some (.ofElems [.plain "interfaces"])], 0, false⟩
    let opened := ((startedInterfaces.service.after before).subscribe "client"
      (some (.ok (.subscribe list)))).service
    let view := View.ofMessages (received "client" (opened.replies (during ++ [(0, .serve)])))
    (view (mtuPath "eth0").elems).map (·.2) = some 2 ∧ (view (mtuPath "eth1").elems).isNone ∧
      ∀ elems value timestamp, view elems = some (value, timestamp) ↔
        ∃ leaf ∈ SortedMap.values (opened.after (during ++ [(0, .serve)])).target.leaves,
          leaf.path.elems = elems ∧ leaf.value = value ∧ leaf.timestamp = timestamp ∧
          (patternsBelow (list.base.getD Path.root) (list.paths.map (·.getD Path.root))).any
            leaf.path.isMatch = true := by
  intro mtu before during list opened view
  have hpath : ∀ name, Path.Named (mtuPath name).elems := by
    intro name elem helem
    simp only [mtuPath, Path.ofElems, PathElem.plain, List.mem_cons, List.not_mem_nil,
      or_false] at helem
    rcases helem with rfl | rfl | rfl | rfl <;> simp
  have hroot : Path.Named Path.root.elems := by
    intro elem helem
    cases helem
  have hmtu : ∀ time name value, (mtu time name value).Named := by
    intro time name value
    refine ⟨hroot, ?_⟩
    intro update hupdate path hsent
    rw [List.mem_singleton.mp hupdate] at hsent
    cases hsent
    exact hpath name
  have hdelete : Notification.Named ⟨4, none, [], [mtuPath "eth1"], false⟩ := by
    refine ⟨hroot, ?_⟩
    intro update hupdate
    cases hupdate
  have hnamed : ∀ event ∈ before ++ during,
      event.2.Named startedInterfaces.service.transactor := by
    simp [before, during, ServiceEvent.Named, hmtu, hdelete, startedInterfaces, Service.start,
      Service.connect, named_interfaces, Siblings.standard]
  have hcancel : ∀ event ∈ before ++ during, event.2 ≠ .cancel := by
    simp [before, during]
  have hid : ∀ event ∈ during, ∀ first, event.2 ≠ .subscribe "client" first := by
    simp [during]
  have hroom : ∀ done ∈ during.inits, (opened.after done).backlog "client" ≤
      (opened.after done).capacity := by
    decide +kernel
  refine ⟨by decide +kernel, by decide +kernel, ?_⟩
  exact streamed_view_is_cached start_interfaces hnamed hcancel hid rfl rfl rfl
    (fun done hdone => hroom done ((List.mem_inits done during).mpr hdone)) 0

end Collector

end Telemetry
