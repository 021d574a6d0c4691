import Mathlib.Data.List.Infix
import Telemetry.Proofs.Service.Turns

/-!
Sessions of a subscriber: what happens to the service, what the client does and the turns of the
feed, in any order. A turn is taken in the state of its moment. Every other event leaves the
messages alone; it hands changes or a client message to the feed, or marks it, or does not concern
it.
-/

namespace Telemetry

inductive SessionEvent where
  | service (event : ServiceEvent)
  | send (id : String) (message : Except Status ClientMessage)
  /-- The client sends nothing more. -/
  | close (id : String)
  /-- The client takes nothing more. -/
  | drop (id : String)
  /-- The feed has a turn. -/
  | turn (id : String)

def SessionEvent.Serves (id : String) : SessionEvent → Prop
  | .service .serve => True
  | .turn other => other = id
  | _ => False

abbrev Session := List (Int64 × SessionEvent)

def Session.Has (session : Session) (event : SessionEvent) : Prop :=
  ∃ reading, (reading, event) ∈ session

theorem Session.has_concat {session : Session} {last : Int64 × SessionEvent}
    {event : SessionEvent} :
    Session.Has (session ++ [last]) event ↔ session.Has event ∨ last.2 = event := by
  obtain ⟨reading, other⟩ := last
  simp only [Has, List.mem_append, List.mem_singleton, Prod.mk.injEq, exists_or]
  constructor
  · rintro (h | ⟨_, -, rfl⟩)
    · exact Or.inl h
    · exact Or.inr rfl
  · rintro (h | rfl)
    · exact Or.inl h
    · exact Or.inr ⟨reading, rfl, rfl⟩

/-- A service in a session, with what was published in it, what the client sent that will be read,
and what the client received. -/
structure Trace where
  service : Service
  published : List Notification
  asked : List (Except Status ClientMessage)
  received : List FeedMessage

namespace Service

def turn (s : Service) (id : String) : Service × List FeedMessage :=
  match SortedMap.get? s.feeds id with
  | some feed =>
    let (messages, feed) :=
      feed.turn s.cancelled s.capacity (s.target.query feed.subscription.patterns)
    ({ s with feeds := SortedMap.insert s.feeds id feed }, messages)
  | none => (s, [])

theorem send_fst (s : Service) (id : String) (message : Except Status ClientMessage) :
    (s.send id message).1 = s.onFeed id fun feed => (feed.send message).1 := by
  unfold send onFeed
  cases SortedMap.get? s.feeds id <;> rfl

theorem turn_fst (s : Service) (id : String) :
    (s.turn id).1 = s.onFeed id fun feed =>
      (feed.turn s.cancelled s.capacity (s.target.query feed.subscription.patterns)).2 := by
  unfold turn onFeed
  cases SortedMap.get? s.feeds id <;> rfl

end Service

namespace Trace

/-- Lets an event happen in a session of the client that a feed belongs to. -/
def act (id : String) (t : Trace) : Int64 × SessionEvent → Trace
  | (reading, .service event) =>
    let reply := (t.service.withClock reading).perform event
    { t with
      service := reply.service
      published := t.published ++ reply.published
      received := t.received ++ Service.received id [reply] }
  | (_, .send other message) =>
    let (service, sent) := t.service.send other message
    { t with
      service := service
      asked := if other = id ∧ sent then t.asked ++ [message] else t.asked }
  | (_, .close other) => { t with service := t.service.onFeed other Feed.close }
  | (_, .drop other) => { t with service := t.service.onFeed other Feed.drop }
  | (_, .turn other) =>
    let (service, messages) := t.service.turn other
    { t with
      service := service
      received := if other = id then t.received ++ messages else t.received }

def feed? (t : Trace) (id : String) : Option Feed :=
  SortedMap.get? t.service.feeds id

def dump (t : Trace) (sub : Subscription) : List Notification :=
  t.service.target.query sub.patterns

end Trace

namespace Service

def trace (s : Service) (id : String) (session : Session) : Trace :=
  session.foldl (Trace.act id) ⟨s, [], [], []⟩

theorem trace_concat (s : Service) (id : String) (session : Session)
    (event : Int64 × SessionEvent) :
    s.trace id (session ++ [event]) = (s.trace id session).act id event := by
  simp [trace]

end Service

/-- How an event that does not serve a feed changes it: what is published is offered to it, what
the client sends is put in front of it, and the loss of the client and the end of its messages are
marked. -/
inductive Hears (id : String) (feed : Feed) :
    SessionEvent → List Notification → List (Except Status ClientMessage) → Feed → Prop
  | offered (event : ServiceEvent) (published : List Notification) :
      Hears id feed (.service event) published [] (feed.offerAll published)
  | sent (message : Except Status ClientMessage) (goes : feed.ended = false)
      (closed : feed.closed = false) :
      Hears id feed (.send id message) [] [message] { feed with inbox := feed.inbox ++ [message] }
  | closed : Hears id feed (.close id) [] [] feed.close
  | dropped : Hears id feed (.drop id) [] [] feed.drop
  | nothing (event : SessionEvent) (hclose : event ≠ .close id) (hdrop : event ≠ .drop id) :
      Hears id feed event [] [] feed

namespace Trace

variable {t : Trace} {id : String} {feed : Feed}

section OnFeed

variable {other : String} {change : Feed → Feed} (after : Trace)

/-- What is done to another feed does not concern this one. -/
theorem feed?_of_onFeed_of_ne (hafter : after.service = t.service.onFeed other change)
    (hother : other ≠ id) : after.feed? id = t.feed? id := by
  rw [feed?, hafter, Service.onFeed]
  cases SortedMap.get? t.service.feeds other with
  | none => rfl
  | some feed => exact SortedMap.get?_insert_of_ne _ _ hother.symm

theorem feed?_of_onFeed (hafter : after.service = t.service.onFeed id change)
    (hfeed : t.feed? id = some feed) : after.feed? id = some (change feed) := by
  have hget : SortedMap.get? t.service.feeds id = some feed := hfeed
  simp only [feed?, hafter, Service.onFeed, hget]
  exact SortedMap.get?_insert_self _ _ _

end OnFeed

theorem hears_of_send (hfeed : t.feed? id = some feed) (reading : Int64)
    (message : Except Status ClientMessage) :
    ∃ asked after, Hears id feed (.send id message) [] asked after ∧
      (t.act id (reading, .send id message)).asked = t.asked ++ asked ∧
      (t.act id (reading, .send id message)).feed? id = some after := by
  have hget : SortedMap.get? t.service.feeds id = some feed := hfeed
  have hfed := feed?_of_onFeed (t.act id (reading, .send id message)) (Service.send_fst ..) hfeed
  by_cases hread : feed.ended = false ∧ feed.closed = false
  · refine ⟨[message], _, .sent message hread.1 hread.2, ?_, ?_⟩
    · simp [act, Service.send, hget, Feed.send, hread.1, hread.2]
    · simpa [Feed.send, hread.1, hread.2] using hfed
  · have hunread : (feed.closed || feed.ended) = true := by
      cases hended : feed.ended <;> cases hclosed : feed.closed <;> simp_all
    refine ⟨[], feed, .nothing _ (by simp) (by simp), ?_, ?_⟩
    · simp [act, Service.send, hget, Feed.send, hunread]
    · simpa only [Feed.send, hunread, if_true] using hfed

theorem hears_of_service (hfeed : t.feed? id = some feed) (reading : Int64)
    {event : ServiceEvent} (hserve : event ≠ .serve) (hid : ∀ first, event ≠ .subscribe id first) :
    (t.act id (reading, .service event)).feed? id = some
        (feed.offerAll ((t.service.withClock reading).perform event).published) ∧
      (t.act id (reading, .service event)).received = t.received := by
  have hget : SortedMap.get? (t.service.withClock reading).feeds id = some feed := hfeed
  constructor
  · simp only [act, feed?, Service.feeds_perform _ hserve hid, hget, Option.map_some]
  · simp only [act, Service.received_perform _ id hserve, List.append_nil]

/-- Any event that does not serve the feed or open it anew. -/
theorem hears_of_act (hfeed : t.feed? id = some feed) (reading : Int64) {event : SessionEvent}
    (hserves : ¬ event.Serves id) (hid : ∀ first, event ≠ .service (.subscribe id first)) :
    ∃ published asked after, Hears id feed event published asked after ∧
      (t.act id (reading, event)).published = t.published ++ published ∧
      (t.act id (reading, event)).asked = t.asked ++ asked ∧
      (t.act id (reading, event)).received = t.received ∧
      (t.act id (reading, event)).feed? id = some after := by
  have hsame : t.published = t.published ++ [] ∧ t.asked = t.asked ++ [] := by simp
  cases event with
  | service event =>
    have hserve : event ≠ .serve := by
      rintro rfl
      exact hserves trivial
    obtain ⟨hafter, hreceived⟩ := hears_of_service hfeed reading hserve fun first h =>
      hid first (h ▸ rfl)
    exact ⟨_, [], _, .offered event _, rfl, hsame.2, hreceived, hafter⟩
  | send other message =>
    by_cases hother : other = id
    · subst hother
      obtain ⟨asked, after, hhears, hasked, hafter⟩ := hears_of_send hfeed reading message
      exact ⟨[], asked, after, hhears, hsame.1, hasked, rfl, hafter⟩
    · refine ⟨[], [], feed, .nothing _ (by simp) (by simp), hsame.1, ?_, rfl,
        (feed?_of_onFeed_of_ne _ (Service.send_fst ..) hother).trans hfeed⟩
      simp [act, hother]
  | close other =>
    by_cases hother : other = id
    · subst hother
      exact ⟨[], [], _, .closed, hsame.1, hsame.2, rfl, feed?_of_onFeed _ rfl hfeed⟩
    · exact ⟨[], [], feed, .nothing _ (by simpa using hother) (by simp), hsame.1, hsame.2, rfl,
        (feed?_of_onFeed_of_ne _ rfl hother).trans hfeed⟩
  | drop other =>
    by_cases hother : other = id
    · subst hother
      exact ⟨[], [], _, .dropped, hsame.1, hsame.2, rfl, feed?_of_onFeed _ rfl hfeed⟩
    · exact ⟨[], [], feed, .nothing _ (by simp) (by simpa using hother), hsame.1, hsame.2, rfl,
        (feed?_of_onFeed_of_ne _ rfl hother).trans hfeed⟩
  | turn other =>
    have hother : other ≠ id := hserves
    refine ⟨[], [], feed, .nothing _ (by simp) (by simp), hsame.1, hsame.2, ?_,
      (feed?_of_onFeed_of_ne _ (Service.turn_fst ..) hother).trans hfeed⟩
    simp [act, hother]

/-- An event that serves a feed gives it some turns, all in the state of that moment. -/
theorem turns_of_act (hfeed : t.feed? id = some feed) (reading : Int64) {event : SessionEvent}
    (hserves : event.Serves id) :
    ∃ n messages after, feed.turns t.service.cancelled t.service.capacity
        (t.dump feed.subscription) (n + 1) = (messages, after) ∧
      (t.act id (reading, event)).received = t.received ++ messages ∧
      (t.act id (reading, event)).feed? id = some after ∧
      (event = .service .serve → after.ended = false → after.Waits t.service.cancelled) := by
  have hget : SortedMap.get? t.service.feeds id = some feed := hfeed
  cases event with
  | service event =>
    cases event with
    | serve =>
      obtain ⟨n, hn⟩ := Feed.run_eq_turns t.service.cancelled t.service.capacity
        (t.dump feed.subscription) feed
      have hwaits : (feed.run t.service.cancelled t.service.capacity
          (t.dump feed.subscription)).2.ended = false → _ := Feed.waits_of_run
      obtain ⟨hsent, hfed⟩ := Service.get?_serve (t.service.withClock reading) id
      cases hrun : feed.run t.service.cancelled t.service.capacity (t.dump feed.subscription) with
      | mk messages after =>
        rw [hrun] at hn hwaits
        refine ⟨n, messages, after, hn.symm, ?_, ?_, fun _ => hwaits⟩
        · have hmessages : SortedMap.get? (t.service.withClock reading).serve.2 id =
              some messages := by
            rw [hsent]
            exact (congrArg (Option.map _) hget).trans
              (congrArg (fun run : List FeedMessage × Feed => some run.1) hrun)
          simp [act, Service.perform, Service.received, hmessages]
        · refine hfed.trans ?_
          exact (congrArg (Option.map _) hget).trans
            (congrArg (fun run : List FeedMessage × Feed => some run.2) hrun)
    | _ => cases hserves
  | turn other =>
    obtain rfl : other = id := hserves
    cases hturn : feed.turn t.service.cancelled t.service.capacity (t.dump feed.subscription) with
    | mk messages after =>
      have hsent : (t.service.turn other).2 = messages := by
        simp only [Service.turn, hget]
        exact congrArg Prod.fst hturn
      have hfed := feed?_of_onFeed (t.act other (reading, .turn other)) (Service.turn_fst ..) hfeed
      refine ⟨0, messages, after, Feed.turns_one.trans hturn, ?_, ?_, by simp⟩
      · simp [act, hsent]
      · exact hfed.trans (congrArg (fun turn => some turn.2) hturn)
  | _ => cases hserves

/-- An event that serves a feed neither publishes nor asks anything. -/
theorem same_of_serves (t : Trace) {event : Int64 × SessionEvent} (hserves : event.2.Serves id) :
    (t.act id event).published = t.published ∧ (t.act id event).asked = t.asked := by
  obtain ⟨reading, event⟩ := event
  cases event with
  | service event =>
    cases event with
    | serve => exact ⟨List.append_nil _, rfl⟩
    | _ => cases hserves
  | turn other => exact ⟨rfl, rfl⟩
  | _ => cases hserves

section Kept

variable (t : Trace) (id : String) (event : Int64 × SessionEvent)

theorem published_act : t.published <+: (t.act id event).published := by
  obtain ⟨reading, event⟩ := event
  cases event with
  | service event => exact List.prefix_append _ _
  | _ => exact List.prefix_rfl

theorem asked_act : t.asked <+: (t.act id event).asked := by
  obtain ⟨reading, event⟩ := event
  cases event with
  | send other message =>
    simp only [act]
    split
    · exact List.prefix_append _ _
    · exact List.prefix_rfl
  | _ => exact List.prefix_rfl

/-- How far feeds may lag stays the same, and what is cancelled stays so. -/
theorem kept_act : (t.act id event).service.capacity = t.service.capacity ∧
    (t.service.cancelled = true → (t.act id event).service.cancelled = true) := by
  have hfeed : ∀ {after : Trace} {other change},
      after.service = t.service.onFeed other change →
        after.service.capacity = t.service.capacity ∧
          (t.service.cancelled = true → after.service.cancelled = true) := by
    intro after other change hafter
    rw [hafter, Service.onFeed]
    split <;> exact ⟨rfl, fun h => h⟩
  obtain ⟨reading, event⟩ := event
  cases event with
  | service event =>
    obtain ⟨hcapacity, hcancelled⟩ := Service.kept_perform (t.service.withClock reading) event
    refine ⟨hcapacity, fun h => ?_⟩
    by_cases hcancel : event = .cancel
    · subst hcancel
      rfl
    · exact (hcancelled hcancel).trans h
  | send other message => exact hfeed (Service.send_fst ..)
  | close other => exact hfeed rfl
  | drop other => exact hfeed rfl
  | turn other => exact hfeed (Service.turn_fst ..)

end Kept

end Trace

namespace Service

variable {s : Service} {id : String} {session later : Session}

/-- What holds after every event of a session. -/
theorem trace_induction {P : Trace → Prop} (h : P (s.trace id session))
    (hact : ∀ t event, P t → P (t.act id event)) (hlonger : session <+: later) :
    P (s.trace id later) := by
  obtain ⟨rest, rfl⟩ := hlonger
  induction rest generalizing session with
  | nil => simpa using h
  | cons event rest ih =>
    rw [List.append_cons]
    refine @ih (session ++ [event]) ?_
    rw [trace_concat]
    exact hact _ event h

theorem published_grows (hlonger : session <+: later) :
    (s.trace id session).published <+: (s.trace id later).published :=
  trace_induction (P := fun t => (s.trace id session).published <+: t.published) List.prefix_rfl
    (fun t event h => h.trans (t.published_act id event)) hlonger

theorem asked_grows (hlonger : session <+: later) :
    (s.trace id session).asked <+: (s.trace id later).asked :=
  trace_induction (P := fun t => (s.trace id session).asked <+: t.asked) List.prefix_rfl
    (fun t event h => h.trans (t.asked_act id event)) hlonger

theorem cancelled_later (h : (s.trace id session).service.cancelled = true)
    (hlonger : session <+: later) : (s.trace id later).service.cancelled = true :=
  trace_induction (P := fun t => t.service.cancelled = true) h
    (fun t event => (t.kept_act id event).2) hlonger

theorem published_served {event : Int64 × SessionEvent} (hserves : event.2.Serves id) :
    (s.trace id (session ++ [event])).published = (s.trace id session).published := by
  rw [trace_concat]
  exact (Trace.same_of_serves _ hserves).1

theorem asked_served {event : Int64 × SessionEvent} (hserves : event.2.Serves id) :
    (s.trace id (session ++ [event])).asked = (s.trace id session).asked := by
  rw [trace_concat]
  exact (Trace.same_of_serves _ hserves).2

theorem capacity_trace (s : Service) (id : String) (session : Session) :
    (s.trace id session).service.capacity = s.capacity := by
  have hstart : (s.trace id []).service.capacity = s.capacity := rfl
  exact trace_induction (P := fun t => t.service.capacity = s.capacity) hstart
    (fun t event h => (t.kept_act id event).1.trans h) List.nil_prefix

end Service

end Telemetry
