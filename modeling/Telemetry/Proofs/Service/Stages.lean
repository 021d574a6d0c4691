import Telemetry.Proofs.Service.Protocol

/-!
How the feed of a subscriber relates to what was sent to it in a session: the changes that are not
taken yet are pending, and the client messages that are not answered yet are in the inbox. An event
that does not serve the feed keeps this relation.
-/

namespace Telemetry.Service

variable {s : Service} {id : String} {sub : Subscription}

section Longer

variable {first events whole : Session} {moments : List Session} {taken : List Notification}
  {standing : Standing}

theorem Begins.longer (h : Begins id first events) (hlonger : events <+: whole) :
    Begins id first whole := by
  obtain ⟨event, hnext, hserves⟩ := h.next
  exact ⟨h.unserved, h.present, event, hnext.trans hlonger, hserves⟩

theorem has_longer {event : SessionEvent} (h : events.Has event)
    (hlonger : events <+: whole) : whole.Has event :=
  h.imp fun _ hmem => hlonger.subset hmem

theorem PollEnds.longer {count : Nat} (h : s.PollEnds id events count standing)
    (hlonger : events <+: whole) : s.PollEnds id whole count standing := by
  match standing, h with
  | .waiting, _ => trivial
  | .gone, h => exact has_longer h hlonger
  | .done, ⟨p, hp, hreason⟩ => exact ⟨p, hp.trans hlonger, hreason⟩
  | .failed status, ⟨hstatus, p, message, hp, hreason⟩ =>
    exact ⟨hstatus, p, message, hp.trans hlonger, hreason⟩

theorem StreamEnds.longer (h : s.StreamEnds id events taken standing)
    (hlonger : events <+: whole) : s.StreamEnds id whole taken standing := by
  match standing, h with
  | .waiting, _ => trivial
  | .gone, h => exact has_longer h hlonger
  | .done, ⟨p, hp, hreason⟩ => exact ⟨p, hp.trans hlonger, hreason⟩
  | .failed status, ⟨p, hp, hreason⟩ => exact ⟨p, hp.trans hlonger, hreason⟩

theorem Polled.longer (h : s.Polled id first events moments standing) (hlonger : events <+: whole) :
    s.Polled id first whole moments standing := by
  have hcount : moments.length ≤ (s.trace id events).asked.length := by
    have hlength := congrArg List.length h.polls
    rw [List.length_take, List.length_replicate] at hlength
    omega
  refine ⟨h.ordered, fun p hp => ?_, ?_, h.asked, h.going, h.standing.longer hlonger⟩
  · obtain ⟨hfirst, event, hnext, hserves⟩ := h.served p hp
    exact ⟨hfirst, event, hnext.trans hlonger, hserves⟩
  · obtain ⟨more, hmore⟩ : (s.trace id events).asked <+: (s.trace id whole).asked :=
      asked_grows hlonger
    rw [← hmore, List.take_append_of_le_length hcount]
    exact h.polls

/-- One event later, the changes that are taken are the same. -/
theorem Streamed.later (h : s.Streamed id events taken standing) (event : Int64 × SessionEvent)
    (hnow : ∀ lag, s.Overrun id events lag →
      (s.trace id events).published.length = taken.length + lag ∧
        ∀ status, standing = .failed status → status.code = .resourceExhausted) :
    s.Streamed id (events ++ [event]) taken standing := by
  have hlonger : events <+: events ++ [event] := List.prefix_append _ _
  have hproper : ∀ p, p <+: events ++ [event] → p ≠ events ++ [event] →
      p = events ∨ (p <+: events ∧ p ≠ events) := by
    intro p hp hne
    have hshorter := (List.prefix_concat_iff.mp hp).resolve_left hne
    by_cases hevents : p = events
    · exact Or.inl hevents
    · exact Or.inr ⟨hshorter, hevents⟩
  refine ⟨h.order.trans (published_grows hlonger), ?_, ?_, h.standing.longer hlonger⟩
  · intro p hp hne hcancelled
    rcases hproper p hp hne with rfl | ⟨hshorter, hother⟩
    · exact h.order
    · exact h.stopped p hshorter hother hcancelled
  · intro p hp hne
    rcases hproper p hp hne with rfl | ⟨hshorter, hother⟩
    · exact hnow
    · exact h.overrun p hshorter hother

theorem overrun_iff {p : Session} {feed : Feed} (hfeed : (s.trace id p).feed? id = some feed)
    {lag : Nat} : s.Overrun id p lag ↔
      feed.ended = false ∧ feed.pending.length = lag ∧ s.capacity < lag := by
  constructor
  · rintro ⟨other, hother, hlags⟩
    rw [hfeed] at hother
    cases hother
    exact hlags
  · exact fun hlags => ⟨feed, hfeed, hlags⟩

/-- What is not taken yet may be too much, but none of it is lost before it is looked at. -/
theorem Streamed.later_of_pending {feed : Feed} (h : s.Streamed id events taken .waiting)
    (hfeed : (s.trace id events).feed? id = some feed)
    (hpending : (s.trace id events).published = taken ++ feed.pending)
    (event : Int64 × SessionEvent) : s.Streamed id (events ++ [event]) taken .waiting := by
  refine h.later event fun lag hlags => ?_
  rw [← ((overrun_iff hfeed).mp hlags).2.1, hpending, List.length_append]
  exact ⟨rfl, by simp⟩

end Longer

structure Marked (id : String) (sub : Subscription) (events : Session) (feed : Feed) : Prop where
  subscription : feed.subscription = sub
  dropped : feed.dropped = true ↔ events.Has (.drop id)
  closed : feed.closed = true ↔ events.Has (.close id)

def Listens (asked : List (Except Status ClientMessage)) (feed : Feed) : Prop :=
  if feed.listening then asked = feed.inbox
  else (∃ status, asked.head? = some (.error status)) ∨ (asked = [] ∧ feed.closed = true)

section Invariant

variable (s : Service) (id : String) (sub : Subscription)

/-- How a feed that goes on after its opening relates to what it has sent. -/
inductive Runs (first events : Session) (feed : Feed) : List FeedMessage → Prop
  | poll (mode : sub.mode = .poll) {moments : List Session}
      (answers : s.Polled id first events moments .waiting)
      (unread : (s.trace id events).asked =
        .replicate moments.length (.ok .poll) ++ feed.inbox) :
      Runs first events feed (moments.flatMap fun p => s.dumped id sub p ++ [.sync])
  | stream (mode : sub.mode = .stream) {taken : List Notification}
      (changes : s.Streamed id events taken .waiting)
      (pending : (s.trace id events).published = taken ++ feed.pending)
      (listens : Listens (s.trace id events).asked feed) :
      Runs first events feed ((taken.filterMap sub.filter).map .delta)

structure Unserved (events : Session) (feed : Feed) : Prop where
  unserved : ∀ event ∈ events, ¬ event.2.Serves id
  started : feed.started = false
  goes : feed.ended = false
  unread : (s.trace id events).asked = feed.inbox
  listening : feed.listening = true
  stream : sub.mode = .stream → (s.trace id events).published = feed.pending ∧
    s.Streamed id events [] .waiting

/-- How a feed relates to all that it has sent. -/
inductive Stage (events : Session) (feed : Feed) : List FeedMessage → Prop
  | unserved (waits : s.Unserved id sub events feed) : Stage events feed []
  | missed (ended : feed.ended = true) (dropped : events.Has (.drop id))
      (gone : ∀ (p : Session) event, p ++ [event] <+: events → event.2.Serves id →
        p.Has (.drop id)) : Stage events feed []
  | running {first : Session} {body : List FeedMessage} (begins : Begins id first events)
      (started : feed.started = true) (goes : feed.ended = false)
      (runs : s.Runs id sub first events feed body) :
      Stage events feed (s.openingAt id sub first ++ body)
  | finished {first : Session} {body : List FeedMessage} {standing : Standing}
      (begins : Begins id first events) (ended : feed.ended = true) (settled : standing ≠ .waiting)
      (sent : s.Body id sub first events body standing) :
      Stage events feed (s.openingAt id sub first ++ body ++ standing.messages)

end Invariant

section Hear

variable {first events : Session} {event : Int64 × SessionEvent} {feed after : Feed}
  {published : List Notification} {asked : List (Except Status ClientMessage)}

theorem Marked.hears (h : Marked id sub events feed)
    (hears : Hears id feed event.2 published asked after) :
    Marked id sub (events ++ [event]) after := by
  have hdrop := @Session.has_concat events event (.drop id)
  have hclose := @Session.has_concat events event (.close id)
  obtain ⟨reading, event⟩ := event
  cases hears with
  | offered other =>
    have hsame : Marked id sub (events ++ [(reading, .service other)]) feed :=
      ⟨h.subscription, by simp [hdrop, h.dropped], by simp [hclose, h.closed]⟩
    rw [Feed.offerAll_eq]
    split
    · exact ⟨hsame.subscription, hsame.dropped, hsame.closed⟩
    · exact hsame
  | sent message =>
    exact ⟨h.subscription, by simp [hdrop, h.dropped], by simp [hclose, h.closed]⟩
  | closed => exact ⟨h.subscription, by simp [hdrop, h.dropped, Feed.close],
      by simp [hclose, Feed.close]⟩
  | dropped => exact ⟨h.subscription, by simp [hdrop, Feed.drop],
      by simp [hclose, h.closed, Feed.drop]⟩
  | nothing _ hother hpresent =>
    exact ⟨h.subscription, by simp [hdrop, h.dropped, hpresent], by simp [hclose, h.closed, hother]⟩

/-- What hearing of an event leaves as it is, and where it puts what it hears. -/
structure Heard (feed : Feed) (published : List Notification)
    (asked : List (Except Status ClientMessage)) (after : Feed) : Prop where
  started : after.started = feed.started
  ended : after.ended = feed.ended
  listening : after.listening = feed.listening
  closed : feed.closed = true → after.closed = true
  inbox : after.inbox = feed.inbox ++ asked
  open_of_asked : asked ≠ [] → feed.closed = false
  pending : feed.subscription.mode = .stream → feed.ended = false →
    after.pending = feed.pending ++ published

theorem heard_nothing (feed : Feed) : Heard feed [] [] feed :=
  ⟨rfl, rfl, rfl, fun h => h, (List.append_nil _).symm, fun h => absurd rfl h,
    fun _ _ => (List.append_nil _).symm⟩

theorem heard_of_hears {event : SessionEvent} (h : Hears id feed event published asked after) :
    Heard feed published asked after := by
  have hinbox := (List.append_nil feed.inbox).symm
  have hpending := (List.append_nil feed.pending).symm
  cases h with
  | offered event =>
    rw [Feed.offerAll_eq]
    split
    · exact ⟨rfl, rfl, rfl, fun h => h, hinbox, fun h => absurd rfl h, fun _ _ => rfl⟩
    · rename_i hnot
      exact ⟨rfl, rfl, rfl, fun h => h, hinbox, fun h => absurd rfl h,
        fun hmode hended => absurd ⟨hmode, hended⟩ hnot⟩
  | sent message goes closed =>
    exact ⟨rfl, rfl, rfl, fun h => h, rfl, fun _ => closed, fun _ _ => hpending⟩
  | closed =>
    exact ⟨rfl, rfl, rfl, fun _ => rfl, hinbox, fun h => absurd rfl h, fun _ _ => hpending⟩
  | dropped =>
    exact ⟨rfl, rfl, rfl, fun h => h, hinbox, fun h => absurd rfl h, fun _ _ => hpending⟩
  | nothing => exact heard_nothing feed

theorem Listens.heard {before : List (Except Status ClientMessage)} (h : Listens before feed)
    (heard : Heard feed published asked after) : Listens (before ++ asked) after := by
  unfold Listens at h ⊢
  rw [heard.listening]
  split
  · rename_i hlistening
    rw [if_pos hlistening] at h
    rw [h, heard.inbox]
  · rename_i hlistening
    rw [if_neg hlistening] at h
    rcases h with ⟨status, hhead⟩ | ⟨rfl, hclosed⟩
    · exact Or.inl ⟨status, by rw [List.head?_append, hhead]; rfl⟩
    · have hnone : asked = [] := by
        by_contra hasked
        rw [heard.open_of_asked hasked] at hclosed
        cases hclosed
      exact Or.inr ⟨by rw [hnone]; rfl, heard.closed hclosed⟩

section Later

variable (hfeed : (s.trace id events).feed? id = some feed)
  (hpublished : (s.trace id (events ++ [event])).published =
    (s.trace id events).published ++ published)
  (hasked : (s.trace id (events ++ [event])).asked = (s.trace id events).asked ++ asked)
  (heard : Heard feed published asked after)

include hfeed

theorem Body.later {body : List FeedMessage} {standing : Standing}
    (h : s.Body id sub first events body standing) (hended : feed.ended = true)
    (hover : standing ≠ .waiting) : s.Body id sub first (events ++ [event]) body standing := by
  cases h with
  | once mode => exact .once mode
  | poll mode answers =>
    exact .poll mode (answers.longer (List.prefix_append _ _))
      fun _ _ _ hwaiting => absurd hwaiting hover
  | stream mode changes =>
    refine .stream mode (changes.later event ?_) fun _ _ _ hwaiting => absurd hwaiting hover
    intro lag hlags
    rw [((overrun_iff hfeed).mp hlags).1] at hended
    cases hended

include hpublished hasked heard

theorem Runs.later {body : List FeedMessage} (hmarked : Marked id sub events feed)
    (h : s.Runs id sub first events feed body) (hgoes : feed.ended = false) :
    s.Runs id sub first (events ++ [event]) after body := by
  cases h with
  | poll mode answers unread =>
    refine .poll mode (answers.longer (List.prefix_append _ _)) ?_
    rw [hasked, unread, heard.inbox, List.append_assoc]
  | stream mode changes pending listens =>
    refine .stream mode (changes.later_of_pending hfeed pending event) ?_
      (hasked ▸ listens.heard heard)
    rw [hpublished, pending, heard.pending (hmarked.subscription ▸ mode) hgoes, List.append_assoc]

theorem Unserved.later (h : s.Unserved id sub events feed) (hmarked : Marked id sub events feed)
    (hserves : ¬ event.2.Serves id) : s.Unserved id sub (events ++ [event]) after := by
  refine ⟨?_, heard.started.trans h.started, heard.ended.trans h.goes, ?_,
    heard.listening.trans h.listening, ?_⟩
  · intro other hother
    rcases List.mem_append.mp hother with hother | hother
    · exact h.unserved other hother
    · rw [List.mem_singleton.mp hother]
      exact hserves
  · rw [hasked, h.unread, heard.inbox]
  · intro mode
    obtain ⟨hpending, hstreamed⟩ := h.stream mode
    refine ⟨?_, hstreamed.later_of_pending hfeed hpending event⟩
    rw [hpublished, hpending, heard.pending (hmarked.subscription ▸ mode) h.goes]

/-- An event that does not start the feed keeps its stage. -/
theorem Stage.later {out : List FeedMessage} (h : s.Stage id sub events feed out)
    (hmarked : Marked id sub events feed)
    (hserves : event.2.Serves id → feed.started = true ∨ feed.ended = true) :
    s.Stage id sub (events ++ [event]) after out := by
  cases h with
  | unserved waits =>
    refine .unserved (waits.later hfeed hpublished hasked heard hmarked fun hevent => ?_)
    have := hserves hevent
    simp [waits.started, waits.goes] at this
  | missed ended dropped gone =>
    refine .missed (heard.ended.trans ended) (has_longer dropped (List.prefix_append _ _)) ?_
    intro p other hp hother
    rcases List.prefix_concat_iff.mp hp with hsame | hbefore
    · rw [(List.append_inj' hsame rfl).1]
      exact dropped
    · exact gone p other hbefore hother
  | running begins started goes runs =>
    exact .running (begins.longer (List.prefix_append _ _)) (heard.started.trans started)
      (heard.ended.trans goes) (runs.later hfeed hpublished hasked heard hmarked goes)
  | finished begins ended settled sent =>
    exact .finished (begins.longer (List.prefix_append _ _)) (heard.ended.trans ended) settled
      (sent.later hfeed ended settled)

end Later

end Hear

end Telemetry.Service
