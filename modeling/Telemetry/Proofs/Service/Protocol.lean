import Telemetry.Proofs.Service.Sessions

/-!
What subscribers receive. It starts with the cached leaves and a sync; a poll subscription goes on
with a dump and a sync for every poll, a stream subscription with what it covers of the changes
since it was opened, as long as none of them is lost. It ends in the ways that each mode allows.
-/

namespace Telemetry

inductive Standing where
  /-- It goes on. -/
  | waiting
  /-- The client has gone. -/
  | gone
  | done
  | failed (status : Status)

def Standing.messages : Standing → List FeedMessage
  | .waiting => []
  | .gone => []
  | .done => [.ended]
  | .failed status => [.failed status, .ended]

namespace Service

section Protocol

variable (s : Service) (id : String) (sub : Subscription)

def dumped (p : Session) : List FeedMessage :=
  ((s.trace id p).dump sub).map .delta

def openingAt (p : Session) : List FeedMessage :=
  (if sub.updatesOnly then [] else s.dumped id sub p) ++ [.sync]

/-- The first event at which a feed is served comes after `first`; its client has not gone then. -/
structure Begins (id : String) (first events : Session) : Prop where
  unserved : ∀ event ∈ first, ¬ event.2.Serves id
  present : ¬ first.Has (.drop id)
  next : ∃ event, first ++ [event] <+: events ∧ event.2.Serves id

/-- Why a poll subscription has ended after `count` polls. -/
def PollEnds (events : Session) (count : Nat) : Standing → Prop
  | .waiting => True
  | .gone => events.Has (.drop id)
  | .done => ∃ p : Session, p <+: events ∧ ((s.trace id p).service.cancelled = true ∨
      (∃ status, (s.trace id p).asked[count]? = some (.error status)) ∨
      ((s.trace id p).asked.length = count ∧ p.Has (.close id)))
  | .failed status => status = Feed.notPoll ∧ ∃ p message, p <+: events ∧
      (s.trace id p).service.cancelled = false ∧
      (s.trace id p).asked[count]? = some (.ok message) ∧ message ≠ .poll

/-- The first client messages were polls, and each of them was answered after it was sent, at one of
the moments at which the feed was served, in order. -/
structure Polled (first events : Session) (moments : List Session) (standing : Standing) :
    Prop where
  ordered : moments.Pairwise (· <+: ·)
  served : ∀ p ∈ moments, first <+: p ∧ ∃ event, p ++ [event] <+: events ∧ event.2.Serves id
  polls : (s.trace id events).asked.take moments.length = .replicate moments.length (.ok .poll)
  asked : ∀ i p, moments[i]? = some p → i < (s.trace id p).asked.length
  going : ∀ p ∈ moments, (s.trace id p).service.cancelled = false
  standing : s.PollEnds id events moments.length standing

/-- Why a stream subscription has ended after the changes `taken`. -/
def StreamEnds (events : Session) (taken : List Notification) : Standing → Prop
  | .waiting => True
  | .gone => events.Has (.drop id)
  | .done => ∃ p, p <+: events ∧ (s.trace id p).service.cancelled = true
  | .failed status => ∃ p, p <+: events ∧ (s.trace id p).service.cancelled = false ∧
      ((∃ missed, 0 < missed ∧
          (s.trace id p).published.length = taken.length + s.capacity + missed ∧
          status = Feed.fellBehind missed) ∨
        (taken = (s.trace id p).published ∧
          (∃ message, (s.trace id p).asked.head? = some (.ok message)) ∧
          status = Feed.notExpected))

def Overrun (p : Session) (lag : Nat) : Prop :=
  ∃ feed, (s.trace id p).feed? id = some feed ∧ feed.ended = false ∧
    feed.pending.length = lag ∧ s.capacity < lag

/-- The first changes since the opening were taken, but none after the cancellation, nor any once
the feed had more pending than it may have. -/
structure Streamed (events : Session) (taken : List Notification) (standing : Standing) : Prop where
  order : taken <+: (s.trace id events).published
  stopped : ∀ p, p <+: events → p ≠ events → (s.trace id p).service.cancelled = true →
    taken <+: (s.trace id p).published
  overrun : ∀ p, p <+: events → p ≠ events → ∀ lag, s.Overrun id p lag →
    (s.trace id p).published.length = taken.length + lag ∧
      ∀ status, standing = .failed status → status.code = .resourceExhausted
  standing : s.StreamEnds id events taken standing

/-- What comes after the opening, and how it ends. Where the feed has just been served until it
waits, nothing is left to be sent. -/
inductive Body (first events : Session) : List FeedMessage → Standing → Prop
  | once (mode : sub.mode = .once) : Body first events [] .done
  | poll (mode : sub.mode = .poll) {moments : List Session} {standing : Standing}
      (answers : s.Polled id first events moments standing)
      (caught : ∀ past reading, events = past ++ [(reading, .service .serve)] →
        standing = .waiting → moments.length = (s.trace id events).asked.length ∧
          (s.trace id past).service.cancelled = false ∧ ¬ events.Has (.close id) ∧
          ¬ events.Has (.drop id)) :
      Body first events (moments.flatMap fun p => s.dumped id sub p ++ [.sync]) standing
  | stream (mode : sub.mode = .stream) {taken : List Notification} {standing : Standing}
      (changes : s.Streamed id events taken standing)
      (caught : ∀ past reading, events = past ++ [(reading, .service .serve)] →
        standing = .waiting → taken = (s.trace id events).published ∧
          (s.trace id past).service.cancelled = false ∧
          (∀ message, (s.trace id events).asked.head? ≠ some (.ok message)) ∧
          ¬ events.Has (.drop id)) :
      Body first events ((taken.filterMap sub.filter).map .delta) standing

/-- What a subscriber may receive in a session. -/
inductive Protocol (events : Session) : List FeedMessage → Prop
  /-- The feed has not been served, or only after its client had gone. -/
  | nothing (gone : ∀ (p : Session) event, p ++ [event] <+: events → event.2.Serves id →
      p.Has (.drop id)) : Protocol events []
  | begun {first : Session} {body : List FeedMessage} {standing : Standing}
      (begins : Begins id first events) (sent : s.Body id sub first events body standing) :
      Protocol events (s.openingAt id sub first ++ body ++ standing.messages)

end Protocol

end Service

end Telemetry
