import Telemetry.Status

/-!
Subscriptions to the leaves of a target. A once subscription gets the cached leaves and a sync; a
poll subscription gets them again at each poll; a stream subscription gets every later change.
A `Feed` is a subscription being served: `Feed.run` goes on until it has to wait.
-/

namespace Telemetry

inductive Mode where
  | stream
  | once
  | poll
deriving DecidableEq, Repr

namespace Mode

def label : Mode → String
  | stream => "STREAM"
  | once => "ONCE"
  | poll => "POLL"

def ofInt? (i : Int) : Option Mode :=
  if i = 0 then some stream else if i = 1 then some once else if i = 2 then some poll else none

end Mode

structure SubscriptionList where
  base : Option Path
  paths : List (Option Path)
  mode : Int
  updatesOnly : Bool

inductive ClientMessage where
  | subscribe (list : SubscriptionList)
  | poll
  | empty

structure Subscription where
  mode : Mode
  patterns : List Path
  updatesOnly : Bool

/-- The full patterns of some relative paths; no paths at all mean the base path. -/
def patternsBelow (base : Path) (paths : List Path) : List Path :=
  if paths.isEmpty then [base.bare] else paths.map fun path => (base.join path).bare

namespace Subscription

def ofList (own : String) (list : SubscriptionList) : Except Status Subscription := do
  let some mode := Mode.ofInt? list.mode
    | .error ⟨.invalidArgument, s!"unknown subscription mode {list.mode}"⟩
  let base := list.base.getD Path.root
  Status.requireTarget base.target own
  .ok ⟨mode, patternsBelow base (list.paths.map (·.getD Path.root)), list.updatesOnly⟩

/-- The subscription that a client opens with its first message; none when it closes at once. -/
def ofFirst (own : String) : Option (Except Status ClientMessage) → Except Status Subscription
  | none => .error ⟨.invalidArgument, "stream closed before a subscription list"⟩
  | some (.error status) => .error status
  | some (.ok (.subscribe list)) => ofList own list
  | some (.ok _) => .error ⟨.invalidArgument, "first message must carry a subscription list"⟩

def covers (s : Subscription) (path : Path) : Bool :=
  s.patterns.any path.isMatch

/-- The part of a notification that the subscription covers, if any. -/
def filter (s : Subscription) (n : Notification) : Option Notification :=
  let updates := n.updates.filter fun update => (update.path.map s.covers).getD false
  let deletes := n.deletes.filter s.covers
  if updates.isEmpty && deletes.isEmpty then none
  else some { n with updates := updates, deletes := deletes }

end Subscription

inductive FeedMessage where
  | delta (n : Notification)
  | sync
  | failed (status : Status)
  /-- The stream is over. -/
  | ended

structure Feed where
  subscription : Subscription
  /-- The initial state has been sent. -/
  started : Bool
  /-- Changes not sent yet, for a stream subscription. -/
  pending : List Notification
  /-- Client messages not read yet. -/
  inbox : List (Except Status ClientMessage)
  /-- The client sends nothing more. -/
  closed : Bool
  /-- Client messages are still read. -/
  listening : Bool
  /-- The client takes nothing more. -/
  dropped : Bool
  ended : Bool

namespace Feed

def ofSubscription (s : Subscription) : Feed :=
  ⟨s, false, [], [], false, true, false, false⟩

def offer (n : Notification) (f : Feed) : Feed :=
  if f.subscription.mode = .stream ∧ !f.ended then { f with pending := f.pending ++ [n] } else f

def send (f : Feed) (message : Except Status ClientMessage) : Feed × Bool :=
  if f.closed || f.ended then (f, false) else ({ f with inbox := f.inbox ++ [message] }, true)

def close (f : Feed) : Feed := { f with closed := true }

def drop (f : Feed) : Feed := { f with dropped := true }

def opening (f : Feed) (dump : List Notification) : List FeedMessage :=
  (if f.subscription.updatesOnly then [] else dump.map .delta) ++ [.sync]

/-- Answers client messages of a poll subscription: one dump and sync per poll, an error at any
other message. True in the end when the subscription is over. -/
def answerPolls (dump : List Notification) (closed : Bool) :
    List (Except Status ClientMessage) → List FeedMessage × Bool
  | [] => if closed then ([.ended], true) else ([], false)
  | .ok .poll :: rest =>
    let (messages, finished) := answerPolls dump closed rest
    (dump.map .delta ++ .sync :: messages, finished)
  | .ok _ :: _ =>
    ([.failed ⟨.invalidArgument, "only poll requests are accepted on a POLL subscription"⟩,
      .ended], true)
  | .error _ :: _ => ([.ended], true)

/-- Sends the pending changes of a stream subscription, unless there are more than `capacity`,
which ends it with an error. -/
def flush (capacity : Nat) (f : Feed) : List FeedMessage × Bool :=
  let missed := f.pending.length - capacity
  if 0 < missed then
    ([.failed ⟨.resourceExhausted, s!"subscription fell behind by {missed} notifications"⟩,
      .ended], true)
  else (f.pending.filterMap fun n => (f.subscription.filter n).map .delta, false)

/-- Reads the next client message of a stream subscription. Any message ends it with an error;
the end of the messages, or a failure among them, only ends the reading. -/
def readStream (f : Feed) : List FeedMessage × Feed :=
  if !f.listening then ([], f)
  else
    match f.inbox with
    | [] => ([], { f with listening := !f.closed })
    | .error _ :: _ => ([], { f with listening := false, inbox := [] })
    | .ok _ :: _ =>
      ([.failed ⟨.invalidArgument, "no further requests are accepted on a STREAM subscription"⟩,
        .ended], { f with ended := true })

/-- Serves a feed until it waits for something: first its initial messages, then in this order
of precedence cancellation, changes, client messages. -/
def serve (cancelled : Bool) (capacity : Nat) (dump : List Notification) (f : Feed) :
    List FeedMessage × Feed :=
  let initial := if f.started then [] else f.opening dump
  let f := { f with started := true }
  match f.subscription.mode with
  | .once => (initial ++ [.ended], { f with ended := true })
  | .poll =>
    if cancelled then (initial ++ [.ended], { f with ended := true })
    else
      let (messages, finished) := answerPolls dump f.closed f.inbox
      (initial ++ messages, { f with ended := finished, inbox := [] })
  | .stream =>
    if cancelled then (initial ++ [.ended], { f with ended := true })
    else
      match flush capacity f with
      | (messages, true) => (initial ++ messages, { f with ended := true, pending := [] })
      | (messages, false) =>
        let (further, f) := readStream { f with pending := [] }
        (initial ++ messages ++ further, f)

def run (cancelled : Bool) (capacity : Nat) (dump : List Notification) (f : Feed) :
    List FeedMessage × Feed :=
  if f.ended then ([], f)
  else if f.dropped then ([], { f with started := true, ended := true })
  else serve cancelled capacity dump f

def isActive (f : Feed) : Bool :=
  f.started && !f.ended

end Feed

end Telemetry
