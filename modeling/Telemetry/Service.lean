import Telemetry.Cache.Meta
import Telemetry.Ingestion
import Telemetry.Subscription

/-!
The service of one target: its cache, its committed tree, transactions, the clock, the feeds of
its subscribers and counters. Every change of the cache that is not empty is published: it is
part of the result of an operation and is offered to all feeds.
-/

namespace Telemetry

abbrev Tally := List (String × Nat)

namespace Tally

def add (tally : Tally) (label : String) : Tally :=
  SortedMap.insert tally label ((SortedMap.get? tally label).getD 0 + 1)

end Tally

structure Service where
  target : CacheTarget
  tree : Option Node
  /-- Absent when the target has no schema. -/
  transactor : Option Transactor
  /-- How many changes a feed may have pending. -/
  capacity : Nat
  /-- The next reading of the clock. -/
  now : Int64
  cancelled : Bool
  feeds : List (String × Feed)
  transactions : Tally
  ingested : Tally

/-- A call's result with the service afterwards and what was published. -/
structure Reply (α : Type) where
  result : α
  service : Service
  published : List Notification

namespace Service

def roundUp (n : Nat) : Nat :=
  if n ≤ 1 then 1 else 1 <<< ((n - 1).log2 + 1)

/-- A service whose feeds may lag by `buffer` changes, rounded up to a power of two. -/
def start (target : String) (tree : Option Node) (transactor : Option Transactor)
    (buffer : Nat) (now : Int64) : Service :=
  ⟨CacheTarget.fresh target, tree, transactor, roundUp buffer, now, false, [], [], []⟩

def tick (s : Service) : Service := { s with now := s.now + 1 }

def quiet {α : Type} (s : Service) (result : α) : Reply α := ⟨result, s, []⟩

def publish {α : Type} (s : Service) (changes : List Notification) (result : α) : Reply α :=
  let changes := changes.filter fun n => !n.isEmpty
  let feeds := s.feeds.map fun (id, feed) =>
    (id, changes.foldl (fun feed n => feed.offer n) feed)
  ⟨result, { s with feeds := feeds }, changes⟩

def connect (s : Service) : Service := { s with target := s.target.connect }

/-- Ends all feeds but the once ones at their next turn. -/
def cancel (s : Service) : Service := { s with cancelled := true }

def apply (s : Service) (n : Notification) : Reply (Except CacheError Unit) :=
  match s.target.apply n with
  | .error e => s.quiet (.error e)
  | .ok (target, changes) => { s with target := target }.publish [changes] (.ok ())

def writeMeta (s : Service) (updates : CacheTarget → List Update) : Reply Unit :=
  match s.target.writeMeta s.now (updates s.target) with
  | none => s.tick.quiet ()
  | some (target, changes) => { s.tick with target := target }.publish [changes] ()

/-- Ingests responses, unless ingestion was cancelled before. -/
def ingest (s : Service) (cancelled : Bool) (responses : List Response) :
    Reply (Except IngestError Unit) :=
  if cancelled then s.quiet (.ok ())
  else
    let (result, ingested) := s.target.ingest responses
    let counted := ingested.kinds.foldl Tally.add s.ingested
    { s with target := ingested.target, ingested := counted }.publish ingested.changes result

def outcomeLabel : Except SetError SetOutcome → String
  | .ok outcome => if outcome.notification.isEmpty then "empty" else "committed"
  | .error e => e.stage

def workspace (s : Service) : Workspace :=
  ⟨s.tree, .emptyContainer, s.target, []⟩

/-- Runs a transaction and counts it; without a schema there are none. What it leaves behind is
taken over at every exit. -/
def set (s : Service) (req : SetRequest) : Reply (Except SetError SetOutcome) :=
  match s.transactor with
  | none => s.quiet (.error .unsupported)
  | some transactor =>
    let (result, w) := (transactor.carryOut s.now req).on s.workspace
    { s.tick with
      tree := w.committed
      target := w.cache.target
      transactions := Tally.add s.transactions (outcomeLabel result) }.publish w.cache.heard result

def setCall (s : Service) (req : SetRequest) : Reply (Except Status SetOutcome) :=
  match s.transactor with
  | none => s.quiet (.error ⟨.unimplemented, "Set is not supported without a schema"⟩)
  | some _ =>
    match Status.requireTarget (req.base.getD Path.root).target s.target.name with
    | .error status => s.quiet (.error status)
    | .ok () =>
      let reply := s.set req
      ⟨reply.result.mapError Status.ofSetError, reply.service, reply.published⟩

def get (s : Service) (base : Option Path) (paths : List Path) :
    Except Status (List Notification) := do
  let base := base.getD Path.root
  Status.requireTarget base.target s.target.name
  let patterns := patternsBelow base paths
  match s.target.query patterns with
  | [] => .error ⟨.notFound, "no data at " ++ ", ".intercalate (patterns.map Path.text)⟩
  | found => .ok found

def models (s : Service) : List ModelInfo :=
  (s.transactor.map (·.schema.models)).getD []

/-- The encodings on offer by number: JSON as of RFC 7951, then plain JSON. -/
def encodings : List Nat := [4, 0]

def version : String := "0.8.0"

def subscribe (s : Service) (id : String) (first : Option (Except Status ClientMessage)) :
    Reply (Except Status Unit) :=
  match Subscription.ofFirst s.target.name first with
  | .error status => s.quiet (.error status)
  | .ok subscription =>
    { s with feeds := SortedMap.insert s.feeds id (Feed.ofSubscription subscription) }.quiet
      (.ok ())

def onFeed (s : Service) (id : String) (change : Feed → Feed) : Service :=
  match SortedMap.get? s.feeds id with
  | some feed => { s with feeds := SortedMap.insert s.feeds id (change feed) }
  | none => s

/-- Sends a message of a client to its feed; false when nobody will read it. -/
def send (s : Service) (id : String) (message : Except Status ClientMessage) : Service × Bool :=
  match SortedMap.get? s.feeds id with
  | some feed =>
    let (feed, sent) := feed.send message
    ({ s with feeds := SortedMap.insert s.feeds id feed }, sent)
  | none => (s, false)

/-- Serves all feeds until they wait. Gives what each of them sent. -/
def serve (s : Service) : Service × List (String × List FeedMessage) :=
  let runs := s.feeds.map fun (id, feed) =>
    (id, feed.run s.cancelled s.capacity (s.target.query feed.subscription.patterns))
  ({ s with feeds := runs.map fun (id, _, feed) => (id, feed) },
    runs.map fun (id, messages, _) => (id, messages))

def active (s : Service) : Tally :=
  ((SortedMap.values s.feeds).filter Feed.isActive).foldl
    (fun tally feed => Tally.add tally feed.subscription.mode.label) []

end Service

end Telemetry
