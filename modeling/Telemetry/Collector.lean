import Telemetry.Service
import Telemetry.Settings.Basic

/-!
The life of a collector: it starts from its settings, takes responses of its source, writes the
cache's own leaves as time passes, and stops when it is told to or when the shutdown signal comes.
A failure of ingestion ends ingestion but nothing else; stopping reports it, once.
-/

namespace Telemetry

inductive StartError where
  | schema (e : SchemaError)
  /-- The address to listen on is not free. -/
  | bind

inductive IngestionStage where
  | running
  /-- Over with an error that was not reported yet. -/
  | failed (e : IngestError)
  | finished

structure Collector where
  service : Service
  settings : CacheSettings
  ingestion : IngestionStage
  /-- Seconds since the start. -/
  elapsed : Nat
  /-- The shutdown signal is waited for. -/
  watching : Bool
  /-- The shutdown signal can still be sent. -/
  hasSignal : Bool

namespace Collector

/-- The schema that is given, else the one in the file of the settings, if any. `files` gives
the contents of the files there are. -/
def schemaOf (settings : SetSettings) (given : Option Schema) (files : String → Option String) :
    Except SchemaError (Option Schema) :=
  match given, settings.schemaPath with
  | some schema, _ => .ok (some schema)
  | none, none => .ok none
  | none, some path =>
    match files path with
    | some text => (Schema.load text).map some
    | none => .error .unreadable

/-- Starts a collector at a time. It counts as connected to its source. -/
def start (settings : Settings) (given : Option Schema) (files : String → Option String)
    (isFree : Bool) (now : Int64) : Except StartError Collector := do
  let schema ← (schemaOf settings.set given files).mapError .schema
  let tree ← match schema with
    | some schema => (schema.defaultRoot.map some).mapError .schema
    | none => .ok none
  if !isFree then .error .bind
  else
    let siblings : Siblings := ⟨settings.set.stateContainer, settings.set.configContainer⟩
    let service := Service.start settings.server.target tree (schema.map (⟨·, siblings⟩))
      settings.cache.subscriberBuffer.toNat now
    .ok ⟨service.connect, settings.cache, .running, 0, true, true⟩

/-- Takes a response of the source, which ingestion handles later; refused once ingestion is
over. -/
def update (c : Collector) (response : Response) : Collector × Except IngestError Unit :=
  match c.ingestion with
  | .running =>
    let reply := c.service.ingest false [response]
    let stage : IngestionStage :=
      match reply.result with
      | .ok () => .running
      | .error e => .failed e
    ({ c with service := reply.service, ingestion := stage }, .ok ())
  | _ => (c, .error .closed)

def cancel (c : Collector) : Collector :=
  { c with
    service := c.service.cancel
    watching := false
    ingestion :=
      match c.ingestion with
      | .running => .finished
      | stage => stage }

/-- Stops; gives the error that ingestion ended with, unless it was given before. -/
def stop (c : Collector) : Collector × Except IngestError Unit :=
  match c.ingestion with
  | .failed e => ({ c.cancel with ingestion := .finished }, .error e)
  | _ => (c.cancel, .ok ())

/-- Sends the shutdown signal; false when nobody waits for it. -/
def signal (c : Collector) : Collector × Bool :=
  if c.watching && c.hasSignal then (c.cancel, true) else (c, false)

def dropSignal (c : Collector) : Collector :=
  { c with hasSignal := false }

/-- Whether something done every `period` seconds is due after `elapsed` ones; a period of 0
means never. -/
def isDue (elapsed : Nat) (period : UInt64) : Bool :=
  0 < period.toNat && elapsed % period.toNat == 0

def writeIfDue (c : Collector) (period : UInt64) (updates : CacheTarget → List Update) :
    Collector :=
  if c.settings.sendMeta && !c.service.cancelled && isDue c.elapsed period then
    { c with service := (c.service.writeMeta updates).service }
  else c

def tick (c : Collector) : Collector :=
  let c := { c with elapsed := c.elapsed + 1 }
  let c := c.writeIfDue c.settings.metadataPeriod CacheTarget.statistics
  c.writeIfDue c.settings.sizePeriod CacheTarget.sizeUpdates

def advance (c : Collector) (seconds : Nat) : Collector :=
  seconds.repeat tick c

def set (c : Collector) (req : SetRequest) : Collector × Except SetError SetOutcome :=
  let reply := c.service.set req
  ({ c with service := reply.service }, reply.result)

end Collector

end Telemetry
