import Telemetry.Cache.Target

/-!
Ingestion of what the source of a target sends. Messages are applied in order up to the first
one that is an error, carries nothing or is refused by the cache; that one decides the result.
-/

namespace Telemetry

inductive Response where
  | update (n : Notification)
  | sync (complete : Bool)
  | failure (code : Nat) (message : String)
  | empty

inductive SourceMessage where
  | delta (n : Notification)
  | sync
  | failure (message : String)

inductive IngestError where
  | source (message : String)
  | emptyResponse
  | apply (cause : CacheError)
  | closed
deriving DecidableEq, Repr

namespace IngestError

def message : IngestError → String
  | source message => s!"error in response: {message}"
  | emptyResponse => "response carries no payload"
  | apply cause => s!"failed to apply delta to cache: {cause.message}"
  | closed => "ingestion loop is no longer running"

end IngestError

namespace SourceMessage

def ofResponse : Response → Except IngestError SourceMessage
  | .update n => .ok (.delta n)
  | .sync _ => .ok .sync
  | .failure _ message => .ok (.failure message)
  | .empty => .error .emptyResponse

def kind : SourceMessage → String
  | .delta _ => "delta"
  | .sync => "sync"
  | .failure _ => "error"

end SourceMessage

/-- How far ingestion came: the target, the kinds of the messages taken and the changes made. -/
structure Ingested where
  target : CacheTarget
  kinds : List String
  changes : List Notification

namespace CacheTarget

def take (t : CacheTarget) : SourceMessage → Except IngestError (CacheTarget × List Notification)
  | .delta n =>
    match t.apply n with
    | .ok (t, changes) => .ok (t, [changes])
    | .error e => .error (.apply e)
  | .sync => .ok (t.markSynced, [])
  | .failure message => .error (.source message)

/-- Takes responses in order up to the first bad one. -/
def ingest (t : CacheTarget) : List Response → Except IngestError Unit × Ingested
  | [] => (.ok (), ⟨t, [], []⟩)
  | response :: rest =>
    match SourceMessage.ofResponse response with
    | .error e => (.error e, ⟨t, [], []⟩)
    | .ok message =>
      match t.take message with
      | .error e => (.error e, ⟨t, [message.kind], []⟩)
      | .ok (t, changes) =>
        let (result, further) := t.ingest rest
        (result, { further with
          kinds := message.kind :: further.kinds
          changes := changes ++ further.changes })

end CacheTarget

end Telemetry
