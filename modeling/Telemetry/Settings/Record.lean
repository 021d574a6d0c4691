import Telemetry.Settings.Basic

/-!
Reading settings from records. A section is a record of named values, or a list of values in the
order of the settings; a setting that is not given takes its default and unknown names are ignored.
How single values are read is up to a `ValueReader`, so that strict and lenient sources share the
names and the order.
-/

namespace Telemetry

inductive SectionValues (α : Type) where
  | named (entries : List (String × α))
  | listed (items : List α)

structure ValueReader (α : Type) where
  values? : α → Option (SectionValues α)
  /-- The value that stands for no value. -/
  isAbsent : α → Bool
  flag? : α → Option Bool
  natural? : α → Option UInt64
  text? : α → Option String
  /-- Whether a list may go on after the last setting. -/
  mayExceed : Bool

namespace SectionValues

variable {α β : Type}

def find? (values : SectionValues α) (index : Nat) (name : String) : Option α :=
  match values with
  | named entries => SortedMap.get? entries name
  | listed items => items[index]?

def read (values : SectionValues α) (index : Nat) (name : String) (default : β)
    (value? : α → Option β) : Option β :=
  match values.find? index name with
  | some value => value? value
  | none => some default

end SectionValues

namespace ValueReader

variable {α : Type}

/-- The section that a value stands for, with at most `count` settings if it is a list. -/
def valuesOf? (r : ValueReader α) (count : Nat) (value : α) : Option (SectionValues α) :=
  match r.values? value with
  | some (.listed items) =>
    if !r.mayExceed ∧ count < items.length then none else some (.listed items)
  | other => other

def optionalText? (r : ValueReader α) (value : α) : Option (Option String) :=
  if r.isAbsent value then some none else (r.text? value).map some

def below? (r : ValueReader α) (bound : Nat) (value : α) : Option Nat :=
  match r.natural? value with
  | some n => if n.toNat < bound then some n.toNat else none
  | none => none

def address? (r : ValueReader α) (value : α) : Option ListenAddress :=
  (r.text? value).bind ListenAddress.ofText?

def server? (r : ValueReader α) (value : α) : Option ServerSettings := do
  let d : ServerSettings := {}
  let s ← r.valuesOf? 9 value
  some {
    listenAddress := ← s.read 0 "listen_address" d.listenAddress r.address?
    target := ← s.read 1 "target" d.target r.text?
    logDirectory := ← s.read 2 "log_dir" d.logDirectory r.optionalText?
    requestTimeout := ← s.read 3 "request_timeout_in_ms" d.requestTimeout r.natural?
    maxConcurrentStreams := ← s.read 4 "max_concurrent_streams" d.maxConcurrentStreams fun v =>
      (r.below? UInt32.size v).map UInt32.ofNat
    keepAliveInterval :=
      ← s.read 5 "http2_keep_alive_interval_in_secs" d.keepAliveInterval r.natural?
    keepAliveTimeout :=
      ← s.read 6 "http2_keep_alive_timeout_in_secs" d.keepAliveTimeout r.natural?
    noDelay := ← s.read 7 "tcp_nodelay" d.noDelay r.flag?
    gzipResponses := ← s.read 8 "gzip_responses" d.gzipResponses r.flag? }

def cache? (r : ValueReader α) (value : α) : Option CacheSettings := do
  let d : CacheSettings := {}
  let s ← r.valuesOf? 4 value
  some {
    sendMeta := ← s.read 0 "send_meta" d.sendMeta r.flag?
    metadataPeriod := ← s.read 1 "metadata_period_in_secs" d.metadataPeriod r.natural?
    sizePeriod := ← s.read 2 "size_period_in_secs" d.sizePeriod r.natural?
    subscriberBuffer := ← s.read 3 "subscriber_buffer" d.subscriberBuffer r.natural? }

def ingest? (r : ValueReader α) (value : α) : Option IngestSettings := do
  let d : IngestSettings := {}
  let s ← r.valuesOf? 1 value
  some { channelCapacity := ← s.read 0 "channel_capacity" d.channelCapacity r.natural? }

def set? (r : ValueReader α) (value : α) : Option SetSettings := do
  let d : SetSettings := {}
  let s ← r.valuesOf? 3 value
  some {
    schemaPath := ← s.read 0 "schema_path" d.schemaPath r.optionalText?
    stateContainer := ← s.read 1 "state_container" d.stateContainer r.text?
    configContainer := ← s.read 2 "config_container" d.configContainer r.text? }

def monitoring? (r : ValueReader α) (value : α) : Option MonitoringSettings := do
  let d : MonitoringSettings := {}
  let s ← r.valuesOf? 2 value
  some {
    prometheusEnabled := ← s.read 0 "prometheus_enabled" d.prometheusEnabled r.flag?
    prometheusPort := ← s.read 1 "prometheus_port" d.prometheusPort fun v =>
      (r.below? UInt16.size v).map UInt16.ofNat }

def settings? (r : ValueReader α) (value : α) : Option Settings := do
  let d : Settings := {}
  let s ← r.valuesOf? 5 value
  some {
    server := ← s.read 0 "server" d.server r.server?
    cache := ← s.read 1 "cache" d.cache r.cache?
    ingest := ← s.read 2 "ingest" d.ingest r.ingest?
    set := ← s.read 3 "set" d.set r.set?
    monitoring := ← s.read 4 "monitoring" d.monitoring r.monitoring? }

/-- JSON is read strictly: every value has the type of its setting. -/
def json : ValueReader Json where
  values?
    | .object fields => some (.named fields)
    | .array items => some (.listed items)
    | _ => none
  isAbsent
    | .null => true
    | _ => false
  flag?
    | .bool b => some b
    | _ => none
  natural?
    | .number (.natural n) => some n
    | _ => none
  text?
    | .string s => some s
    | _ => none
  mayExceed := false

end ValueReader

def Settings.ofJson? (value : Json) : Option Settings :=
  ValueReader.json.settings? value

end Telemetry
