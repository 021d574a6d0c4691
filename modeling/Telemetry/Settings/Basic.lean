import Telemetry.Address
import Telemetry.Siblings

/-!
The settings of a collector with their defaults, in five sections.
-/

namespace Telemetry

structure ServerSettings where
  listenAddress : ListenAddress := ⟨.v4 0 0 0 0, 9339⟩
  /-- The name of the one target served. -/
  target : String := "target"
  /-- Where logs go, if not to the standard output. -/
  logDirectory : Option String := none
  /-- In milliseconds; 0 means no limit. -/
  requestTimeout : UInt64 := 0
  maxConcurrentStreams : UInt32 := 256
  /-- In seconds, as the next one. -/
  keepAliveInterval : UInt64 := 300
  keepAliveTimeout : UInt64 := 20
  noDelay : Bool := true
  gzipResponses : Bool := false
deriving DecidableEq, Repr

structure CacheSettings where
  /-- Whether the cache's own leaves are written on a timer. -/
  sendMeta : Bool := false
  /-- In seconds, as the next one. -/
  metadataPeriod : UInt64 := 30
  sizePeriod : UInt64 := 30
  /-- How many changes a subscriber may have pending. -/
  subscriberBuffer : UInt64 := 1024
deriving DecidableEq, Repr

structure IngestSettings where
  channelCapacity : UInt64 := 1024
deriving DecidableEq, Repr

structure SetSettings where
  /-- The file that holds the schema; there are no transactions without one. -/
  schemaPath : Option String := none
  stateContainer : String := Siblings.standard.state
  configContainer : String := Siblings.standard.config
deriving DecidableEq, Repr

structure MonitoringSettings where
  prometheusEnabled : Bool := false
  prometheusPort : UInt16 := 8080
deriving DecidableEq, Repr

structure Settings where
  server : ServerSettings := {}
  cache : CacheSettings := {}
  ingest : IngestSettings := {}
  set : SetSettings := {}
  monitoring : MonitoringSettings := {}
deriving DecidableEq, Repr

def Json.ofPath? : Option String → Json
  | some path => .string path
  | none => .null

def ServerSettings.fields (s : ServerSettings) : List (String × Json) := [
  ("listen_address", .string s.listenAddress.text),
  ("target", .string s.target),
  ("log_dir", .ofPath? s.logDirectory),
  ("request_timeout_in_ms", .nat s.requestTimeout.toNat),
  ("max_concurrent_streams", .nat s.maxConcurrentStreams.toNat),
  ("http2_keep_alive_interval_in_secs", .nat s.keepAliveInterval.toNat),
  ("http2_keep_alive_timeout_in_secs", .nat s.keepAliveTimeout.toNat),
  ("tcp_nodelay", .bool s.noDelay),
  ("gzip_responses", .bool s.gzipResponses)]

def CacheSettings.fields (s : CacheSettings) : List (String × Json) := [
  ("send_meta", .bool s.sendMeta),
  ("metadata_period_in_secs", .nat s.metadataPeriod.toNat),
  ("size_period_in_secs", .nat s.sizePeriod.toNat),
  ("subscriber_buffer", .nat s.subscriberBuffer.toNat)]

def IngestSettings.fields (s : IngestSettings) : List (String × Json) :=
  [("channel_capacity", .nat s.channelCapacity.toNat)]

def SetSettings.fields (s : SetSettings) : List (String × Json) := [
  ("schema_path", .ofPath? s.schemaPath),
  ("state_container", .string s.stateContainer),
  ("config_container", .string s.configContainer)]

def MonitoringSettings.fields (s : MonitoringSettings) : List (String × Json) := [
  ("prometheus_enabled", .bool s.prometheusEnabled),
  ("prometheus_port", .nat s.prometheusPort.toNat)]

namespace Settings

def sections (s : Settings) : List (String × List (String × Json)) := [
  ("server", s.server.fields),
  ("cache", s.cache.fields),
  ("ingest", s.ingest.fields),
  ("set", s.set.fields),
  ("monitoring", s.monitoring.fields)]

def toJson (s : Settings) : Json :=
  .ofFields (s.sections.map fun (label, fields) => (label, .ofFields fields))

end Settings

end Telemetry
