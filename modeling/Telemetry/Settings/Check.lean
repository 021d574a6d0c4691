import Telemetry.Settings.Basic
import Telemetry.Text.Quoted

/-!
What settings have to satisfy. `Settings.check` reports the first rule that is broken, sections in
the order server, cache, ingest, set, monitoring.
-/

namespace Telemetry

inductive InvalidSetting where
  | emptyTarget
  | wildcardTarget (target : String)
  | noStreams
  | keepAliveTooLong (timeout interval : UInt64)
  | zeroPeriod
  | zeroBuffer
  | zeroCapacity
  | emptyContainer
  | sameContainers (name : String)
  | missingSchema (path : String)
  | zeroPort
  | privilegedPort (port : UInt16)
deriving DecidableEq, Repr

namespace InvalidSetting

def reason : InvalidSetting → String
  | emptyTarget => "server.target cannot be empty"
  | wildcardTarget target => s!"server.target cannot be the wildcard {Text.quoted target}"
  | noStreams => "server.max_concurrent_streams must be > 0"
  | keepAliveTooLong timeout interval =>
    s!"http2 keepalive timeout {timeout.toNat}s must be shorter than interval {interval.toNat}s"
  | zeroPeriod => "cache metadata and size periods must be > 0 when send_meta is on"
  | zeroBuffer => "cache.subscriber_buffer must be > 0"
  | zeroCapacity => "ingest.channel_capacity must be > 0"
  | emptyContainer => "set container names cannot be empty"
  | sameContainers name =>
    s!"set.state_container and set.config_container are both {Text.quoted name}"
  | missingSchema path => s!"schema descriptor {path} does not exist"
  | zeroPort => "prometheus_port cannot be 0 when enabled"
  | privilegedPort port =>
    s!"prometheus_port {port.toNat} is a privileged port (requires root)"

def message (e : InvalidSetting) : String :=
  "Invalid configuration: " ++ e.reason

end InvalidSetting

/-- The characters with the Unicode property White_Space. -/
def Text.isWhiteSpace (c : Char) : Bool :=
  let n := c.toNat
  (9 ≤ n && n ≤ 13) || n == 0x20 || n == 0x85 || n == 0xa0 || n == 0x1680
    || (0x2000 ≤ n && n ≤ 0x200a) || n == 0x2028 || n == 0x2029 || n == 0x202f || n == 0x205f
    || n == 0x3000

def InvalidSetting.refuse (bad : Bool) (e : InvalidSetting) : Except InvalidSetting Unit :=
  if bad then .error e else .ok ()

open InvalidSetting (refuse)

def ServerSettings.check (s : ServerSettings) : Except InvalidSetting Unit := do
  refuse (s.target.toList.all Text.isWhiteSpace) .emptyTarget
  refuse (s.target == wildcard) (.wildcardTarget s.target)
  refuse (s.maxConcurrentStreams == 0) .noStreams
  refuse (s.keepAliveInterval ≤ s.keepAliveTimeout)
    (.keepAliveTooLong s.keepAliveTimeout s.keepAliveInterval)

def CacheSettings.check (s : CacheSettings) : Except InvalidSetting Unit := do
  refuse (s.sendMeta && (s.metadataPeriod == 0 || s.sizePeriod == 0)) .zeroPeriod
  refuse (s.subscriberBuffer == 0) .zeroBuffer

def IngestSettings.check (s : IngestSettings) : Except InvalidSetting Unit :=
  refuse (s.channelCapacity == 0) .zeroCapacity

/-- `isFile` tells which paths are files. -/
def SetSettings.check (isFile : String → Bool) (s : SetSettings) :
    Except InvalidSetting Unit := do
  refuse (s.stateContainer.isEmpty || s.configContainer.isEmpty) .emptyContainer
  refuse (s.stateContainer == s.configContainer) (.sameContainers s.stateContainer)
  match s.schemaPath with
  | some path => refuse (!isFile path) (.missingSchema path)
  | none => .ok ()

def MonitoringSettings.check (s : MonitoringSettings) : Except InvalidSetting Unit := do
  refuse (s.prometheusEnabled && s.prometheusPort == 0) .zeroPort
  refuse (s.prometheusEnabled && s.prometheusPort < 1024) (.privilegedPort s.prometheusPort)

def Settings.check (isFile : String → Bool) (s : Settings) : Except InvalidSetting Unit := do
  s.server.check
  s.cache.check
  s.ingest.check
  s.set.check isFile
  s.monitoring.check

end Telemetry
