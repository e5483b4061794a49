import Piecework.Wire

/-!
# Configurations

The settings of a broker and of a worker with their defaults. They are read
from JSON or from a configuration file alike; whatever is not given keeps its
default.
-/

namespace Piecework

/-- The largest port number. -/
def portMax : Nat := UInt16.size - 1

/-- A port number. -/
def Node.port (n : Node) : Except DecodeError Nat := n.natural portMax

/-- Where a broker listens. -/
structure Network where
  host : String := "0.0.0.0"
  port : Nat := 8080
  deriving DecidableEq, Repr

namespace Network

/-- A network section. -/
def toJson (c : Network) : Json := .record [("host", .text c.host), ("port", .natural c.port)]

/-- Read a network section. -/
def decode (n : Node) : Except DecodeError Network := do
  let found ← Parts.ofNode [.of "host" Node.string, .of "port" Node.port] n
  let default : Network := {}
  let host ← found.orElse "host" Node.string default.host
  let port ← found.orElse "port" Node.port default.port
  return ⟨host, port⟩

end Network

/-- How a broker is watched. -/
structure Monitoring where
  port : Nat := 9091
  logLevel : String := "info"
  deriving DecidableEq, Repr

namespace Monitoring

/-- A monitoring section. -/
def toJson (c : Monitoring) : Json :=
  .record [("prometheus_port", .natural c.port), ("log_level", .text c.logLevel)]

/-- Read a monitoring section. -/
def decode (n : Node) : Except DecodeError Monitoring := do
  let found ← Parts.ofNode [.of "prometheus_port" Node.port, .of "log_level" Node.string] n
  let default : Monitoring := {}
  let port ← found.orElse "prometheus_port" Node.port default.port
  let logLevel ← found.orElse "log_level" Node.string default.logLevel
  return ⟨port, logLevel⟩

end Monitoring

/-- The settings of a broker. -/
structure BrokerConfig where
  network : Network := {}
  costs : Costs := {}
  monitoring : Monitoring := {}
  deriving DecidableEq, Repr

namespace BrokerConfig

/-- The settings of a broker as a record of sections. -/
def toJson (c : BrokerConfig) : Json :=
  .record [("server", c.network.toJson), ("operations", c.costs.toJson),
    ("monitoring", c.monitoring.toJson)]

/-- Read the settings of a broker. -/
def decode (n : Node) : Except DecodeError BrokerConfig := do
  let found ← Parts.ofNode
    [.of "server" Network.decode, .of "operations" Costs.decode,
      .of "monitoring" Monitoring.decode] n
  let network ← found.orElse "server" Network.decode {}
  let costs ← found.orElse "operations" Costs.decode {}
  let monitoring ← found.orElse "monitoring" Monitoring.decode {}
  return ⟨network, costs, monitoring⟩

/-- The address of the public interface. -/
def address (c : BrokerConfig) : String := c.network.host ++ ":" ++ Decimal.text c.network.port

/-- The address of the metrics. -/
def metricsAddress (c : BrokerConfig) : String :=
  c.network.host ++ ":" ++ Decimal.text c.monitoring.port

end BrokerConfig

/-- The settings of a worker. -/
structure WorkerConfig where
  brokerUrl : String := "http://127.0.0.1:8080"
  workerId : Option String := none
  concurrency : Nat := 4
  pollInterval : Nat := 10
  requestTimeout : Nat := 5
  grace : Nat := 60
  deriving DecidableEq, Repr

namespace WorkerConfig

/-- The settings of a worker as a record. -/
def toJson (c : WorkerConfig) : Json :=
  .record [("broker_url", .text c.brokerUrl),
    ("worker_id", match c.workerId with | none => .null | some s => .text s),
    ("concurrency", .natural c.concurrency), ("poll_interval_ms", .natural c.pollInterval),
    ("request_timeout_secs", .natural c.requestTimeout),
    ("graceful_shutdown_timeout_secs", .natural c.grace)]

/-- The parts of a worker's settings. -/
def parts : List Part :=
  [.of "broker_url" Node.string, .of "worker_id" (Node.optional Node.string),
    .of "concurrency" Node.word, .of "poll_interval_ms" Node.word,
    .of "request_timeout_secs" Node.word, .of "graceful_shutdown_timeout_secs" Node.word]

/-- Read the settings of a worker. -/
def decode (n : Node) : Except DecodeError WorkerConfig := do
  let found ← Parts.ofNode parts n
  let default : WorkerConfig := {}
  let brokerUrl ← found.orElse "broker_url" Node.string default.brokerUrl
  let workerId ← found.orElse "worker_id" (Node.optional Node.string) default.workerId
  let concurrency ← found.orElse "concurrency" Node.word default.concurrency
  let pollInterval ← found.orElse "poll_interval_ms" Node.word default.pollInterval
  let requestTimeout ← found.orElse "request_timeout_secs" Node.word default.requestTimeout
  let grace ← found.orElse "graceful_shutdown_timeout_secs" Node.word default.grace
  return ⟨brokerUrl, workerId, concurrency, pollInterval, requestTimeout, grace⟩

end WorkerConfig

/-- The address at which a worker exchanges tasks with a broker: the broker's address without
slashes at its end, and the path of tasks. -/
def taskUrl (brokerUrl : String) : String :=
  String.ofList (brokerUrl.toList.reverse.dropWhile (· = '/')).reverse ++ "/internal/task"

end Piecework
