import Piecework.Arguments
import Piecework.Files
import Piecework.LogFilter
import Piecework.Quoted
import Piecework.Yaml

/-!
# Starting the commands

What a broker and a worker show when they start, as a function of their
arguments, their environment and the files they can see, and the code they exit
with. No interface is opened: a broker's start ends where listening would
begin, with the code of an address that nobody can listen on, and a worker
finds no broker and is interrupted after its first failed fetch.
-/

namespace Piecework

/-- What a command can see around it. -/
structure Surroundings where
  environment : String → Option String
  file : String → Found

/-- The exit code of a command that is not carried out. -/
def CommandLine.Refusal.exitCode : CommandLine.Refusal → Nat
  | help => 0
  | usage => 2

/-- The filter that the environment asks for, or the default. -/
def Surroundings.logFilter (s : Surroundings) (default : String) : LogFilter :=
  LogFilter.ofSetting (s.environment "RUST_LOG") default

namespace Network

/-- A network section as a log line shows it. -/
def shown (c : Network) : String :=
  "NetworkConfig \x7b host: " ++ Quoted.text c.host ++ ", port: " ++ Decimal.text c.port ++ " \x7d"

end Network

namespace Costs

/-- A table of costs as a log line shows it. -/
def shown (c : Costs) : String :=
  "OperationTimes \x7b addition_ms: " ++ Decimal.text c.addition
    ++ ", subtraction_ms: " ++ Decimal.text c.subtraction
    ++ ", multiplication_ms: " ++ Decimal.text c.multiplication
    ++ ", division_ms: " ++ Decimal.text c.division ++ " \x7d"

end Costs

namespace Monitoring

/-- A monitoring section as a log line shows it. -/
def shown (c : Monitoring) : String :=
  "MonitoringConfig \x7b prometheus_port: " ++ Decimal.text c.port
    ++ ", log_level: " ++ Quoted.text c.logLevel ++ " \x7d"

end Monitoring

/-- The settings of a broker as a log line shows them. -/
def BrokerConfig.shown (c : BrokerConfig) : String :=
  "BrokerConfig \x7b server: " ++ c.network.shown ++ ", operations: " ++ c.costs.shown
    ++ ", monitoring: " ++ c.monitoring.shown ++ " \x7d"

/-- The start of a broker: its exit code, whether it warned of a missing configuration file, and
the configuration that it showed. -/
structure BrokerStart where
  exitCode : Nat
  warned : Bool := false
  config : Option BrokerConfig := none
  deriving DecidableEq, Repr

namespace BrokerStart

/-- The name under which a broker writes its log lines. -/
def logTarget : String := "dc_broker"

/-- Start with a configuration that comes from a file or is the default. -/
def configured (s : Surroundings) (a : BrokerArguments) (c : BrokerConfig) (defaulted : Bool) :
    BrokerStart :=
  let filter := s.logFilter c.monitoring.logLevel
  { exitCode := 1
    warned := defaulted && filter.shows logTarget .warn
    config := if filter.shows logTarget .info then some (a.override c) else none }

/-- Start a broker. A missing configuration file stands for the default configuration, one that
cannot be read ends the start. -/
def run (s : Surroundings) (args : List String) : BrokerStart :=
  match BrokerArguments.read s.environment args with
  | .error e => ⟨e.exitCode, false, none⟩
  | .ok a =>
    match s.file a.config with
    | .nothing => configured s a {} true
    | .unreadable => ⟨1, false, none⟩
    | .file contents =>
      match Yaml.read? BrokerConfig.decode contents with
      | none => ⟨1, false, none⟩
      | some c => configured s a c false

end BrokerStart

/-- The name of a worker: one that is configured, or one that is made up at the start. -/
inductive WorkerName where
  | configured (name : String)
  | generated
  deriving DecidableEq, Repr

/-- The name of a worker with these settings. -/
def WorkerConfig.name (c : WorkerConfig) : WorkerName :=
  match c.workerId with
  | some name => .configured name
  | none => .generated

/-- What a worker shows when it has started. -/
structure WorkerBanner where
  polling : String
  name : WorkerName
  concurrency : Nat
  deriving DecidableEq, Repr

/-- The start of a worker: its exit code and what it showed. -/
structure WorkerStart where
  exitCode : Nat
  banner : Option WorkerBanner := none
  deriving DecidableEq, Repr

namespace WorkerStart

/-- The name under which a worker writes its log lines. -/
def logTarget : String := "dc_worker"

/-- Start with a configuration. -/
def configured (s : Surroundings) (a : WorkerArguments) (c : WorkerConfig) : WorkerStart :=
  let c := a.override c
  let shown := (s.logFilter "info").shows logTarget .info
  ⟨0, if shown then some ⟨c.brokerUrl, c.name, max c.concurrency 1⟩ else none⟩

/-- Start a worker. A configuration file that is asked for must be there. -/
def run (s : Surroundings) (args : List String) : WorkerStart :=
  match WorkerArguments.read s.environment args with
  | .error e => ⟨e.exitCode, none⟩
  | .ok a =>
    match a.config with
    | none => configured s a {}
    | some path =>
      match s.file path with
      | .file contents =>
        match Yaml.read? WorkerConfig.decode contents with
        | none => ⟨1, none⟩
        | some c => configured s a c
      | _ => ⟨1, none⟩

end WorkerStart

end Piecework
