import Piecework.CommandLine
import Piecework.Config

/-!
# The commands' arguments

What the command line of a broker and that of a worker can say, and how it
changes a configuration. What is given on the command line or in the
environment goes before what the configuration says.
-/

namespace Piecework

open CommandLine

/-- The arguments of a broker. -/
structure BrokerArguments where
  config : String := "config.yaml"
  host : Option String := none
  port : Option Nat := none
  metricsPort : Option Nat := none
  addition : Option Nat := none
  subtraction : Option Nat := none
  multiplication : Option Nat := none
  division : Option Nat := none
  deriving DecidableEq, Repr

namespace BrokerArguments

/-- The settings of a broker's command line. -/
def settings : List (Setting BrokerArguments) := [
  ⟨"config", some 'c', none, storeText fun s a => { a with config := s }⟩,
  ⟨"host", none, none, storeText fun s a => { a with host := some s }⟩,
  ⟨"port", none, none, storeNumber portMax fun n a => { a with port := some n }⟩,
  ⟨"metrics-port", none, none, storeNumber portMax fun n a => { a with metricsPort := some n }⟩,
  ⟨"addition-ms", none, some "TIME_ADDITION_MS",
    storeNumber wordMax fun n a => { a with addition := some n }⟩,
  ⟨"subtraction-ms", none, some "TIME_SUBTRACTION_MS",
    storeNumber wordMax fun n a => { a with subtraction := some n }⟩,
  ⟨"multiplication-ms", none, some "TIME_MULTIPLICATIONS_MS",
    storeNumber wordMax fun n a => { a with multiplication := some n }⟩,
  ⟨"division-ms", none, some "TIME_DIVISIONS_MS",
    storeNumber wordMax fun n a => { a with division := some n }⟩]

/-- The arguments of a command line in an environment. -/
def read (environment : String → Option String) (args : List String) :
    Except Refusal BrokerArguments :=
  CommandLine.read settings {} environment args

/-- A configuration as the arguments change it. -/
def override (a : BrokerArguments) (c : BrokerConfig) : BrokerConfig where
  network := ⟨a.host.getD c.network.host, a.port.getD c.network.port⟩
  costs := ⟨a.addition.getD c.costs.addition, a.subtraction.getD c.costs.subtraction,
    a.multiplication.getD c.costs.multiplication, a.division.getD c.costs.division⟩
  monitoring := ⟨a.metricsPort.getD c.monitoring.port, c.monitoring.logLevel⟩

end BrokerArguments

/-- The arguments of a worker. -/
structure WorkerArguments where
  broker : Option String := none
  workerId : Option String := none
  concurrency : Option Nat := none
  config : Option String := none
  deriving DecidableEq, Repr

namespace WorkerArguments

/-- The settings of a worker's command line. -/
def settings : List (Setting WorkerArguments) := [
  ⟨"broker", some 'b', none, storeText fun s a => { a with broker := some s }⟩,
  ⟨"worker-id", none, none, storeText fun s a => { a with workerId := some s }⟩,
  ⟨"concurrency", some 'c', some "COMPUTING_POWER",
    storeNumber wordMax fun n a => { a with concurrency := some n }⟩,
  ⟨"config", none, none, storeText fun s a => { a with config := some s }⟩]

/-- The arguments of a command line in an environment. -/
def read (environment : String → Option String) (args : List String) :
    Except Refusal WorkerArguments :=
  CommandLine.read settings {} environment args

/-- A configuration as the arguments change it. -/
def override (a : WorkerArguments) (c : WorkerConfig) : WorkerConfig :=
  { c with
    brokerUrl := a.broker.getD c.brokerUrl
    workerId := a.workerId.or c.workerId
    concurrency := a.concurrency.getD c.concurrency }

end WorkerArguments

end Piecework
