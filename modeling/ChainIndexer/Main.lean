import ChainIndexer.Config.Load
import ChainIndexer.Job.Roster
import ChainIndexer.Job.World

namespace ChainIndexer.CommandLine

structure Options where
  config : String
  checkOnly : Bool
  runMs : Nat

def Options.parse (o : Options) : List String → Except String Options
  | [] => .ok o
  | "--check-config" :: rest => parse { o with checkOnly := true } rest
  | "--config" :: path :: rest => parse { o with config := path } rest
  | "--run-ms" :: ms :: rest =>
    match Text.natural? ms.toList with
    | some n => parse { o with runMs := n } rest
    | none => .error ("not a number: " ++ ms)
  | arg :: _ => .error ("unexpected argument: " ++ arg)

def readConfig (path : String) : IO (Except String String) := do
  try
    let text ← IO.FS.readFile path
    return .ok text
  catch
    | .noFileOrDirectory .. => return .error Config.noSuchFile
    | e => return .error (toString e)

def environment : IO (List (String × String)) := do
  match ← IO.getEnv Config.urlVariable with
  | some url => return [(Config.urlVariable, url)]
  | none => return []

def runJobs (c : Config) (span : Nat) : Except JobError (Scheduler (World Memory.Engine)) := do
  let registry ← Roster.ofConfig c
  let handlers : Registry (Handler (World Memory.Engine)) :=
    registry.map fun g => ⟨World.handler .memory g.handler, g.interval⟩
  let s := Scheduler.create handlers (.ofMillis c.scheduler.transientBackoffMs)
    (World.ofStore (Memory.Engine.ofDatabase .empty))
  .ok (s.start.sleep span).shutdown

def metricsLine (e : String × JobMetrics) : String :=
  e.1 ++ s!": ticks {e.2.ticks}, advanced {e.2.advanced}, idle {e.2.idle}, failures {e.2.failures}"

def run (o : Options) : IO UInt32 := do
  match Config.load o.config (← readConfig o.config) (← environment) with
  | .error e =>
    IO.eprintln e.message
    return 1
  | .ok c =>
    if o.checkOnly then
      IO.println ("configuration is valid: " ++ o.config)
      return 0
    match runJobs c o.runMs with
    | .error e =>
      IO.eprintln e.message
      return 1
    | .ok s =>
      s.metrics.entries.forM fun e => IO.println (metricsLine e)
      return 0

end ChainIndexer.CommandLine

open ChainIndexer.CommandLine in
def main (args : List String) : IO UInt32 := do
  let path := (← IO.getEnv "STRATA_CONFIG").getD "config/strata.toml"
  match Options.parse ⟨path, false, 60000⟩ args with
  | .ok o => run o
  | .error message =>
    IO.eprintln message
    return 2
