import ChainIndexer.Schedule.Metrics
import ChainIndexer.Schedule.Registry
import ChainIndexer.Schedule.Ticker

namespace ChainIndexer

/-- The start tells how long the tick works, the end gives its result. -/
structure Handler (σ : Type) where
  start : Nat → σ → Nat × σ
  finish : Nat → σ → Except Stop Outcome × σ

inductive Phase (σ : Type) where
  | waiting
  | working (handler : Handler σ)
  | pausing

/-- A ticker has something to do at `wake`; of several at one time the one with the lowest turn comes
first. Times are milliseconds. -/
structure ActiveTicker (σ : Type) where
  name : String
  period : Nat
  due : Nat
  wake : Nat
  turn : Nat
  phase : Phase σ

structure Scheduler (σ : Type) where
  clock : Nat
  world : σ
  registry : Registry (Handler σ)
  metrics : Metrics
  backoff : Duration
  tickers : List (ActiveTicker σ)
  turns : Nat
  cancelled : Bool

namespace Scheduler

variable {σ : Type}

def epoch : Nat := 1700000000000

def create (registry : Registry (Handler σ)) (backoff : Duration) (world : σ) : Scheduler σ :=
  ⟨0, world, registry, ∅, backoff, [], 0, false⟩

def now (s : Scheduler σ) : Nat := epoch + s.clock

def mention (s : Scheduler σ) (name : String) : Scheduler σ :=
  { s with metrics := s.metrics.mention s.now name }

def beginTick (s : Scheduler σ) (name : String) (h : Handler σ) : Nat × Scheduler σ :=
  let (work, world) := h.start s.clock s.world
  (work, { s.mention name with world := world })

def record (s : Scheduler σ) (name : String) : Except Stop Outcome → Scheduler σ
  | .ok o =>
    let s := { s with metrics := s.metrics.change s.now name (·.recordOutcome o s.now) }
    match o with
    | .completed => { s with registry := s.registry.erase name }
    | _ => s
  | .error (.error e) =>
    { s with metrics := s.metrics.change s.now name (·.recordFailure e.failureClass) }
  | .error (.crash _) => s

def endTick (s : Scheduler σ) (name : String) (h : Handler σ) :
    Except Stop Outcome × Scheduler σ :=
  let (result, world) := h.finish s.clock s.world
  (result, { s with world := world }.record name result)

def keep (s : Scheduler σ) (t : ActiveTicker σ) (phase : Phase σ) (wake : Nat) : Scheduler σ :=
  if s.clock < wake then
    { s with
      tickers := s.tickers ++ [{ t with phase := phase, wake := wake, turn := s.turns }]
      turns := s.turns + 1 }
  else { s with tickers := s.tickers ++ [{ t with phase := phase, wake := s.clock }] }

def act (s : Scheduler σ) (t : ActiveTicker σ) : Scheduler σ :=
  match t.phase with
  | .waiting =>
    match s.registry.find? t.name with
    | none => s
    | some g =>
      let (work, s) := s.beginTick t.name g.handler
      let due := Ticker.nextDue t.due s.clock t.period
      s.keep { t with due := due } (.working g.handler) (s.clock + work)
  | .working h =>
    let (result, s) := s.endTick t.name h
    if s.cancelled then s
    else match Ticker.sequel s.backoff result with
      | .stop => s
      | .resume 0 => s.keep t .waiting t.due
      | .resume pause => s.keep t .pausing (s.clock + pause)
  | .pausing => s.keep t .waiting t.due

def before (a b : ActiveTicker σ) : Bool :=
  a.wake < b.wake || (a.wake == b.wake && a.turn < b.turn)

def first? : List (ActiveTicker σ) → Option (ActiveTicker σ × List (ActiveTicker σ))
  | [] => none
  | t :: r =>
    match first? r with
    | none => some (t, [])
    | some (u, others) => if before u t then some (u, t :: others) else some (t, u :: others)

def runBefore (time : Nat) : Nat → Scheduler σ → Scheduler σ
  | 0, s => s
  | fuel + 1, s =>
    match first? s.tickers with
    | none => s
    | some (t, others) =>
      if t.wake < time then
        let s := { s with tickers := others, clock := max s.clock t.wake }
        runBefore time fuel (s.act t)
      else s

/-- A ticker acts at most three times for each of its ticks, and ticks at most once a millisecond
once it has made up for being late. -/
def acts (s : Scheduler σ) (span : Nat) : Nat := (s.tickers.length + 1) * (3 * span + 32)

/-- The caller goes on before tickers that are due at the end. -/
def sleep (s : Scheduler σ) (span : Nat) : Scheduler σ :=
  if span = 0 then s
  else { s.runBefore (s.clock + span) (s.acts span) with clock := s.clock + span }

def runOnce (s : Scheduler σ) (name : String) : Except Stop Outcome × Scheduler σ :=
  match s.registry.find? name with
  | none => (.error (.error (.jobNotFound name)), s)
  | some g =>
    let (work, s) := s.beginTick name g.handler
    (s.sleep work).endTick name g.handler

/-- A period is whole milliseconds, as a configuration gives intervals; a fraction of one is rounded up. -/
def spawn (s : Scheduler σ) (name : String) : Bool × Scheduler σ :=
  match s.registry.interval? name with
  | none => (false, s)
  | some interval =>
    let s := s.mention name
    if s.cancelled then (true, s)
    else
      (true, { s with
        tickers := s.tickers ++ [⟨name, interval.ceilMillis, s.clock, s.clock, s.turns, .waiting⟩]
        turns := s.turns + 1 })

def start (s : Scheduler σ) : Scheduler σ :=
  s.registry.keys.foldl (fun s name => (s.spawn name).2) s

def isWorking (t : ActiveTicker σ) : Bool :=
  match t.phase with
  | .working _ => true
  | _ => false

def cancel (s : Scheduler σ) : Scheduler σ :=
  { s with cancelled := true, tickers := s.tickers.filter isWorking }

def horizon (s : Scheduler σ) : Nat := (s.tickers.map (·.wake)).foldl max s.clock

def shutdown (s : Scheduler σ) : Scheduler σ :=
  let s := s.cancel
  s.runBefore (s.horizon + 1) s.tickers.length

def register (s : Scheduler σ) (name : String) (h : Handler σ) (interval : Duration) :
    Except JobError (Scheduler σ) :=
  (s.registry.register name h interval).map fun r => { s with registry := r }

def deregister (s : Scheduler σ) (name : String) : Bool × Scheduler σ :=
  (s.registry.contains name, { s with registry := s.registry.erase name })

end Scheduler

end ChainIndexer
