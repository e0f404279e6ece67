import ChainIndexer.Job.Incremental
import ChainIndexer.Memory.Engine
import ChainIndexer.Postgres.Connect
import ChainIndexer.Schedule.Scheduler

namespace ChainIndexer

open Store (Access)

structure Backend (σ : Type) where
  access : Nat → (a : Access) → σ → Store.Result a.Answer × σ
  waited : σ → Nat

namespace Backend

def memory : Backend Memory.Engine :=
  ⟨fun now a e => e.access (.ofMillis now) a, fun _ => 0⟩

def postgres (settings : Postgres.Settings) : Backend Postgres.Session :=
  ⟨fun _ a s => s.access settings a, (·.clock)⟩

end Backend

structure World (σ : Type) where
  store : σ
  samples : OrderedMap Nat HealthSample
  turns : OrderedMap Nat Nat

namespace World

variable {σ α : Type}

def ofStore (store : σ) : World σ := ⟨store, ∅, ∅⟩

def keep (w : World σ) (slot : Nat) : Option HealthSample → World σ
  | some sample => { w with samples := w.samples.insert slot sample }
  | none => { w with samples := w.samples.erase slot }

def answer (b : Backend σ) (now : Nat) : (r : Request) → World σ → r.Answer × World σ
  | .access a, w =>
    let (x, store) := b.access now a w.store
    (x, { w with store := store })
  | .clock, w => (now + b.waited w.store, w)
  | .cachedHealth slot, w => (w.samples.find? slot, w)
  | .keepHealth slot sample, w => ((), w.keep slot sample)
  | .turn counter, w =>
    let n := (w.turns.find? counter).getD 0
    (n, { w with turns := w.turns.insert counter (n + 1) })

def perform (b : Backend σ) (now : Nat) (work : Work α) (w : World σ) :
    Except Stop α × World σ :=
  Program.run (answer b now) work.run w

/-- A job works in no time: its tick is over when it has started. -/
def handler (b : Backend σ) (j : Job) : Handler (World σ) :=
  ⟨fun _ w => (0, w), fun now w => perform b now j.tick w⟩

end World

end ChainIndexer
