import ChainIndexer.Rate

namespace ChainIndexer

structure HealthSample where
  takenAt : Nat
  health : Health
  deriving DecidableEq, Repr

structure HealthCache where
  ttl : Duration
  latest : Option HealthSample
  deriving DecidableEq, Repr

namespace HealthCache

def empty (ttl : Duration) : HealthCache := ⟨ttl, none⟩

def isFresh (ttl : Duration) (now : Nat) (s : HealthSample) : Bool :=
  Duration.ofMillis (now - s.takenAt) < ttl

def fresh? (c : HealthCache) (now : Nat) : Option Health :=
  (c.latest.filter (isFresh c.ttl now)).map (·.health)

def fallback (c : HealthCache) : Health := (c.latest.map (·.health)).getD .loaded

def settle (c : HealthCache) (now : Nat) (result : Option Health) : HealthCache × Health :=
  match result with
  | some h => ({ c with latest := some ⟨now, h⟩ }, h)
  | none => (c, c.fallback)

def serve (c : HealthCache) (now : Nat) (probe : Option Health) : HealthCache × Health × Bool :=
  match c.fresh? now with
  | some h => (c, h, false)
  | none =>
    let (c, h) := c.settle now probe
    (c, h, true)

end HealthCache

end ChainIndexer
