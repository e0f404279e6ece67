import ChainIndexer.Job.World
import ChainIndexer.Proofs.OrderedMap
import ChainIndexer.Proofs.Program
import ChainIndexer.Proofs.Rate.Cache

namespace ChainIndexer

variable {σ : Type} {b : Backend σ} {now : Nat}

namespace World

def clock (b : Backend σ) (now : Nat) (w : World σ) : Nat := now + b.waited w.store

theorem clock_keep (w : World σ) (slot : Nat) (s : Option HealthSample) :
    (w.keep slot s).clock b now = w.clock b now := by
  cases s <;> rfl

theorem find?_keep (w : World σ) (slot : Nat) (s : Option HealthSample) :
    (w.keep slot s).samples.find? slot = s := by
  cases s with
  | none => exact OrderedMap.find?_erase_self ..
  | some s => exact OrderedMap.find?_insert_self ..

end World

namespace HealthMonitor

open HealthCache (Use Course Answered Spaced latest?)

variable {m : HealthMonitor} {w : World σ} {us : List Use}

def cache (m : HealthMonitor) (w : World σ) : HealthCache := ⟨m.ttl, w.samples.find? m.slot⟩

def used (b : Backend σ) (now : Nat) (m : HealthMonitor) (w : World σ) : HealthCache × Use :=
  (m.cache w).use (w.clock b now) ((World.perform b now m.health w).2.clock b now)
    (World.perform b now m.probe.sample w).1.toOption

def answerFrom (m : HealthMonitor) (cache : HealthCache) (asked : Nat) : Work Health :=
  match cache.fresh? asked with
  | some h => pure h
  | none => do
    let result ← Work.lift m.probe.sample.run
    let ended ← Work.lift (.request .clock)
    let (kept, h) := cache.settle ended (result.toOption)
    Work.lift (.request (.keepHealth m.slot kept.latest))
    pure h

theorem perform_health (b : Backend σ) (now : Nat) (m : HealthMonitor) (w : World σ) :
    World.perform b now m.health w =
      World.perform b now (m.answerFrom (m.cache w) (w.clock b now)) w := rfl

theorem perform_health_fresh {h : Health} (hf : (m.cache w).fresh? (w.clock b now) = some h) :
    World.perform b now m.health w = (.ok h, w) := by
  rw [perform_health, answerFrom, hf]
  rfl

theorem perform_health_stale (hf : (m.cache w).fresh? (w.clock b now) = none) {r : Except Stop Health}
    {w' : World σ} (hsample : World.perform b now m.probe.sample w = (r, w')) :
    World.perform b now m.health w =
      let settled := (m.cache w).settle (w'.clock b now) r.toOption
      (.ok settled.2, w'.keep m.slot settled.1.latest) := by
  rw [perform_health, answerFrom, hf, World.perform, Work.run_bind, Work.run_lift,
    Program.bind_assoc, Program.run_bind]
  rw [World.perform] at hsample
  rw [hsample]
  rfl

theorem perform_health_used (b : Backend σ) (now : Nat) (m : HealthMonitor) (w : World σ) :
    ∃ w', World.perform b now m.health w = (.ok (m.used b now w).2.served, w') ∧
      m.cache w' = (m.used b now w).1 := by
  rw [used, HealthCache.use]
  cases hf : (m.cache w).fresh? (w.clock b now) with
  | some h => exact ⟨w, perform_health_fresh hf, rfl⟩
  | none =>
    rcases hsample : World.perform b now m.probe.sample w with ⟨r, w'⟩
    have hrun := perform_health_stale hf hsample
    rw [hrun, World.clock_keep]
    refine ⟨_, rfl, ?_⟩
    rw [cache, World.find?_keep]
    cases r <;> rfl

inductive Calls (b : Backend σ) (m : HealthMonitor) : World σ → Nat → List Use → Prop
  | start {w : World σ} {now : Nat} (hnone : w.samples.find? m.slot = none) : Calls b m w now []
  | elapse {w w' : World σ} {now later : Nat} {us : List Use} (h : Calls b m w now us)
    (hslot : w'.samples.find? m.slot = w.samples.find? m.slot)
    (hclock : w.clock b now ≤ w'.clock b later) : Calls b m w' later us
  | call {w w' : World σ} {now : Nat} {us : List Use} {x : Except Stop Health}
    (h : Calls b m w now us) (hrun : World.perform b now m.health w = (x, w'))
    (hclock : w.clock b now ≤ w'.clock b now) : Calls b m w' now ((m.used b now w).2 :: us)

theorem Calls.course (h : Calls b m w now us) : Course m.ttl (m.cache w) (w.clock b now) us := by
  induction h with
  | start hnone =>
    rw [cache, hnone]
    exact .start
  | elapse _ hslot hclock ih =>
    rw [cache, hslot]
    exact ih.elapse hclock
  | @call w w' now us x _ hrun hclock ih =>
    obtain ⟨w₁, hused, hcache⟩ := perform_health_used b now m w
    obtain ⟨-, rfl⟩ := Prod.mk.inj (hused.symm.trans hrun)
    rw [hcache, used, hrun]
    exact ih.call _ hclock

def early : HealthMonitor := ⟨0, .ofMillis 5, .store (some "block")⟩

def idle : Health := ⟨.zero, true⟩

end HealthMonitor

end ChainIndexer
