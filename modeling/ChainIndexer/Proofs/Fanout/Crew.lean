import Mathlib.Data.List.Basic

namespace ChainIndexer.Fanout

variable {ι φ : Type}

structure Crew (ι φ : Type) where
  waiting : List ι
  flying : List φ
  given : List φ

namespace Crew

def opened (items : List ι) : Crew ι φ := ⟨items, [], []⟩

def Done (c : Crew ι φ) : Prop := c.waiting = [] ∧ c.flying = []

def started (c : Crew ι φ) : List φ := c.given ++ c.flying

def tasks (launch : ι → φ) (c : Crew ι φ) : List φ := c.started ++ c.waiting.map launch

theorem mem_tasks {c : Crew ι φ} {f : φ} (h : f ∈ c.flying) (launch : ι → φ) :
    f ∈ c.tasks launch := List.mem_append_left _ (List.mem_append_right _ h)

inductive Turn (places : Nat) (launch : ι → φ) (ready : φ → Prop) :
    Crew ι φ → Crew ι φ → Prop where
  | start {item waiting flying given} (room : flying.length < places) :
      Turn places launch ready ⟨item :: waiting, flying, given⟩
        ⟨waiting, flying ++ [launch item], given⟩
  | give {first waiting flying given} (h : ready first) :
      Turn places launch ready ⟨waiting, first :: flying, given⟩ ⟨waiting, flying, given ++ [first]⟩

variable {places : Nat} {launch : ι → φ} {ready : φ → Prop} {c c' : Crew ι φ}

theorem Turn.started (h : Turn places launch ready c c') :
    (∃ item, c.waiting = item :: c'.waiting ∧ c'.started = c.started ++ [launch item] ∧
      c.flying.length < places ∧ c'.given = c.given) ∨
      (c'.waiting = c.waiting ∧ c'.started = c.started ∧
        ∃ first, ready first ∧ c'.given = c.given ++ [first]) := by
  cases h with
  | start room => exact .inl ⟨_, rfl, (List.append_assoc ..).symm, room, rfl⟩
  | give h => exact .inr ⟨rfl, List.append_assoc .., _, h, rfl⟩

theorem Turn.tasks_eq (h : Turn places launch ready c c') : c'.tasks launch = c.tasks launch := by
  cases h with
  | start room =>
    simp only [tasks, Crew.started, List.map_cons, List.append_assoc, List.singleton_append]
  | give h => simp only [tasks, Crew.started, List.append_assoc, List.singleton_append]

theorem Turn.flying_le (h : Turn places launch ready c c') (hc : c.flying.length ≤ places) :
    c'.flying.length ≤ places := by
  cases h with
  | start room =>
    rw [List.length_append]
    exact room
  | give => exact Nat.le_of_succ_le hc

def left (c : Crew ι φ) : Nat := 2 * c.waiting.length + c.flying.length

theorem Turn.left_lt (h : Turn places launch ready c c') : c'.left < c.left := by
  cases h with
  | start =>
    simp only [left, List.length_append, List.length_cons, List.length_nil]
    omega
  | give =>
    simp only [left, List.length_cons]
    omega

theorem done_or_turn_or_held (hplaces : 0 < places) (launch : ι → φ) (ready : φ → Prop)
    (c : Crew ι φ) : c.Done ∨ (∃ c', Turn places launch ready c c') ∨
      ∃ first rest, c.flying = first :: rest ∧ ¬ready first ∧
        (c.waiting = [] ∨ places ≤ c.flying.length) := by
  obtain ⟨waiting, flying, given⟩ := c
  cases flying with
  | nil =>
    cases waiting with
    | nil => exact .inl ⟨rfl, rfl⟩
    | cons => exact .inr (.inl ⟨_, .start hplaces⟩)
  | cons first rest =>
    by_cases hready : ready first
    · exact .inr (.inl ⟨_, .give hready⟩)
    · cases waiting with
      | nil => exact .inr (.inr ⟨first, rest, rfl, hready, .inl rfl⟩)
      | cons =>
        by_cases room : (first :: rest).length < places
        · exact .inr (.inl ⟨_, .start room⟩)
        · exact .inr (.inr ⟨first, rest, rfl, hready, .inr (Nat.not_lt.mp room)⟩)

end Crew

end ChainIndexer.Fanout
