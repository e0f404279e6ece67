import ChainIndexer.Proofs.Interleaving.Shared
import ChainIndexer.Proofs.Program
import Mathlib.Logic.Function.Basic
import Mathlib.Logic.Relation

namespace ChainIndexer

open Memory (Database)
open Relation (ReflTransGen)

structure Site (ι α : Type) where
  shared : Shared ι
  ticks : ι → Option (Program α)

inductive Move (ι α : Type) where
  | begin (who : ι) (work : Program α)
  | ask (who : ι) (now : Nat)
  | finish (who : ι)
  | change (change : Memory.Change)

structure Rules (ι α : Type) where
  work : ι → Program α → Prop
  asks : ι → Request → Prop
  change : Database → Memory.Change → Prop

variable {ι α : Type}

def Rules.Allows (ρ : Rules ι α) (s : Site ι α) : Move ι α → Prop
  | .begin i p => ρ.work i p ∧ p.Asks (ρ.asks i)
  | .ask _ _ => True
  | .finish _ => True
  | .change c => ρ.change s.shared.committed c

namespace Site

variable [DecidableEq ι]

def ofDatabase (db : Database) : Site ι α := ⟨.ofDatabase db, fun _ => none⟩

def move? (s : Site ι α) : Move ι α → Option (Site ι α)
  | .begin i p =>
    match s.ticks i with
    | none => some ⟨s.shared, Function.update s.ticks i (some p)⟩
    | some _ => none
  | .ask i now =>
    match s.ticks i with
    | some (.ask r next) =>
      if s.shared.permits i r then
        some ⟨s.shared.asked i now r,
          Function.update s.ticks i (some (next (s.shared.reply now r)))⟩
      else none
    | _ => none
  | .finish i =>
    match s.ticks i with
    | some (.done _) => some ⟨s.shared, Function.update s.ticks i none⟩
    | _ => none
  | .change c => if s.shared.holder.isNone then some ⟨s.shared.changed c, s.ticks⟩ else none

def play (s : Site ι α) : List (Move ι α) → Option (Site ι α)
  | [] => some s
  | m :: rest => (s.move? m).bind fun t => t.play rest

def Step (ρ : Rules ι α) (s t : Site ι α) : Prop := ∃ m, ρ.Allows s m ∧ s.move? m = some t

def Reach (ρ : Rules ι α) : Site ι α → Site ι α → Prop := ReflTransGen (Step ρ)

def During (ρ : Rules ι α) (i : ι) : Site ι α → Site ι α → Prop :=
  ReflTransGen fun s t => ∃ m, ρ.Allows s m ∧ m ≠ .finish i ∧ s.move? m = some t

theorem During.reach {ρ : Rules ι α} {i : ι} {s t : Site ι α} (h : During ρ i s t) :
    Reach ρ s t := by
  induction h with
  | refl => exact .refl
  | tail _ hm ih =>
    obtain ⟨m, ha, -, hm⟩ := hm
    exact ih.tail ⟨m, ha, hm⟩

section

variable {s t : Site ι α} {i : ι}

theorem move?_begin {p : Program α} : s.move? (.begin i p) = some t ↔
    s.ticks i = none ∧ t = ⟨s.shared, Function.update s.ticks i (some p)⟩ := by
  simp only [move?]
  cases s.ticks i with
  | none => simp [eq_comm]
  | some p => simp

theorem move?_ask {now : Nat} : s.move? (.ask i now) = some t ↔
    ∃ r next, s.ticks i = some (.ask r next) ∧ s.shared.permits i r = true ∧
      t = ⟨s.shared.asked i now r,
        Function.update s.ticks i (some (next (s.shared.reply now r)))⟩ := by
  simp only [move?]
  cases h : s.ticks i with
  | none => simp
  | some p =>
    cases p with
    | done a => simp
    | ask r next =>
      constructor
      · intro hm
        dsimp only at hm
        split at hm
        · next hp => exact ⟨r, next, rfl, hp, (Option.some.inj hm).symm⟩
        · cases hm
      · rintro ⟨r', next', he, hp, rfl⟩
        cases he
        simp [hp]

theorem move?_finish : s.move? (.finish i) = some t ↔
    ∃ a, s.ticks i = some (.done a) ∧ t = ⟨s.shared, Function.update s.ticks i none⟩ := by
  simp only [move?]
  cases s.ticks i with
  | none => simp
  | some p =>
    cases p with
    | done a => simp [eq_comm]
    | ask r next => simp

theorem move?_change {c : Memory.Change} : s.move? (.change c) = some t ↔
    s.shared.holder = none ∧ t = ⟨s.shared.changed c, s.ticks⟩ := by
  simp only [move?, Option.isNone_iff_eq_none]
  split
  · next h => simp [h, eq_comm]
  · next h => simp [h]

end

theorem Step.record {ρ : Rules ι α} {s t : Site ι α} (h : Step ρ s t) :
    s.shared.record <+: t.shared.record := by
  obtain ⟨m, -, hm⟩ := h
  cases m with
  | begin i p =>
    obtain ⟨-, rfl⟩ := move?_begin.mp hm
    exact List.prefix_rfl
  | ask i now =>
    obtain ⟨r, next, -, -, rfl⟩ := move?_ask.mp hm
    exact List.prefix_append ..
  | finish i =>
    obtain ⟨a, -, rfl⟩ := move?_finish.mp hm
    exact List.prefix_rfl
  | change c =>
    obtain ⟨-, rfl⟩ := move?_change.mp hm
    exact List.prefix_append ..

theorem Reach.record {ρ : Rules ι α} {s t : Site ι α} (h : Reach ρ s t) :
    s.shared.record <+: t.shared.record := by
  induction h with
  | refl => exact List.prefix_rfl
  | tail _ hs ih => exact ih.trans hs.record

def InOrder (ρ : Rules ι α) (s : Site ι α) : Prop :=
  s.shared.WellLocked ∧ ∀ i p, s.ticks i = some p → p.Asks (ρ.asks i)

omit [DecidableEq ι] in
theorem inOrder_ofDatabase (ρ : Rules ι α) (db : Database) : InOrder ρ (ofDatabase db) :=
  ⟨Shared.wellLocked_ofDatabase db, fun _ _ h => by cases h⟩

theorem ticks_update {ticks : ι → Option (Program α)} {i j : ι} {o : Option (Program α)}
    {q : Program α} (h : Function.update ticks i o j = some q) :
    (j = i ∧ o = some q) ∨ (j ≠ i ∧ ticks j = some q) := by
  by_cases hj : j = i
  · subst hj
    rw [Function.update_self] at h
    exact .inl ⟨rfl, h⟩
  · rw [Function.update_of_ne hj] at h
    exact .inr ⟨hj, h⟩

theorem InOrder.step {ρ : Rules ι α} {s t : Site ι α} (h : InOrder ρ s) (hs : Step ρ s t) :
    InOrder ρ t := by
  obtain ⟨hw, hq⟩ := h
  obtain ⟨m, ha, hm⟩ := hs
  cases m with
  | begin i p =>
    obtain ⟨-, rfl⟩ := move?_begin.mp hm
    refine ⟨hw, fun j q hj => ?_⟩
    obtain ⟨rfl, ho⟩ | ⟨-, ho⟩ := ticks_update hj
    · exact Option.some.inj ho ▸ ha.2
    · exact hq j q ho
  | ask i now =>
    obtain ⟨r, next, hi, hp, rfl⟩ := move?_ask.mp hm
    refine ⟨Shared.wellLocked_asked hw hp, fun j q hj => ?_⟩
    obtain ⟨rfl, ho⟩ | ⟨-, ho⟩ := ticks_update hj
    · exact Option.some.inj ho ▸ (hq j _ hi).2 _
    · exact hq j q ho
  | finish i =>
    obtain ⟨a, -, rfl⟩ := move?_finish.mp hm
    refine ⟨hw, fun j q hj => ?_⟩
    obtain ⟨rfl, ho⟩ | ⟨-, ho⟩ := ticks_update hj
    · cases ho
    · exact hq j q ho
  | change c =>
    obtain ⟨hn, rfl⟩ := move?_change.mp hm
    exact ⟨Shared.wellLocked_changed hn c, hq⟩

theorem InOrder.reach {ρ : Rules ι α} {s t : Site ι α} (h : InOrder ρ s) (hr : Reach ρ s t) :
    InOrder ρ t := by
  induction hr with
  | refl => exact h
  | tail _ hs ih => exact ih.step hs

theorem reach_of_play {ρ : Rules ι α} {ms : List (Move ι α)} {s t : Site ι α}
    (ha : ∀ m ∈ ms, ∀ s, ρ.Allows s m) (h : s.play ms = some t) : Reach ρ s t := by
  induction ms generalizing s with
  | nil => cases h; exact .refl
  | cons m rest ih =>
    obtain ⟨u, hu, hr⟩ := Option.bind_eq_some_iff.mp h
    exact .head ⟨m, ha m List.mem_cons_self s, hu⟩
      (ih (fun k hk => ha k (List.mem_cons_of_mem _ hk)) hr)

theorem play_append {ms ns : List (Move ι α)} {s t : Site ι α} :
    s.play (ms ++ ns) = some t ↔ ∃ u, s.play ms = some u ∧ u.play ns = some t := by
  induction ms generalizing s with
  | nil => simp [play]
  | cons m rest ih =>
    simp only [List.cons_append, play, Option.bind_eq_some_iff]
    constructor
    · rintro ⟨v, hv, hr⟩
      obtain ⟨u, hu, ht⟩ := ih.mp hr
      exact ⟨u, ⟨v, hv, hu⟩, ht⟩
    · rintro ⟨u, ⟨v, hv, hu⟩, ht⟩
      exact ⟨v, hv, ih.mpr ⟨u, hu, ht⟩⟩

theorem during_of_play {ρ : Rules ι α} {i : ι} {ms : List (Move ι α)} {s t : Site ι α}
    (ha : ∀ m ∈ ms, m ≠ .finish i ∧ ∀ s, ρ.Allows s m) (h : s.play ms = some t) :
    During ρ i s t := by
  induction ms generalizing s with
  | nil => cases h; exact .refl
  | cons m rest ih =>
    obtain ⟨u, hu, hr⟩ := Option.bind_eq_some_iff.mp h
    obtain ⟨hf, hs⟩ := ha m List.mem_cons_self
    exact .head ⟨m, hs s, hf, hu⟩ (ih (fun k hk => ha k (List.mem_cons_of_mem _ hk)) hr)

def result? (s : Site ι α) (i : ι) : Option α :=
  match s.ticks i with
  | some (.done a) => some a
  | _ => none

omit [DecidableEq ι] in
theorem ticks_of_result? {s : Site ι α} {i : ι} {a : α} (h : s.result? i = some a) :
    s.ticks i = some (.done a) := by
  simp only [result?] at h
  split at h
  · next b hb => rw [hb, Option.some.inj h]
  · cases h

end Site

end ChainIndexer
