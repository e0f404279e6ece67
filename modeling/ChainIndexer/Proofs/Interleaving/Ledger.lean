import ChainIndexer.Proofs.Interleaving.Tending
import ChainIndexer.Proofs.Memory.Checks
import Mathlib.Data.List.Nodup

namespace ChainIndexer

open Memory (Database Table)

variable {ι : Type}

structure Ledger (ι : Type) where
  made : List ι
  hit : Option ι

namespace Ledger

def opened : Ledger ι := ⟨[], none⟩

def turnout [DecidableEq ι] (l : Ledger ι) (i : ι) : Turnout :=
  if l.hit = some i then .refused else if i ∈ l.made then .made else .untried

def make (l : Ledger ι) (i : ι) : Ledger ι := { l with made := l.made ++ [i] }

def strike (l : Ledger ι) (i : ι) : Ledger ι := { l with hit := some i }

variable {l : Ledger ι} {i j : ι}

section

variable [DecidableEq ι]

theorem turnout_eq_untried : l.turnout i = .untried ↔ l.hit ≠ some i ∧ i ∉ l.made := by
  rw [turnout]
  split
  · simp [*]
  · split <;> simp [*]

theorem turnout_eq_refused : l.turnout i = .refused ↔ l.hit = some i := by
  rw [turnout]
  split
  · simp [*]
  · split <;> simp [*]

theorem turnout_eq_made : l.turnout i = .made ↔ l.hit ≠ some i ∧ i ∈ l.made := by
  rw [turnout]
  split
  · simp [*]
  · split <;> simp [*]

theorem turnout_make_self (h : l.turnout i = .untried) : (l.make i).turnout i = .made := by
  simp [turnout, make, (turnout_eq_untried.mp h).1]

theorem turnout_make_of_ne (h : j ≠ i) : (l.make i).turnout j = l.turnout j := by
  simp [turnout, make, h]

theorem turnout_strike_self : (l.strike i).turnout i = .refused := by simp [turnout, strike]

theorem turnout_strike_of_ne (h : j ≠ i) (hclean : l.hit = none) :
    (l.strike i).turnout j = l.turnout j := by
  have hstruck : (l.strike i).hit ≠ some j := fun he => h (Option.some.inj he).symm
  have hspared : l.hit ≠ some j := by rw [hclean]; nofun
  rw [turnout, if_neg hstruck, turnout, if_neg hspared]
  rfl

end

structure Accounts (start : Database) (l : Ledger ι) (db : Database) : Prop where
  frame : db = { start with
    tables := db.tables
    failCommitAfter := db.failCommitAfter
    commits := start.commits + l.made.length }
  nodup : l.made.Nodup
  clean : l.hit = none → db.failCommitAfter = start.failCommitAfter.map (· - l.made.length) ∧
    ∀ n, start.failCommitAfter = some n → l.made.length ≤ n
  struck : ∀ i, l.hit = some i → i ∉ l.made ∧ db.failCommitAfter = none ∧
    ∃ n, start.failCommitAfter = some n ∧ n ≤ l.made.length

variable {start db : Database}

theorem accounts_opened (start : Database) : (opened : Ledger ι).Accounts start start := by
  refine ⟨rfl, List.nodup_nil, fun _ => ⟨?_, fun n _ => Nat.zero_le n⟩, nofun⟩
  cases start.failCommitAfter <;> rfl

theorem Accounts.putTable (h : l.Accounts start db) (name : String) (t : Table) :
    l.Accounts start (db.putTable name t) :=
  ⟨by rw [h.frame]; rfl, h.nodup, h.clean, h.struck⟩

theorem Accounts.make [DecidableEq ι] (h : l.Accounts start db) (hi : l.turnout i = .untried)
    (hallowed : db.failCommitAfter ≠ some 0) : (l.make i).Accounts start { db with
      failCommitAfter := db.failCommitAfter.map (· - 1), commits := db.commits + 1 } := by
  have hlength : (l.make i).made.length = l.made.length + 1 := List.length_append
  refine ⟨?_, ?_, fun hclean => ?_, fun j hj => ?_⟩
  · rw [hlength, h.frame]
    rfl
  · refine List.nodup_append.mpr ⟨h.nodup, List.nodup_singleton i, fun a ha b hb => ?_⟩
    rw [List.mem_singleton.mp hb]
    rintro rfl
    exact (turnout_eq_untried.mp hi).2 ha
  · obtain ⟨hcount, hle⟩ := h.clean hclean
    rw [hcount] at hallowed ⊢
    cases hfail : start.failCommitAfter with
    | none => exact ⟨rfl, nofun⟩
    | some n =>
      rw [hfail] at hallowed
      have hroom : l.made.length + 1 ≤ n := by
        have := hle n hfail
        have : n - l.made.length ≠ 0 := fun he => hallowed (congrArg some he)
        omega
      refine ⟨?_, ?_⟩
      · rw [hlength]
        rfl
      · rintro _ ⟨⟩
        exact hlength ▸ hroom
  · obtain ⟨hout, hnone, n, hn, hle⟩ := h.struck j hj
    refine ⟨fun hin => ?_, by rw [hnone]; rfl, n, hn, by rw [hlength]; omega⟩
    obtain hin | hin := List.mem_append.mp hin
    · exact hout hin
    · exact (turnout_eq_untried.mp hi).1 (List.mem_singleton.mp hin ▸ hj)

theorem Accounts.strike [DecidableEq ι] (h : l.Accounts start db) (hi : l.turnout i = .untried)
    (hdue : db.failCommitAfter = some 0) :
    l.hit = none ∧ (l.strike i).Accounts start { db with failCommitAfter := none } := by
  have hclean : l.hit = none := by
    cases hhit : l.hit with
    | none => rfl
    | some j =>
      rw [(h.struck j hhit).2.1] at hdue
      cases hdue
  refine ⟨hclean, by rw [h.frame]; rfl, h.nodup, nofun, fun j hj => ⟨?_, rfl, ?_⟩⟩
  · exact Option.some.inj hj ▸ (turnout_eq_untried.mp hi).2
  · rw [(h.clean hclean).1] at hdue
    obtain ⟨n, hn, hzero⟩ := Option.map_eq_some_iff.mp hdue
    exact ⟨n, hn, Nat.le_of_sub_eq_zero hzero⟩

end Ledger

end ChainIndexer
