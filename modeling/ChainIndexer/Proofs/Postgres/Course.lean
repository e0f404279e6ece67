import ChainIndexer.Postgres.Session
import Mathlib.Data.List.Infix
import Mathlib.Logic.Function.Basic

namespace ChainIndexer

namespace Statement

def Leads (front sql : String) : Prop := front.toList <+: sql.toList

instance (front sql : String) : Decidable (Leads front sql) :=
  inferInstanceAs (Decidable (_ <+: _))

theorem Leads.append {front sql : String} (h : Leads front sql) (rest : String) :
    Leads front (sql ++ rest) := by
  rw [Leads, String.toList_append]
  exact h.trans (List.prefix_append _ _)

theorem leads_append (front rest : String) : Leads front (front ++ rest) :=
  Leads.append (List.prefix_rfl) rest

def Standalone (sql : String) : Prop := Leads "SELECT " sql ∨ Leads "CREATE TABLE " sql

end Statement

namespace Postgres

open Statement (Leads Standalone)

namespace Sent

def Opens (s : Sent) : Prop := s.sending = .batch ∧ ∃ millis, s.sql = Statement.beginUnit millis

def Ends (s : Sent) : Prop := s.sending = .batch ∧ (s.sql = "COMMIT" ∨ s.sql = "ROLLBACK")

def Plain (s : Sent) : Prop := ¬s.Opens ∧ ¬s.Ends

def agreed (s : Sent) : Bool :=
  match s.reply with
  | .rows _ _ => true
  | _ => false

theorem Opens.leads {s : Sent} (h : s.Opens) : Leads "BEGIN; " s.sql := by
  obtain ⟨-, millis, sql⟩ := h
  rw [sql]
  exact Statement.leads_append _ _

theorem Ends.not_opens {s : Sent} (h : s.Ends) : ¬s.Opens := by
  intro opens
  have leads := opens.leads
  obtain ⟨-, sql | sql⟩ := h <;> rw [sql] at leads <;> exact absurd leads (by decide)

theorem plain_of_prepared {s : Sent} {ps : List Parameter} (h : s.sending = .prepared ps) :
    s.Plain := by
  simp [Plain, Opens, Ends, h]

theorem plain_of_leads {s : Sent} {front : String} (h : Leads front s.sql)
    (other : ∀ t ∈ ["BEGIN; ", "COMMIT", "ROLLBACK"],
      ¬Leads t front ∧ ¬Leads front t) : s.Plain := by
  have apart : ∀ t ∈ ["BEGIN; ", "COMMIT", "ROLLBACK"], ¬Leads t s.sql := by
    intro t ht leads
    rcases List.prefix_or_prefix_of_prefix leads h with both | both
    · exact (other t ht).1 both
    · exact (other t ht).2 both
  constructor
  · intro opens
    exact apart "BEGIN; " (by simp) opens.leads
  · rintro ⟨-, sql | sql⟩
    · exact apart "COMMIT" (by simp) (sql ▸ List.prefix_rfl)
    · exact apart "ROLLBACK" (by simp) (sql ▸ List.prefix_rfl)

end Sent

structure Entry where
  owner : Option Nat
  sent : Sent
  deriving DecidableEq, Repr

namespace Entry

variable (log : List Entry)

def ofUnit (u : Nat) : List Entry := log.filter (·.owner = some u)

def on (c : Nat) : List Entry := log.filter (·.sent.connection = c)

def ofUnitsOn (c : Nat) : List Entry :=
  log.filter fun e => e.sent.connection = c ∧ e.owner.isSome

def Settled (c : Nat) : Prop := ∀ e ∈ (ofUnitsOn log c).getLast?, e.sent.Ends ∧ e.sent.agreed

variable {log}

theorem ofUnit_concat_self {e : Entry} {u : Nat} (h : e.owner = some u) :
    ofUnit (log ++ [e]) u = ofUnit log u ++ [e] := by
  simp [ofUnit, h]

theorem ofUnit_concat_other {e : Entry} {u : Nat} (h : e.owner ≠ some u) :
    ofUnit (log ++ [e]) u = ofUnit log u := by
  simp [ofUnit, h]

theorem on_concat_self {e : Entry} {c : Nat} (h : e.sent.connection = c) :
    on (log ++ [e]) c = on log c ++ [e] := by
  simp [on, h]

theorem on_concat_other {e : Entry} {c : Nat} (h : e.sent.connection ≠ c) :
    on (log ++ [e]) c = on log c := by
  simp [on, h]

theorem on_extends (log : List Entry) (e : Entry) (c : Nat) :
    on log c <+: on (log ++ [e]) c := by
  simp [on]

theorem ofUnit_eq_nil {u : Nat} (h : ∀ e ∈ log, e.owner ≠ some u) : ofUnit log u = [] := by
  simpa [ofUnit] using h

theorem Settled.concat {e : Entry} {c : Nat} (h : Settled log c)
    (other : e.sent.connection = c → e.owner = none) : Settled (log ++ [e]) c := by
  have same : ofUnitsOn (log ++ [e]) c = ofUnitsOn log c := by
    by_cases hc : e.sent.connection = c
    · simp [ofUnitsOn, other hc]
    · simp [ofUnitsOn, hc]
  rwa [Settled, same]

theorem Settled.of_end (log : List Entry) {e : Entry} (owned : e.owner.isSome)
    (ends : e.sent.Ends) (agreed : e.sent.agreed) : Settled (log ++ [e]) e.sent.connection := by
  intro x hx
  have last : (ofUnitsOn (log ++ [e]) e.sent.connection).getLast? = some e := by
    simp [ofUnitsOn, owned]
  rw [last] at hx
  cases hx
  exact ⟨ends, agreed⟩

theorem concat_eq_append {log before after : List Entry} {x e : Entry}
    (h : log ++ [x] = before ++ e :: after) :
    (log = before ∧ x = e) ∨ ∃ rest, log = before ++ e :: rest := by
  rcases List.eq_nil_or_concat after with rfl | ⟨rest, y, rfl⟩
  · left
    simpa using List.append_inj' h rfl
  · right
    have split : log ++ [x] = (before ++ e :: rest) ++ [y] := by simpa using h
    exact ⟨rest, (List.append_inj' split rfl).1⟩

end Entry

inductive Standing where
  | free
  | busy (u : Nat)
  | lost
  deriving DecidableEq, Repr

open Function (update update_of_ne update_self)

inductive Course : List Entry → (Nat → Standing) → Prop
  | start : Course [] fun _ => .free
  | apart {log st e} (h : Course log st) (owner : e.owner = none) (alone : Standalone e.sent.sql)
      (free : st e.sent.connection = .free) : Course (log ++ [e]) st
  | opens {log st e u} (h : Course log st) (owner : e.owner = some u)
      (fresh : ∀ x ∈ log, x.owner ≠ some u) (opens : e.sent.Opens)
      (free : st e.sent.connection = .free) :
      Course (log ++ [e])
        (update st e.sent.connection (if e.sent.agreed then .busy u else .lost))
  | tells {log st e u} (h : Course log st) (owner : e.owner = some u) (plain : e.sent.Plain)
      (busy : st e.sent.connection = .busy u) : Course (log ++ [e]) st
  | ends {log st e u} (h : Course log st) (owner : e.owner = some u) (ends : e.sent.Ends)
      (busy : st e.sent.connection = .busy u) :
      Course (log ++ [e]) (update st e.sent.connection (if e.sent.agreed then .free else .lost))
  | loses {log st c u} (h : Course log st) (busy : st c = .busy u) :
      Course log (update st c .lost)

namespace Course

open Entry

variable {log : List Entry} {st : Nat → Standing}

theorem settled (h : Course log st) {c : Nat} (free : st c = .free) : Settled log c := by
  induction h with
  | start => simp [Settled, ofUnitsOn]
  | apart _ owner _ _ ih => exact (ih free).concat fun _ => owner
  | @opens _ st e _ _ _ _ _ _ ih =>
      rcases eq_or_ne c e.sent.connection with rfl | hc
      · cases ha : e.sent.agreed <;> simp [ha] at free
      · rw [update_of_ne hc] at free
        exact (ih free).concat fun h => absurd h.symm hc
  | @tells _ st e _ _ _ _ busy ih =>
      apply (ih free).concat
      intro h
      rw [← h, busy] at free
      cases free
  | @ends _ st e _ _ owner ends _ ih =>
      rcases eq_or_ne c e.sent.connection with rfl | hc
      · cases ha : e.sent.agreed with
        | true => exact .of_end _ (by simp [owner]) ends ha
        | false => simp [ha] at free
      · rw [update_of_ne hc] at free
        exact (ih free).concat fun h => absurd h.symm hc
  | @loses _ st a _ _ _ ih =>
      rcases eq_or_ne c a with rfl | hc
      · simp at free
      · rw [update_of_ne hc] at free
        exact ih free

theorem standalone (h : Course log st) : ∀ e ∈ log, e.owner = none → Standalone e.sent.sql := by
  induction h with
  | start => simp
  | apart _ _ alone _ ih =>
      intro x hx owner
      rcases List.mem_append.1 hx with hx | hx
      · exact ih x hx owner
      · obtain rfl := List.mem_singleton.1 hx
        exact alone
  | opens _ owned _ _ _ ih | tells _ owned _ _ ih | ends _ owned _ _ ih =>
      intro x hx owner
      rcases List.mem_append.1 hx with hx | hx
      · exact ih x hx owner
      · obtain rfl := List.mem_singleton.1 hx
        simp [owned] at owner
  | loses _ _ ih => exact ih

theorem settled_before (h : Course log st) {before after : List Entry} {e : Entry}
    (split : log = before ++ e :: after) (entering : e.owner = none ∨ e.sent.Opens) :
    Settled before e.sent.connection := by
  induction h generalizing after with
  | start => simp at split
  | apart h _ _ free ih =>
      obtain ⟨rfl, rfl⟩ | ⟨rest, hl⟩ := concat_eq_append split
      · exact h.settled free
      · exact ih hl
  | opens h _ _ _ free ih =>
      obtain ⟨rfl, rfl⟩ | ⟨rest, hl⟩ := concat_eq_append split
      · exact h.settled free
      · exact ih hl
  | tells _ owner plain _ ih =>
      obtain ⟨rfl, rfl⟩ | ⟨rest, hl⟩ := concat_eq_append split
      · simp [owner, plain.1] at entering
      · exact ih hl
  | ends _ owner ends _ ih =>
      obtain ⟨rfl, rfl⟩ | ⟨rest, hl⟩ := concat_eq_append split
      · simp [owner, ends.not_opens] at entering
      · exact ih hl
  | loses _ _ ih => exact ih split

end Course

structure Sequel (sent : List Entry) (first : Entry) (mids last : List Entry) : Prop where
  parts : sent = first :: (mids ++ last)
  opens : first.sent.Opens
  agreed : mids ++ last = [] ∨ first.sent.agreed
  mids : ∀ e ∈ mids, e.sent.Plain
  last : last = [] ∨ ∃ e, last = [e] ∧ e.sent.Ends

inductive Progress (log : List Entry) (u : Nat) (holds gone : Nat → Prop) : Prop
  | unsent (none : Entry.ofUnit log u = []) (idle : ∀ c, ¬holds c)
  | running (c : Nat) (first : Entry) (mids : List Entry)
      (sequel : Sequel (Entry.ofUnit log u) first mids [])
      (place : Entry.ofUnit log u <:+ Entry.on log c) (agreed : first.sent.agreed)
      (one : ∀ a, holds a ↔ a = c)
  | ended (c : Nat) (first : Entry) (mids last : List Entry)
      (sequel : Sequel (Entry.ofUnit log u) first mids last)
      (place : Entry.ofUnit log u <:+: Entry.on log c)
      (outcome : (∃ e, last = [e] ∧ e.sent.agreed) ∨ gone c) (idle : ∀ c, ¬holds c)

namespace Progress

open Entry

variable {log : List Entry} {u : Nat} {holds gone holds' gone' : Nat → Prop}

theorem map (h : Progress log u holds gone) (hh : ∀ c, holds' c ↔ holds c)
    (hg : ∀ c, gone c → gone' c) : Progress log u holds' gone' := by
  cases h with
  | unsent none idle => exact .unsent none fun c h => idle c ((hh c).1 h)
  | running c first mids sequel place agreed one =>
      exact .running c first mids sequel place agreed fun a => (hh a).trans (one a)
  | ended c first mids last sequel place outcome idle =>
      exact .ended c first mids last sequel place (outcome.imp_right (hg c))
        fun c h => idle c ((hh c).1 h)

theorem concat_other {e : Entry} (h : Progress log u holds gone) (owner : e.owner ≠ some u)
    (apart : ¬holds e.sent.connection) : Progress (log ++ [e]) u holds gone := by
  have same : ofUnit (log ++ [e]) u = ofUnit log u := ofUnit_concat_other owner
  cases h with
  | unsent none idle => exact .unsent (same.trans none) idle
  | running c first mids sequel place agreed one =>
      have elsewhere : e.sent.connection ≠ c := fun h => apart ((one _).2 h)
      apply Progress.running c first mids (same ▸ sequel) _ agreed one
      rwa [same, on_concat_other elsewhere]
  | ended c first mids last sequel place outcome idle =>
      apply Progress.ended c first mids last (same ▸ sequel) _ outcome idle
      rw [same]
      exact place.trans (on_extends log e c).isInfix

theorem concat_first {e : Entry} (h : Progress log u holds gone) (owner : e.owner = some u)
    (fresh : ∀ x ∈ log, x.owner ≠ some u) (opens : e.sent.Opens) :
    (∀ c, ¬holds c) ∧ Sequel (ofUnit (log ++ [e]) u) e [] [] ∧
      ofUnit (log ++ [e]) u <:+ on (log ++ [e]) e.sent.connection := by
  have empty := ofUnit_eq_nil fresh
  have only : ofUnit (log ++ [e]) u = [e] := by rw [ofUnit_concat_self owner, empty]; rfl
  have idle : ∀ c, ¬holds c := by
    cases h with
    | unsent _ idle => exact idle
    | running _ _ _ sequel => simp [empty] at sequel; simpa using sequel.parts
    | ended _ _ _ _ _ _ _ idle => exact idle
  refine ⟨idle, ⟨by simp [only], opens, .inl rfl, by simp, .inl rfl⟩, ?_⟩
  rw [only, on_concat_self rfl]
  exact List.suffix_append _ _

theorem concat_next {e : Entry} (h : Progress log u holds gone) (owner : e.owner = some u)
    (held : holds e.sent.connection) :
    ∃ first mids, Sequel (ofUnit log u) first mids [] ∧ first.sent.agreed ∧
      ofUnit (log ++ [e]) u <:+ on (log ++ [e]) e.sent.connection ∧
      ∀ a, holds a ↔ a = e.sent.connection := by
  cases h with
  | unsent _ idle => exact absurd held (idle _)
  | ended _ _ _ _ _ _ _ idle => exact absurd held (idle _)
  | running c first mids sequel place agreed one =>
      obtain rfl := (one _).1 held
      refine ⟨first, mids, sequel, agreed, ?_, one⟩
      rw [ofUnit_concat_self owner, on_concat_self rfl]
      obtain ⟨front, eq⟩ := place
      exact ⟨front, by rw [← eq, List.append_assoc]⟩

theorem restand {st : Nat → Standing} {c : Nat} {x : Standing}
    (h : Progress log u (st · = .busy u) (st · = .lost)) (apart : st c ≠ .busy u)
    (kept : st c ≠ .lost) (other : x ≠ .busy u) :
    Progress log u (update st c x · = .busy u) (update st c x · = .lost) := by
  apply h.map
  · intro a
    rcases eq_or_ne a c with rfl | ne
    · simp [apart, other]
    · simp [update_of_ne ne]
  · intro a lost
    rcases eq_or_ne a c with rfl | ne
    · exact absurd lost kept
    · simpa [update_of_ne ne] using lost

end Progress

namespace Course

open Entry

variable {log : List Entry} {st : Nat → Standing}

theorem progress (h : Course log st) (u : Nat) :
    Progress log u (fun c => st c = .busy u) (fun c => st c = .lost) := by
  induction h with
  | start => exact .unsent rfl (by simp)
  | apart _ owner _ free ih => exact ih.concat_other (by simp [owner]) (by simp [free])
  | @opens _ st e v _ owner fresh opens free ih =>
      rcases eq_or_ne v u with rfl | hv
      · obtain ⟨idle, sequel, place⟩ := ih.concat_first owner fresh opens
        cases ha : e.sent.agreed with
        | true =>
            apply Progress.running e.sent.connection e [] sequel place ha
            intro a
            rcases eq_or_ne a e.sent.connection with rfl | hc
            · simp
            · simp [hc, idle a]
        | false =>
            apply Progress.ended e.sent.connection e [] [] sequel place.isInfix (.inr (by simp))
            intro a
            rcases eq_or_ne a e.sent.connection with rfl | hc
            · simp
            · simp [update_of_ne hc, idle a]
      · have same := ih.concat_other (e := e) (by simp [owner, hv]) (by simp [free])
        exact same.restand (by simp [free]) (by simp [free]) (by split <;> simp [hv])
  | @tells _ st e v _ owner plain busy ih =>
      rcases eq_or_ne v u with rfl | hv
      · obtain ⟨first, mids, sequel, agreed, place, one⟩ := ih.concat_next owner busy
        refine .running _ first (mids ++ [e]) ⟨?_, sequel.opens, .inr agreed, ?_, .inl rfl⟩ place
          agreed one
        · simp [ofUnit_concat_self owner, sequel.parts]
        · intro x hx
          rcases List.mem_append.1 hx with hx | hx
          · exact sequel.mids x hx
          · obtain rfl := List.mem_singleton.1 hx
            exact plain
      · exact ih.concat_other (by simp [owner, hv]) (by simp [busy, hv])
  | @ends _ st e v _ owner ends busy ih =>
      rcases eq_or_ne v u with rfl | hv
      · obtain ⟨first, mids, sequel, agreed, place, one⟩ := ih.concat_next owner busy
        refine .ended e.sent.connection first mids [e]
          ⟨?_, sequel.opens, .inr agreed, sequel.mids, .inr ⟨e, rfl, ends⟩⟩ place.isInfix ?_ ?_
        · simp [ofUnit_concat_self owner, sequel.parts]
        · cases ha : e.sent.agreed with
          | true => exact .inl ⟨e, rfl, ha⟩
          | false => exact .inr (by simp)
        · intro a
          rcases eq_or_ne a e.sent.connection with rfl | hc
          · cases e.sent.agreed <;> simp
          · simpa [update_of_ne hc, hc] using one a
      · have same := ih.concat_other (e := e) (by simp [owner, hv]) (by simp [busy, hv])
        exact same.restand (by simp [busy, hv]) (by simp [busy]) (by split <;> simp)
  | @loses _ st c v _ busy ih =>
      rcases eq_or_ne v u with rfl | hv
      · cases ih with
        | unsent _ idle => exact absurd busy (idle c)
        | ended _ _ _ _ _ _ _ idle => exact absurd busy (idle c)
        | running d first mids sequel place _ one =>
            obtain rfl := (one c).1 busy
            refine .ended c first mids [] sequel place.isInfix (.inr (by simp)) ?_
            intro a
            rcases eq_or_ne a c with rfl | hc
            · simp
            · simpa [update_of_ne hc, hc] using one a
      · exact ih.restand (by simp [busy, hv]) (by simp [busy]) (by simp)

end Course

end Postgres

end ChainIndexer
