import ChainIndexer.Proofs.Postgres.Dialogue
import Mathlib.Data.List.Nodup

namespace ChainIndexer.Postgres

open Function (update update_of_ne update_self update_idem update_eq_self)

inductive Call where
  | query (q : Store.Query)
  | ping
  | opening
  | command (u : Nat) (c : Store.Command)
  | ending (u : Nat) (e : Store.Ending)
  deriving DecidableEq, Repr

namespace Call

def owner (begun : Nat) : Call → Option Nat
  | .query _ => none
  | .ping => none
  | .opening => some begun
  | .command u _ => some u
  | .ending u _ => some u

def run (settings : Settings) (s : Session) : Call → Session
  | .query q => (s.access settings (.query q)).2
  | .ping => (s.ping settings).2
  | .opening => (s.access settings .opening).2
  | .command _ c => (s.access settings (.command c)).2
  | .ending _ e => (s.access settings (.ending e)).2

end Call

structure Pool where
  session : Session
  begun : Nat
  units : Nat → Option Nat
  log : List Entry

namespace Pool

def start (server : Server) : Pool := ⟨.start server, 0, fun _ => none, []⟩

def enter (p : Pool) (owner : Option Nat) : Session :=
  { p.session with unit := owner.bind p.units, sent := [] }

def leave (p : Pool) (owner : Option Nat) (s : Session) : Pool where
  session := s
  begun := p.begun
  units := match owner with
    | some u => update p.units u s.unit
    | none => p.units
  log := p.log ++ s.sent.map fun x => ⟨owner, x⟩

def step (settings : Settings) (p : Pool) (k : Call) : Pool :=
  let owner := k.owner p.begun
  let p' := p.leave owner (k.run settings (p.enter owner))
  { p' with begun := if k = .opening then p.begun + 1 else p.begun }

def run (settings : Settings) (calls : List Call) (p : Pool) : Pool :=
  calls.foldl (step settings) p

end Pool

structure Filed (hand : Option Nat) (s : Session) (units : Nat → Option Nat)
    (st : Nat → Standing) : Prop where
  idle : ∀ c ∈ s.idle, st c = .free
  apart : (s.idle ++ s.held).Nodup
  opened : ∀ c ∈ s.idle ++ s.held, c ≤ s.opened
  new : ∀ c, s.opened < c → st c = .free
  held : ∀ c, c ∈ s.held ↔ (∃ u, units u = some c) ∨ c ∈ hand
  units : ∀ u c, units u = some c ↔ st c = .busy u ∧ c ∉ hand
  lost : ∀ c, st c = .lost → c ∈ s.closed ∨ c ∈ hand

namespace Filed

variable {hand : Option Nat} {s t : Session} {units : Nat → Option Nat} {st : Nat → Standing}
  {c u : Nat}

theorem congr (h : Filed hand s units st) (idle : t.idle = s.idle) (held : t.held = s.held)
    (opened : s.opened ≤ t.opened) (closed : s.closed ⊆ t.closed) : Filed hand t units st where
  idle := idle ▸ h.idle
  apart := by rw [idle, held]; exact h.apart
  opened := by
    rw [idle, held]
    exact fun c hc => (h.opened c hc).trans opened
  new c hc := h.new c (opened.trans_lt hc)
  held := held ▸ h.held
  units := h.units
  lost c hc := (h.lost c hc).imp_left fun h => closed h

theorem hand_held (h : Filed (some c) s units st) : c ∈ s.held := (h.held c).2 (.inr rfl)

theorem hand_not_idle (h : Filed (some c) s units st) : c ∉ s.idle := by
  intro hc
  exact List.disjoint_of_nodup_append h.apart hc h.hand_held

theorem hand_not_unit (h : Filed (some c) s units st) : units u ≠ some c := by
  intro hc
  exact ((h.units u c).1 hc).2 rfl

theorem missed (h : Filed none s units st) (ht : Dialogue.Missed s t) : Filed none t units st := by
  obtain ⟨server, opened, clock, le⟩ := ht
  exact h.congr rfl rfl le (List.Subset.refl _)

theorem grasp (h : Filed none s units st) (free : st c = .free) (idle : t.idle ⊆ s.idle)
    (held : t.held = c :: s.held) (apart : (t.idle ++ t.held).Nodup)
    (opened : ∀ a ∈ t.idle ++ t.held, a ≤ t.opened) (grows : s.opened ≤ t.opened)
    (closed : t.closed = s.closed) : Filed (some c) t units st := by
  refine ⟨fun a ha => h.idle a (idle ha), apart, opened, fun a ha => h.new a (grows.trans_lt ha),
    ?_, ?_, ?_⟩
  · intro a
    rw [held, List.mem_cons, h.held]
    simp [eq_comm, or_comm]
  · intro u a
    rw [h.units]
    simp only [Option.mem_def, reduceCtorEq, not_false_eq_true, and_true, Option.some.injEq,
      iff_self_and]
    rintro busy rfl
    simp [free] at busy
  · intro a lost
    rw [closed]
    exact (h.lost a lost).imp_right (by simp)

theorem acquired (h : Filed none s units st) (ht : Dialogue.Acquired s c t) :
    Filed (some c) t units st ∧ st c = .free := by
  have apart := h.apart
  cases ht with
  | @reused _ rest waiting =>
      have free : st c = .free := h.idle c (by simp [waiting])
      rw [waiting] at apart
      refine ⟨h.grasp free ?_ rfl (List.nodup_middle.2 apart) ?_ (Nat.le_refl _) rfl, free⟩
      · rw [waiting]
        exact List.subset_cons_self _ _
      · intro a ha
        apply h.opened
        rw [waiting]
        simp only [List.mem_append, List.mem_cons] at ha ⊢
        tauto
  | opened server none =>
      have free := h.new (s.opened + 1) (Nat.lt_succ_self _)
      have fresh : s.opened + 1 ∉ s.held := by
        intro hc
        have := h.opened _ (List.mem_append_right _ hc)
        omega
      rw [none, List.nil_append] at apart
      refine ⟨h.grasp free (List.Subset.refl _) rfl ?_ ?_ (Nat.le_succ _) rfl, free⟩
      · simp [none, fresh, apart]
      · intro a ha
        have : a = s.opened + 1 ∨ a ≤ s.opened := by
          simp only [none, List.nil_append, List.mem_cons] at ha
          exact ha.imp_right fun ha => h.opened a (List.mem_append_right _ ha)
        show a ≤ s.opened + 1
        omega

theorem exists_update_iff (vacant : units u = none) (c a : Nat) :
    (∃ v, update units u (some c) v = some a) ↔ (∃ v, units v = some a) ∨ c = a := by
  constructor
  · rintro ⟨v, hv⟩
    rcases eq_or_ne v u with rfl | ne
    · rw [update_self] at hv
      exact .inr (Option.some.inj hv)
    · exact .inl ⟨v, by rwa [update_of_ne ne] at hv⟩
  · rintro (⟨v, hv⟩ | rfl)
    · have ne : v ≠ u := by
        rintro rfl
        simp [vacant] at hv
      exact ⟨v, by rwa [update_of_ne ne]⟩
    · exact ⟨u, update_self ..⟩

theorem takeBack (h : Filed none s units st) (hu : units u = some c) :
    Filed (some c) s (update units u none) st := by
  have busy : ∀ v a, units v = some a ↔ st a = .busy v := by simpa using h.units
  refine ⟨h.idle, h.apart, h.opened, h.new, ?_, ?_, ?_⟩
  · intro a
    have before := exists_update_iff (update_self u none units) c a
    rw [update_idem, ← hu, update_eq_self] at before
    rw [h.held, before]
    simp
  · intro v a
    rcases eq_or_ne v u with rfl | ne
    · simp only [update_self, reduceCtorEq, false_iff, not_and, not_not]
      intro ha
      exact (hu.symm.trans ((busy v a).2 ha))
    · rw [update_of_ne ne, busy]
      simp only [Option.mem_def, Option.some.injEq, iff_self_and]
      rintro ha rfl
      have := ha.symm.trans ((busy u c).1 hu)
      exact ne (by simpa using this)
  · intro a lost
    exact (h.lost a lost).imp_right (by simp)

theorem stand (h : Filed (some c) s units st) (x : Standing) :
    Filed (some c) s units (update st c x) := by
  have elsewhere : ∀ {a}, a ≠ c → update st c x a = st a := fun ne => update_of_ne ne _ _
  refine ⟨?_, h.apart, h.opened, ?_, h.held, ?_, ?_⟩
  · intro a ha
    rw [elsewhere (ne_of_mem_of_not_mem ha h.hand_not_idle)]
    exact h.idle a ha
  · intro a ha
    have := h.opened c (List.mem_append_right _ h.hand_held)
    rw [elsewhere (by omega)]
    exact h.new a ha
  · intro v a
    rcases eq_or_ne a c with rfl | ne
    · simp [h.hand_not_unit]
    · rw [elsewhere ne, h.units]
  · intro a lost
    rcases eq_or_ne a c with rfl | ne
    · exact .inr rfl
    · exact h.lost a (by rwa [elsewhere ne] at lost)

theorem give (h : Filed (some c) s units st) (busy : st c = .busy u) (vacant : units u = none) :
    Filed none s (update units u (some c)) st := by
  refine ⟨h.idle, h.apart, h.opened, h.new, ?_, ?_, ?_⟩
  · intro a
    rw [h.held, exists_update_iff vacant]
    simp
  · intro v a
    have known := h.units v a
    rcases eq_or_ne v u with rfl | ne
    · simp only [update_self, Option.some.injEq]
      rcases eq_or_ne c a with rfl | ca
      · simp [busy]
      · simpa [vacant, ca] using known
    · rw [update_of_ne ne, known]
      rcases eq_or_ne c a with rfl | ca
      · simp [busy, ne.symm]
      · simp [ca]
  · intro a lost
    apply (h.lost a lost).imp_right
    rintro ⟨⟩
    simp [busy] at lost

theorem out_of_hand (h : Filed (some c) s units st) (a : Nat) :
    a ∈ s.held.erase c ↔ (∃ u, units u = some a) ∨ a ∈ (none : Option Nat) := by
  have nodup : s.held.Nodup := h.apart.of_append_right
  rw [nodup.mem_erase_iff, h.held]
  simp only [Option.mem_def, Option.some.injEq, reduceCtorEq, or_false]
  constructor
  · rintro ⟨ne, ⟨u, hu⟩ | rfl⟩
    · exact ⟨u, hu⟩
    · exact absurd rfl ne
  · rintro ⟨u, hu⟩
    exact ⟨fun e => h.hand_not_unit (e ▸ hu), .inl ⟨u, hu⟩⟩

theorem units_of_hand (h : Filed (some c) s units st) (still : ∀ u, st c ≠ .busy u) (u a : Nat) :
    units u = some a ↔ st a = .busy u ∧ a ∉ (none : Option Nat) := by
  rw [h.units]
  simp only [Option.mem_def, Option.some.injEq, reduceCtorEq, not_false_eq_true, and_true,
    and_iff_left_iff_imp]
  rintro busy rfl
  exact still u busy

theorem release (h : Filed (some c) s units st) (free : st c = .free) :
    Filed none (s.release c) units st := by
  have still : ∀ u, st c ≠ .busy u := by simp [free]
  have lost : ∀ a, st a = .lost → a ∈ s.closed ∨ a ∈ (none : Option Nat) := by
    intro a ha
    apply (h.lost a ha).imp_right
    rintro ⟨⟩
    simp [free] at ha
  have fewer : (s.idle ++ s.held.erase c).Sublist (s.idle ++ s.held) :=
    List.erase_sublist.append_left _
  simp only [Session.release]
  split
  · exact ⟨h.idle, h.apart.sublist fewer, fun a ha => h.opened a (fewer.subset ha), h.new,
      h.out_of_hand, h.units_of_hand still, lost⟩
  · have back : (s.idle ++ [c] ++ s.held.erase c).Perm (s.idle ++ s.held) := by
      rw [List.append_assoc]
      exact (List.perm_cons_erase h.hand_held).symm.append_left s.idle
    refine ⟨?_, back.nodup_iff.2 h.apart, fun a ha => h.opened a (back.subset ha), h.new,
      h.out_of_hand, h.units_of_hand still, lost⟩
    intro a ha
    rcases List.mem_append.1 ha with ha | ha
    · exact h.idle a ha
    · obtain rfl := List.mem_singleton.1 ha
      exact free

theorem discard (h : Filed (some c) s units st) (still : ∀ u, st c ≠ .busy u) :
    Filed none (s.discard c) units st := by
  have fewer : (s.idle ++ s.held.erase c).Sublist (s.idle ++ s.held) :=
    List.erase_sublist.append_left _
  refine ⟨h.idle, h.apart.sublist fewer, fun a ha => h.opened a (fewer.subset ha), h.new,
    h.out_of_hand, h.units_of_hand still, ?_⟩
  intro a lost
  left
  rcases h.lost a lost with ha | ha
  · exact List.mem_cons_of_mem _ ha
  · obtain rfl := Option.mem_some.1 ha
    exact List.mem_cons_self

end Filed

namespace Pool

def Sound (hand : Option Nat) (p : Pool) (st : Nat → Standing) : Prop :=
  Course p.log st ∧ Filed hand p.session p.units st

variable {p : Pool} {owner : Option Nat} {s t : Session} {st : Nat → Standing} {c u : Nat}
  {sql : String} {sending : Sending}

theorem sound_start (server : Server) : Sound none (.start server) fun _ => .free :=
  ⟨.start, by simp [start, Session.start], by simp [start, Session.start],
    by simp [start, Session.start], fun _ _ => rfl, by simp [start, Session.start],
    by simp [start], by simp⟩

theorem log_leave {x : Sent} (h : t.sent = s.sent ++ [x]) :
    (p.leave owner t).log = (p.leave owner s).log ++ [⟨owner, x⟩] := by
  simp [leave, h]

theorem send_logs {r : Response} (owner : Option Nat) (h : (r, t) = s.send c sql sending) :
    t.unit = s.unit ∧ (∀ hand units st, Filed hand s units st → Filed hand t units st) ∧
      ((r.agreed = false ∧ t.sent = s.sent) ∨
        ∃ reply, (⟨c, sql, sending, reply⟩ : Sent).agreed = r.agreed ∧
          (p.leave owner t).log =
            (p.leave owner s).log ++ [⟨owner, ⟨c, sql, sending, reply⟩⟩]) := by
  rcases Session.send_cases h with ⟨rfl, refused⟩ | answered
  · exact ⟨rfl, fun _ _ _ h => h, .inl ⟨refused, rfl⟩⟩
  · obtain ⟨reply, server, closed, silent, rfl, grows, agreed⟩ := answered
    refine ⟨rfl, fun _ _ _ h => h.congr rfl rfl (Nat.le_refl _) grows, .inr ⟨reply, agreed, ?_⟩⟩
    exact log_leave rfl

theorem apart_sound {r : Response} (alone : Statement.Standalone sql) (free : st c = .free)
    (h : Sound (some c) (p.leave none s) st) (sent : (r, t) = s.send c sql sending) :
    Sound (some c) (p.leave none t) st := by
  obtain ⟨unit, kept, ⟨-, same⟩ | ⟨reply, -, log⟩⟩ := send_logs (p := p) none sent
  · exact ⟨by simpa only [leave, same] using h.1, kept _ _ _ h.2⟩
  · refine ⟨?_, kept _ _ _ h.2⟩
    rw [log]
    exact h.1.apart rfl alone free

theorem tells_sound {r : Response} (plain : Dialogue.Unremarkable sql sending)
    (hc : s.unit = some c) (h : Sound none (p.leave (some u) s) st)
    (sent : (r, t) = s.send c sql sending) : Sound none (p.leave (some u) t) st := by
  have busy : st c = .busy u := ((h.2.units u c).1 (by simp [leave, hc])).1
  obtain ⟨unit, kept, ⟨-, same⟩ | ⟨reply, -, log⟩⟩ := send_logs (p := p) (some u) sent
  · refine ⟨by simpa only [leave, same] using h.1, ?_⟩
    simpa only [leave, unit] using kept _ _ _ h.2
  · refine ⟨?_, by simpa only [leave, unit] using kept _ _ _ h.2⟩
    rw [log]
    exact h.1.tells rfl (plain c reply) busy

theorem discard_sound (still : ∀ u, st c ≠ .busy u) (h : Sound (some c) (p.leave owner s) st) :
    Sound none (p.leave owner (s.discard c)) st := ⟨h.1, h.2.discard still⟩

theorem release_sound (free : st c = .free) (h : Sound (some c) (p.leave owner s) st) :
    Sound none (p.leave owner (s.release c)) st := by
  have same : (s.release c).sent = s.sent ∧ (s.release c).unit = s.unit := by
    simp only [Session.release]
    split <;> exact ⟨rfl, rfl⟩
  refine ⟨?_, ?_⟩
  · simpa only [leave, same.1] using h.1
  · have filed := h.2.release free
    cases owner <;> simpa only [leave, same.2] using filed

theorem acquired_sound (acquired : Dialogue.Acquired s c t) (h : Sound none (p.leave owner s) st) :
    Sound (some c) (p.leave owner t) st ∧ st c = .free := by
  have same : t.sent = s.sent ∧ t.unit = s.unit := by cases acquired <;> exact ⟨rfl, rfl⟩
  obtain ⟨filed, free⟩ := h.2.acquired acquired
  refine ⟨⟨?_, ?_⟩, free⟩
  · simpa only [leave, same.1] using h.1
  · cases owner <;> simpa only [leave, same.2] using filed

theorem missed_sound (missed : Dialogue.Missed s t) (h : Sound none (p.leave owner s) st) :
    Sound none (p.leave owner t) st := by
  have filed := h.2.missed missed
  cases missed
  exact ⟨h.1, filed⟩

theorem borrows (p : Pool) :
    Dialogue.Borrows (fun s => ∃ st, Sound none (p.leave none s) st)
      (fun c s => ∃ st, Sound (some c) (p.leave none s) st ∧ st c = .free) where
  missed := by
    rintro s t ⟨st, h⟩ missed
    exact ⟨st, missed_sound missed h⟩
  acquired := by
    rintro s c t ⟨st, h⟩ acquired
    exact ⟨st, acquired_sound acquired h⟩
  sent := by
    rintro s c sql sending ⟨st, h, free⟩ alone
    exact ⟨st, apart_sound alone free h rfl, free⟩
  released := by
    rintro s c ⟨st, h, free⟩
    exact ⟨st, release_sound free h⟩

section

open Dialogue (Meets Acquired)

theorem give_sound (busy : st c = .busy u) (vacant : s.unit = none)
    (h : Sound (some c) (p.leave (some u) s) st) :
    Sound none (p.leave (some u) { s with unit := some c }) st := by
  have filed := h.2.give busy (by simp [leave, vacant])
  rw [leave, update_idem] at filed
  exact ⟨h.1, filed.congr rfl rfl (Nat.le_refl _) (List.Subset.refl _)⟩

theorem takeBack_sound (hc : s.unit = some c) (h : Sound none (p.leave (some u) s) st) :
    Sound (some c) (p.leave (some u) { s with unit := none }) st ∧ st c = .busy u := by
  have unit : (p.leave (some u) s).units u = some c := by simp [leave, hc]
  have filed := h.2.takeBack unit
  rw [leave, update_idem] at filed
  exact ⟨⟨h.1, filed.congr rfl rfl (Nat.le_refl _) (List.Subset.refl _)⟩,
    ((h.2.units u c).1 unit).1⟩

theorem begins_sound {r : Response} {millis : Nat} (vacant : s.unit = none) (free : st c = .free)
    (fresh : ∀ x ∈ (p.leave (some u) s).log, x.owner ≠ some u)
    (h : Sound (some c) (p.leave (some u) s) st)
    (sent : (r, t) = s.send c (Statement.beginUnit millis) .batch) :
    t.unit = none ∧ ∃ st', Sound (some c) (p.leave (some u) t) st' ∧
      (r.agreed = true → st' c = .busy u) ∧ (r.agreed = false → ∀ v, st' c ≠ .busy v) := by
  obtain ⟨unit, kept, outcome⟩ := send_logs (p := p) (some u) sent
  have filed : Filed (some c) t (p.leave (some u) t).units st := by
    simpa only [leave, unit] using kept _ _ _ h.2
  refine ⟨unit.trans vacant, ?_⟩
  rcases outcome with ⟨refused, same⟩ | ⟨reply, agreed, log⟩
  · refine ⟨st, ⟨by simpa only [leave, same] using h.1, filed⟩, ?_, ?_⟩
    · simp [refused]
    · simp [free]
  · refine ⟨_, ⟨?_, filed.stand (if r.agreed then .busy u else .lost)⟩, ?_, ?_⟩
    · rw [log, ← agreed]
      exact h.1.opens rfl fresh ⟨rfl, millis, rfl⟩ free
    · intro ok
      simp [ok]
    · intro refused
      simp [refused]

theorem ends_sound {r : Response} (busy : st c = .busy u) (ends : sql = "COMMIT" ∨ sql = "ROLLBACK")
    (h : Sound (some c) (p.leave (some u) s) st) (sent : (r, t) = s.send c sql .batch) :
    t.unit = s.unit ∧ ∃ st', Sound (some c) (p.leave (some u) t) st' ∧
      (r.agreed = true → st' c = .free) ∧ (r.agreed = false → ∀ v, st' c ≠ .busy v) := by
  obtain ⟨unit, kept, outcome⟩ := send_logs (p := p) (some u) sent
  have filed : Filed (some c) t (p.leave (some u) t).units st := by
    simpa only [leave, unit] using kept _ _ _ h.2
  refine ⟨unit, ?_⟩
  rcases outcome with ⟨refused, same⟩ | ⟨reply, agreed, log⟩
  · refine ⟨_, ⟨?_, filed.stand .lost⟩, ?_, ?_⟩
    · simpa only [leave, same] using h.1.loses busy
    · simp [refused]
    · simp
  · refine ⟨_, ⟨?_, filed.stand (if r.agreed then .free else .lost)⟩, ?_, ?_⟩
    · rw [log, ← agreed]
      exact h.1.ends rfl ⟨rfl, ends⟩ busy
    · intro ok
      simp [ok]
    · intro refused
      simp [refused]

theorem opening_sound (settings : Settings) (vacant : s.unit = none)
    (fresh : ∀ x ∈ (p.leave (some u) s).log, x.owner ≠ some u)
    (h : Sound none (p.leave (some u) s) st) :
    Meets (· = s) (Dialogue.openUnit settings) (fun _ t => ∃ st, Sound none (p.leave (some u) t) st)
      (fun t => ∃ st, Sound none (p.leave (some u) t) st) := by
  have first : Meets (· = s) (Dialogue.acquire settings) (Acquired s)
      (fun t => ∃ st, Sound none (p.leave (some u) t) st) :=
    (Dialogue.acquire_meets settings s).mono (fun _ _ h => h)
      fun t missed => ⟨st, missed_sound missed h⟩
  apply Meets.bind first
  intro c t acquired
  have same : t.sent = s.sent ∧ t.unit = none := by cases acquired <;> exact ⟨rfl, vacant⟩
  obtain ⟨held, free⟩ := acquired_sound acquired h
  have fresh : ∀ x ∈ (p.leave (some u) t).log, x.owner ≠ some u := by
    simpa only [leave, same.1] using fresh
  refine Meets.bind (Dialogue.send_meets c _ .batch t) ?_ t rfl
  intro r
  apply Dialogue.settle_meets
  · intro agreed t' sent
    obtain ⟨unit, st', sound, busy, -⟩ := begins_sound same.2 free fresh held sent
    exact ⟨st', give_sound (busy agreed) unit sound⟩
  · intro refused t' sent
    obtain ⟨-, st', sound, -, still⟩ := begins_sound same.2 free fresh held sent
    exact ⟨st', discard_sound (still refused) sound⟩

theorem closing_sound (ends : sql = "COMMIT" ∨ sql = "ROLLBACK")
    (h : Sound none (p.leave (some u) s) st) :
    Meets (· = s) (Dialogue.closeUnit sql)
      (fun _ t => t.unit = none ∧ ∃ st, Sound none (p.leave (some u) t) st)
      (fun t => t.unit = none ∧ ∃ st, Sound none (p.leave (some u) t) st) := by
  apply Meets.get_bind
  rintro s rfl
  split
  next none =>
    apply Meets.throw
    rintro _ rfl
    exact ⟨none, st, h⟩
  next c unit =>
    obtain ⟨held, busy⟩ := takeBack_sound unit h
    apply Meets.modify_bind
    rintro _ ⟨s, rfl, rfl⟩
    refine Meets.bind (Dialogue.send_meets c sql .batch _) ?_ _ rfl
    intro r
    apply Dialogue.settle_meets
    · intro agreed t sent
      obtain ⟨unit, st', sound, free, -⟩ := ends_sound busy ends held sent
      have same : (t.release c).unit = t.unit := by
        simp only [Session.release]
        split <;> rfl
      exact ⟨same.trans unit, st', release_sound (free agreed) sound⟩
    · intro refused t sent
      obtain ⟨unit, st', sound, -, still⟩ := ends_sound busy ends held sent
      exact ⟨unit, st', discard_sound (still refused) sound⟩

theorem dropping_sound (h : Sound none (p.leave (some u) s) st) :
    Meets (· = s) Dialogue.dropUnit
      (fun _ t => t.unit = none ∧ ∃ st, Sound none (p.leave (some u) t) st)
      (fun t => t.unit = none ∧ ∃ st, Sound none (p.leave (some u) t) st) := by
  apply Meets.get_bind
  rintro s rfl
  split
  next none =>
    apply Meets.pure
    rintro _ rfl
    exact ⟨none, st, h⟩
  next c unit =>
    obtain ⟨held, busy⟩ := takeBack_sound unit h
    have lost : Sound (some c) (p.leave (some u) { s with unit := none }) (update st c .lost) :=
      ⟨held.1.loses busy, held.2.stand .lost⟩
    apply Meets.modify
    rintro _ rfl
    exact ⟨rfl, _, discard_sound (by simp) lost⟩

theorem enter_sound (owner : Option Nat) (h : Sound none p st) :
    Sound none (p.leave owner (p.enter owner)) st := by
  obtain ⟨course, filed⟩ := h
  have filed : Filed none (p.enter owner) p.units st :=
    filed.congr rfl rfl (Nat.le_refl _) (List.Subset.refl _)
  cases owner with
  | none => exact ⟨by simpa [leave, enter] using course, filed⟩
  | some u => exact ⟨by simpa [leave, enter] using course, by simpa [leave, enter] using filed⟩

theorem run_of_ended (settings : Settings) {k : Call} (vacant : s.unit = none)
    (owner : k.owner p.begun = some u) (old : k ≠ .opening) : k.run settings s = s := by
  cases k with
  | query | ping => cases owner
  | opening => exact absurd rfl old
  | command _ command =>
      have keeps : Dialogue.Keeps (· = s) (Dialogue.perform settings command) := by
        apply Dialogue.perform_keeps
        rintro _ c sql sending rfl unit -
        simp [vacant] at unit
      exact keeps.run rfl
  | ending _ e =>
      have keeps (sql : String) : Dialogue.Keeps (· = s) (Dialogue.closeUnit sql) := by
        apply Meets.get_bind
        rintro _ rfl
        rw [vacant]
        exact .throw _ fun _ h => h
      cases e with
      | commit => exact (keeps "COMMIT").run rfl
      | rollback => exact (keeps "ROLLBACK").run rfl
      | discard =>
          have drops : Dialogue.Keeps (· = s) Dialogue.dropUnit := by
            apply Meets.get_bind
            rintro _ rfl
            rw [vacant]
            exact Dialogue.pure_keeps ()
          exact drops.run rfl

end

structure Kept (p : Pool) : Prop where
  sound : ∃ st, Sound none p st
  owners : ∀ e ∈ p.log, ∀ u, e.owner = some u → u < p.begun
  units : ∀ u c, p.units u = some c → u < p.begun

namespace Kept

theorem run_sound (h : p.Kept) (settings : Settings) (k : Call) :
    ∃ st, Sound none (p.leave (k.owner p.begun) (k.run settings (p.enter (k.owner p.begun))))
      st := by
  obtain ⟨st, sound⟩ := h.sound
  have entered := enter_sound (k.owner p.begun) sound
  cases k with
  | query q => exact ((borrows p).query settings q).run ⟨st, entered⟩
  | ping => exact ((borrows p).ping settings).run ⟨st, entered⟩
  | opening =>
      have new : p.units p.begun = none := by
        cases hc : p.units p.begun with
        | none => rfl
        | some c => exact absurd (h.units _ c hc) (Nat.lt_irrefl _)
      apply (opening_sound settings (by simpa [enter, Call.owner] using new) _ entered).run rfl
      intro x hx owner
      have old : x ∈ p.log := by simpa [leave, enter] using hx
      exact Nat.lt_irrefl _ (h.owners x old _ owner)
  | command u c =>
      have keeps : Dialogue.Keeps (fun s => ∃ st, Sound none (p.leave (some u) s) st)
          (Dialogue.perform settings c) := by
        apply Dialogue.perform_keeps
        rintro s c sql sending ⟨st, sound⟩ unit plain
        exact ⟨st, tells_sound plain unit sound rfl⟩
      exact keeps.run ⟨st, entered⟩
  | ending u e =>
      cases e with
      | commit => exact ((closing_sound (.inl rfl) entered).run rfl).2
      | rollback => exact ((closing_sound (.inr rfl) entered).run rfl).2
      | discard => exact ((dropping_sound entered).run rfl).2

theorem step (h : p.Kept) (settings : Settings) (k : Call) : (p.step settings k).Kept := by
  have later : p.begun ≤ (p.step settings k).begun := by
    simp only [Pool.step]
    split <;> omega
  -- a call that sends or holds anything belongs to a unit that has begun
  have begun : ∀ u, k.owner p.begun = some u →
      u < (p.step settings k).begun ∨
        k.run settings (p.enter (some u)) = p.enter (some u) ∧ p.units u = none := by
    intro u owner
    by_cases new : k = .opening
    · subst new
      cases owner
      exact .inl (by simp [Pool.step])
    · cases hu : p.units u with
      | some c => exact .inl ((h.units u c hu).trans_le later)
      | none => exact .inr ⟨run_of_ended settings (by simpa [enter] using hu) owner new, rfl⟩
  refine ⟨h.run_sound settings k, ?_, ?_⟩
  · intro e he u owned
    simp only [Pool.step, leave, List.mem_append, List.mem_map] at he
    rcases he with old | ⟨x, hx, rfl⟩
    · exact (h.owners e old u owned).trans_le later
    · rcases begun u owned with lt | ⟨same, -⟩
      · exact lt
      · rw [show k.owner p.begun = some u from owned, same] at hx
        simp [enter] at hx
  · intro v c hv
    simp only [Pool.step, leave] at hv
    cases owner : k.owner p.begun with
    | none =>
        rw [owner] at hv
        exact (h.units v c hv).trans_le later
    | some u =>
        simp only [owner] at hv
        rcases eq_or_ne v u with rfl | ne
        · rcases begun v owner with lt | ⟨same, none⟩
          · exact lt
          · rw [same, update_self] at hv
            simp [enter, none] at hv
        · rw [update_of_ne ne] at hv
          exact (h.units v c hv).trans_le later

theorem run (h : p.Kept) (settings : Settings) (calls : List Call) :
    (p.run settings calls).Kept := by
  induction calls generalizing p with
  | nil => exact h
  | cons k calls ih => exact ih (h.step settings k)

end Kept

theorem kept_start (server : Server) : (start server).Kept :=
  ⟨⟨_, sound_start server⟩, by simp [start], by simp [start]⟩

theorem step_of_ended (settings : Settings) (k : Call) {u : Nat} (begun : u < p.begun)
    (ended : p.units u = none) :
    u < (p.step settings k).begun ∧ (p.step settings k).units u = none ∧
      Entry.ofUnit (p.step settings k).log u = Entry.ofUnit p.log u := by
  refine ⟨?_, ?_⟩
  · simp only [step]
    split <;> omega
  by_cases owner : k.owner p.begun = some u
  · have old : k ≠ .opening := by
      rintro rfl
      cases owner
      exact Nat.lt_irrefl _ begun
    have same : k.run settings (p.enter (some u)) = p.enter (some u) :=
      run_of_ended settings (by simpa [enter] using ended) owner old
    simp only [step, leave, owner, same]
    simp [enter, ended]
  · constructor
    · simp only [step, leave]
      cases h : k.owner p.begun with
      | none => exact ended
      | some v =>
          have ne : u ≠ v := by
            rintro rfl
            exact owner h
          simpa [update_of_ne ne] using ended
    · simp [step, leave, Entry.ofUnit, List.filter_append, owner]

theorem run_of_ended_unit (settings : Settings) (calls : List Call) {u : Nat} (begun : u < p.begun)
    (ended : p.units u = none) :
    (p.run settings calls).units u = none ∧
      Entry.ofUnit (p.run settings calls).log u = Entry.ofUnit p.log u := by
  induction calls generalizing p with
  | nil => exact ⟨ended, rfl⟩
  | cons k calls ih =>
      obtain ⟨begun', ended', same⟩ := step_of_ended settings k begun ended
      obtain ⟨still, rest⟩ := ih begun' ended'
      exact ⟨still, rest.trans same⟩

theorem Kept.ending (h : p.Kept) (settings : Settings) (u : Nat) (e : Store.Ending) :
    (p.step settings (.ending u e)).units u = none := by
  obtain ⟨st, sound⟩ := h.sound
  have entered := enter_sound (some u) sound
  have vacant : (Call.run settings (p.enter (some u)) (.ending u e)).unit = none := by
    cases e with
    | commit => exact ((closing_sound (.inl rfl) entered).run rfl).1
    | rollback => exact ((closing_sound (.inr rfl) entered).run rfl).1
    | discard => exact ((dropping_sound entered).run rfl).1
  have units : (p.step settings (.ending u e)).units =
      update p.units u (Call.run settings (p.enter (some u)) (.ending u e)).unit := rfl
  rw [units, update_self, vacant]

def Gone (p : Pool) (c : Nat) : Prop :=
  c ∈ p.session.closed ∧ c ∉ p.session.idle ∧ c ∉ p.session.held

theorem Sound.progress (h : Sound none p st) (u : Nat) :
    Progress p.log u (p.units u = some ·) p.Gone := by
  obtain ⟨course, filed⟩ := h
  have units : ∀ v c, p.units v = some c ↔ st c = .busy v := by simpa using filed.units
  apply (course.progress u).map (units u)
  intro c lost
  refine ⟨by simpa using filed.lost c lost, ?_, ?_⟩
  · intro idle
    simp [filed.idle c idle] at lost
  · intro held
    rcases (filed.held c).1 held with ⟨v, hv⟩ | none
    · simp [(units v c).1 hv] at lost
    · cases none

theorem connections_return_settled (settings : Settings) (server : Server) (calls : List Call) :
    let p := run settings calls (start server)
    (∀ c ∈ p.session.idle, Entry.Settled p.log c) ∧
      (∀ before e after, p.log = before ++ e :: after → e.owner = none ∨ e.sent.Opens →
        Entry.Settled before e.sent.connection) ∧
      (∀ e ∈ p.log, e.owner = none → Statement.Standalone e.sent.sql) ∧
      (∀ u, Progress p.log u (p.units u = some ·) p.Gone) ∧
      ∀ earlier u e later, calls = earlier ++ .ending u e :: later →
        u < (run settings earlier (start server)).begun →
          p.units u = none ∧ Entry.ofUnit p.log u =
            Entry.ofUnit (run settings (earlier ++ [.ending u e]) (start server)).log u := by
  intro p
  have kept : p.Kept := (kept_start server).run settings calls
  obtain ⟨st, course, filed⟩ := kept.sound
  refine ⟨?_, ?_, ?_, fun u => Sound.progress ⟨course, filed⟩ u, ?_⟩
  · intro c idle
    exact course.settled (filed.idle c idle)
  · intro before e after split entering
    exact course.settled_before split entering
  · exact course.standalone
  · rintro earlier u e later rfl begun
    have before := (kept_start server).run settings earlier
    have ended := before.ending settings u e
    have same : run settings (earlier ++ [.ending u e]) (start server) =
        (run settings earlier (start server)).step settings (.ending u e) := by
      simp [run]
    have whole :
        p = run settings later (run settings (earlier ++ [.ending u e]) (start server)) := by
      simp [p, run]
    rw [whole]
    apply run_of_ended_unit settings later
    · rw [same]
      simpa [step] using begun
    · rw [same]
      exact ended

example :
    let refusing : Server := ⟨[⟨"ROLLBACK", .refusal "57P01" false, none⟩]⟩
    let p := run ⟨"checkpoint", "id", 2, .zero, .zero⟩
      [.opening, .opening, .command 1 (.execute "a"), .ending 0 .commit, .ending 1 .rollback]
      (start refusing)
    p.session.idle = [1] ∧ p.session.closed = [2] ∧
      p.log.map (·.owner) = [some 0, some 1, some 1, some 0, some 1] := by
  decide +kernel

end Pool

end ChainIndexer.Postgres
