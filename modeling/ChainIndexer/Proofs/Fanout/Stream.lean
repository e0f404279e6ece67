import ChainIndexer.Proofs.Fanout.Crew
import ChainIndexer.Proofs.Fanout.Prompt
import Mathlib.Logic.Relation

namespace ChainIndexer.Fanout

open Relation (ReflTransGen)

variable {ε α : Type}

structure Stream (ε α : Type) where
  clock : Nat
  crew : Crew (FanoutItem ε α) (Started ε α)

namespace Stream

def opened (items : List (FanoutItem ε α)) : Stream ε α := ⟨0, .opened items⟩

inductive Step (places : Nat) : Stream ε α → Stream ε α → Prop where
  | turn {clock crew crew'} (h : Crew.Turn places (Started.mk clock) (·.finish ≤ clock) crew crew') :
      Step places ⟨clock, crew⟩ ⟨clock, crew'⟩
  | wait {clock crew first rest time} (head : crew.flying = first :: rest)
      (full : crew.waiting = [] ∨ places ≤ crew.flying.length) (later : clock < time)
      (still : time ≤ first.finish) : Step places ⟨clock, crew⟩ ⟨time, crew⟩

abbrev Reach (places : Nat) : Stream ε α → Stream ε α → Prop := ReflTransGen (Step places)

variable {places : Nat} {items : List (FanoutItem ε α)} {s t : Stream ε α}

structure Sound (places : Nat) (items : List (FanoutItem ε α)) (s : Stream ε α) : Prop where
  order : s.crew.started.map (·.item) ++ s.crew.waiting = items
  room : s.crew.flying.length ≤ places
  prompt : Prompt places s.crew.started
  settled : ∀ f ∈ s.crew.given, f.finish ≤ s.clock
  due : s.crew.waiting ≠ [] → s.clock ≤ startTime places (s.crew.started.map (·.finish))

theorem sound_opened (places : Nat) (items : List (FanoutItem ε α)) :
    (opened items).Sound places items :=
  ⟨rfl, Nat.zero_le _, .nil, nofun, fun _ => Nat.zero_le _⟩

theorem Sound.clock_eq (h : s.Sound places items) (hw : s.crew.waiting ≠ [])
    (hroom : s.crew.flying.length < places) :
    s.clock = startTime places (s.crew.started.map (·.finish)) := by
  refine Nat.le_antisymm (h.due hw) (startTime_le fun n hn => ?_)
  -- what must have been given out before has been
  have hgiven : (s.crew.started.map (·.finish)).length + 1 - places ≤
      (s.crew.given.map (·.finish)).length := by
    simp only [Crew.started, List.length_map, List.length_append]
    omega
  rw [Crew.started, List.map_append, List.take_append_of_le_length] at hn
  · obtain ⟨f, hf, rfl⟩ := List.mem_map.mp (List.mem_of_mem_take hn)
    exact h.settled f hf
  · rwa [← List.map_append, ← Crew.started]

theorem Sound.step (h : s.Sound places items) (hs : Step places s t) : t.Sound places items := by
  cases hs with
  | @turn clock crew crew' hturn =>
    obtain ⟨item, hw, hstarted, hroom, hgiven⟩ | ⟨hw, hstarted, first, hready, hgiven⟩ :=
      hturn.started
    · have hne : crew.waiting ≠ [] := hw ▸ List.cons_ne_nil _ _
      refine ⟨?_, hturn.flying_le h.room, ?_, hgiven ▸ h.settled, fun _ => ?_⟩
      · rw [hstarted, List.map_append, List.append_assoc, ← h.order, hw]
        rfl
      · rw [hstarted]
        exact h.prompt.concat (h.clock_eq hne hroom)
      · rw [hstarted, List.map_append]
        exact Nat.le_trans (h.due hne) (startTime_append _)
    · refine ⟨?_, hturn.flying_le h.room, ?_, fun f hf => ?_, ?_⟩
      · rw [hstarted, hw]
        exact h.order
      · rw [hstarted]
        exact h.prompt
      · rw [hgiven] at hf
        obtain hf | hf := List.mem_append.mp hf
        · exact h.settled f hf
        · exact List.mem_singleton.mp hf ▸ hready
      · rw [hstarted, hw]
        exact h.due
  | @wait clock crew first rest time head full later still =>
    refine ⟨h.order, h.room, h.prompt, fun f hf => ?_, fun hne => ?_⟩
    · exact Nat.le_trans (h.settled f hf) (Nat.le_of_lt later)
    · -- the next item has to wait for the first one under way
      have hfull := full.resolve_left hne
      refine Nat.le_trans still (le_startTime ?_)
      have hindex : (crew.started.map (·.finish))[crew.given.length]? = some first.finish := by
        simp [Crew.started, head]
      refine List.mem_of_getElem? (i := crew.given.length) ?_
      rw [List.getElem?_take_of_lt, hindex]
      simp only [Crew.started, List.length_map, List.length_append]
      have := h.room
      omega

theorem Sound.reach (h : s.Sound places items) (hs : Reach places s t) : t.Sound places items := by
  induction hs with
  | refl => exact h
  | tail _ hstep ih => exact ih.step hstep

theorem done_or_step (hplaces : 0 < places) (s : Stream ε α) :
    s.crew.Done ∨ ∃ t, Step places s t := by
  obtain ⟨clock, crew⟩ := s
  obtain hdone | ⟨crew', hturn⟩ | ⟨first, rest, head, hheld, full⟩ :=
    crew.done_or_turn_or_held hplaces (Started.mk clock) (·.finish ≤ clock)
  · exact .inl hdone
  · exact .inr ⟨_, .turn hturn⟩
  · exact .inr ⟨_, .wait head full (Nat.not_le.mp hheld) (Nat.le_refl _)⟩

def remaining (s : Stream ε α) : Nat :=
  match s.crew.flying with
  | [] => 0
  | first :: _ => first.finish - s.clock

theorem wellFounded_step (places : Nat) :
    WellFounded fun t s : Stream ε α => Step places s t := by
  refine Subrelation.wf (r := InvImage (Prod.Lex (· < ·) (· < ·))
    fun s : Stream ε α => (s.crew.left, s.remaining)) ?_
    (InvImage.wf _ (Prod.lex (Nat.lt_wfRel) (Nat.lt_wfRel)).wf)
  intro t s hs
  cases hs with
  | turn h => exact .left _ _ h.left_lt
  | wait head full later still =>
    refine .right _ ?_
    simp only [remaining, head]
    omega

theorem exists_done (hplaces : 0 < places) (s : Stream ε α) :
    ∃ t, Reach places s t ∧ t.crew.Done := by
  induction s using (wellFounded_step places).induction with
  | h s ih =>
    obtain hdone | ⟨t, hstep⟩ := done_or_step hplaces s
    · exact ⟨s, .refl, hdone⟩
    · obtain ⟨u, hreach, hdone⟩ := ih t hstep
      exact ⟨u, .head hstep hreach, hdone⟩

def report (s : Stream ε α) : Report ε α :=
  ⟨collect (s.crew.given.map (·.item.result)), numbered (s.crew.given.map (·.start)),
    (numbered (s.crew.given.map (·.finish))).mergeSort fun a b => a.2 ≤ b.2,
    peak (s.crew.given.map (·.span))⟩

structure Settled (places : Nat) (items : List (FanoutItem ε α)) (s : Stream ε α) : Prop where
  order : s.crew.given.map (·.item) = items
  first : ∀ k f, s.crew.given[k]? = some f → k < places → f.start = 0
  later : ∀ k f, s.crew.given[k]? = some f → places ≤ k →
    (∃ j g, j + places ≤ k ∧ s.crew.given[j]? = some g ∧ g.finish = f.start) ∧
      ∀ j g, j + places ≤ k → s.crew.given[j]? = some g → g.finish ≤ f.start
  running : ∀ time, s.crew.given.countP (·.RunsAt time) ≤ places
  finished : ∀ f ∈ s.crew.given, f.finish ≤ s.clock

theorem Sound.settled_of_done (h : s.Sound places items) (hplaces : 0 < places)
    (hdone : s.crew.Done) : s.Settled places items ∧ Prompt places s.crew.given := by
  have hstarted : s.crew.started = s.crew.given := by
    rw [Crew.started, hdone.2, List.append_nil]
  have hprompt := hstarted ▸ h.prompt
  have horder := h.order
  rw [hstarted, hdone.1, List.append_nil] at horder
  refine ⟨⟨horder, fun k f hf hk => ?_, fun k f hf hk => hprompt.later hplaces hf hk,
    hprompt.countP_runsAt_le hplaces, h.settled⟩, hprompt⟩
  rw [hprompt k f hf, startTime_of_lt]
  rw [List.length_map, List.length_take]
  omega

theorem run_eq_report {concurrency : Nat} (horder : s.crew.given.map (·.item) = items)
    (hprompt : Prompt (width concurrency) s.crew.given) : run concurrency items = s.report := by
  have hdurations : items.map (·.duration) = s.crew.given.map (·.item.duration) := by
    rw [← horder, List.map_map]
    rfl
  have hresults : items.map (·.result) = s.crew.given.map (·.item.result) := by
    rw [← horder, List.map_map]
    rfl
  rw [run, hdurations, hresults, hprompt.spans_eq, List.map_map, List.map_map]
  rfl

theorem fan_out_bounded (concurrency : Nat) (items : List (FanoutItem ε α)) :
    (WellFounded fun t s : Stream ε α => Step (max concurrency 1) s t) ∧
    (∀ s, Reach (max concurrency 1) (opened items) s → s.crew.flying.length ≤ max concurrency 1 ∧
      (s.crew.Done ∨ ∃ t, Step (max concurrency 1) s t)) ∧
    (∃ s, Reach (max concurrency 1) (opened items) s ∧ s.crew.Done) ∧
    (∀ s, Reach (max concurrency 1) (opened items) s → s.crew.Done →
      s.Settled (max concurrency 1) items ∧ run concurrency items = s.report) ∧
    (run concurrency items).peak ≤ max concurrency 1 ∧
    (∀ values, items.map (·.result) = values.map .ok →
      (run concurrency items).result = .ok values) ∧
    ∀ (k : Nat) (e : ε), (items.map (·.result))[k]? = some (Except.error e) →
      (∀ j < k, ∀ r : Except ε α, (items.map (·.result))[j]? = some r → r.isOk = true) →
        (run concurrency items).result = .error e := by
  have hplaces := width_pos concurrency
  have hsound := sound_opened (width concurrency) items
  have hend (s) (hs : Reach (width concurrency) (opened items) s) (hdone : s.crew.Done) :
      s.Settled (width concurrency) items ∧ run concurrency items = s.report := by
    obtain ⟨hsettled, hprompt⟩ := (hsound.reach hs).settled_of_done hplaces hdone
    exact ⟨hsettled, run_eq_report hsettled.order hprompt⟩
  obtain ⟨last, hlast, hdone⟩ := exists_done hplaces (opened items)
  refine ⟨wellFounded_step _, fun s hs => ⟨(hsound.reach hs).room, done_or_step hplaces s⟩,
    ⟨last, hlast, hdone⟩, hend, ?_, fun values h => ?_, fun k e h hbefore => ?_⟩
  · obtain ⟨-, hprompt⟩ := (hsound.reach hlast).settled_of_done hplaces hdone
    rw [(hend last hlast hdone).2]
    exact hprompt.peak_le hplaces
  · rw [run, h]
    exact collect_map_ok values
  · rw [run]
    exact collect_first_error h hbefore

example : (run 2 ([⟨30, .ok 1⟩, ⟨10, .ok 2⟩, ⟨5, .ok 3⟩] : List (FanoutItem Unit Nat))).started =
    [(0, 0), (1, 0), (2, 30)] := by decide

end Stream

end ChainIndexer.Fanout
