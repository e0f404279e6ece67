import ChainIndexer.Proofs.Schedule.Sleep
import ChainIndexer.Schedule.Rehearsal

namespace ChainIndexer.Desk

variable {σ : Type} {d d' : Desk σ} {m b : Moment σ} {ms mid : List (Moment σ)} {name : String}
  {f : Flight σ} {g : Registration (Handler σ)}

namespace Moment

def Begins (m : Moment σ) (f : Flight σ) : Prop :=
  (∃ g, m.before.find? f.name = some g ∧ g.handler = f.handler) ∧
    (m.event = .call f.name ∨ ∃ t, m.event = .turn t ∧ t.phase = .waiting ∧ t.name = f.name)

def Ends (m : Moment σ) (f : Flight σ) (result : Except Stop Outcome) : Prop :=
  m.result f.handler = result ∧
    (m.event = .answer f ∨
      ∃ t, m.event = .turn t ∧ t.phase = .working f.handler ∧ t.name = f.name)

def Registers (m : Moment σ) (name : String) : Prop :=
  ∃ h interval, m.event = .register name h interval

theorem find?_of_not_registers (h : Step m.before m.event m.after) (hn : ¬m.Registers name)
    (hg : m.after.find? name = some g) : m.before.find? name = some g := by
  obtain ⟨before, e, after⟩ := m
  cases h with
  | @register s s' calls other h interval hr =>
    obtain ⟨-, -, rfl⟩ := Scheduler.register_eq_ok _ hr
    have hne : name ≠ other := fun he => hn ⟨h, interval, he ▸ rfl⟩
    exact (OrderedMap.find?_insert_of_ne _ hne _).symm.trans hg
  | deregister => exact Registry.find?_erase_of_some hg
  | spawn =>
    simp only [find?] at hg
    rw [Scheduler.spawn_eq] at hg
    exact hg
  | answer =>
    simp only [find?, Scheduler.endTick_registry] at hg
    exact Registry.find?_released_of_some hg
  | turn ht first =>
    simp only [find?, Scheduler.act_registry] at hg
    split at hg
    · exact Registry.find?_released_of_some hg
    · exact hg
  | _ => exact hg

theorem Begins.not_registers (h : b.Begins f) : ¬b.Registers name := by
  rintro ⟨g, interval, he⟩
  obtain ⟨-, hc | ⟨t, ht, -, -⟩⟩ := h
  · rw [he] at hc
    cases hc
  · rw [he] at ht
    cases ht

theorem Ends.registry {result : Except Stop Outcome} (h : Step m.before m.event m.after)
    (he : m.Ends f result) : m.after.scheduler.registry =
      Registry.released m.before.scheduler.registry f.name result := by
  obtain ⟨before, e, after⟩ := m
  obtain ⟨hr, he⟩ := he
  cases h with
  | @answer s =>
    obtain he | ⟨t, he, -, -⟩ := he
    · cases he
      dsimp only [Moment.result] at hr ⊢
      rw [(s.keeps_endTick f.name f.handler).clock] at hr
      rw [Scheduler.endTick_registry, hr]
    · cases he
  | turn ht first =>
    obtain he | ⟨t, he, hp, hname⟩ := he
    · cases he
    · cases he
      dsimp only [Moment.result] at hr ⊢
      rw [Scheduler.act_clock] at hr
      rw [Scheduler.act_registry_of_working _ _ hp, hname]
      exact congrArg (Registry.released _ f.name) hr
  | _ =>
    obtain he | ⟨t, he, -, -⟩ := he
    all_goals cases he

end Moment

theorem Course.find?_of_not_registers (h : Course d ms d') (hn : ∀ n ∈ ms, ¬n.Registers name)
    (hg : d'.find? name = some g) : d.find? name = some g := by
  induction ms generalizing d with
  | nil =>
    cases h
    exact hg
  | cons m ms ih =>
    obtain ⟨rfl, hs, hc⟩ := h
    obtain ⟨hm, hms⟩ := List.forall_mem_cons.mp hn
    exact Moment.find?_of_not_registers hs hm (ih hc hms)

theorem completion_clears_name (h : Course d (b :: mid ++ [m]) d') (hb : b.Begins f)
    (hm : m.Ends f (.ok .completed)) :
    d'.find? f.name = none ∧ (∀ other, other ≠ f.name → d'.find? other = m.before.find? other) ∧
      ((∀ n ∈ mid, ¬n.Registers f.name) → ∀ g, m.before.find? f.name = some g →
        d.find? f.name = some g ∧ g.handler = f.handler) := by
  obtain ⟨e, hmid, rfl, hs, rfl⟩ := course_append.mp h
  have hr := hm.registry hs
  refine ⟨?_, fun other hne => ?_, fun hn g hg => ?_⟩
  · simp only [find?, hr]
    exact OrderedMap.find?_erase_self ..
  · simp only [find?, hr]
    exact OrderedMap.find?_erase_of_ne _ hne
  · have hfound := hmid.find?_of_not_registers (List.forall_mem_cons.mpr ⟨hb.not_registers, hn⟩) hg
    obtain ⟨rfl, -⟩ := hmid
    obtain ⟨⟨g', hg', hh⟩, -⟩ := hb
    rw [hfound] at hg'
    cases hg'
    exact ⟨hfound, hh⟩

def migrating : RehearsedJob := ⟨"migrate", 1000, [.ok .completed]⟩

def replacing : RehearsedJob := ⟨"migrate", 0, [.ok .idle]⟩

def indexing : RehearsedJob := ⟨"index", 0, [.ok .idle]⟩

def migratedRegistry : Registry (Handler Rehearsals) :=
  OrderedMap.insert ∅ "migrate" ⟨migrating.handler 0, .ofMillis 1000⟩

def migratingOpened : Scheduler Rehearsals :=
  ((Scheduler.create migratedRegistry (.ofSecs 5) ∅).spawn "migrate").2

def migratingWaits : ActiveTicker Rehearsals := ⟨"migrate", 1000, 0, 0, 0, .waiting⟩

def migratingWorks : ActiveTicker Rehearsals :=
  ⟨"migrate", 1000, 1000, 1000, 1, .working (migrating.handler 0)⟩

def migratingBegun : Scheduler Rehearsals :=
  Scheduler.act { migratingOpened.roused migratingWaits with tickers := [] } migratingWaits

def migratingEnded (r : Registry (Handler Rehearsals)) : Scheduler Rehearsals :=
  Scheduler.act { Scheduler.roused { migratingBegun with registry := r } migratingWorks with
    tickers := [] } migratingWorks

def migratingBegins : Moment Rehearsals :=
  ⟨⟨migratingOpened, []⟩, .turn migratingWaits, ⟨migratingBegun, []⟩⟩

def migratingEnds (r : Registry (Handler Rehearsals)) : Moment Rehearsals :=
  ⟨⟨{ migratingBegun with registry := r }, []⟩, .turn migratingWorks, ⟨migratingEnded r, []⟩⟩

theorem migratingBegins_step :
    Step migratingBegins.before migratingBegins.event migratingBegins.after :=
  .turn (.of_eq rfl) nofun

theorem migratingEnds_step (r : Registry (Handler Rehearsals)) :
    Step (migratingEnds r).before (migratingEnds r).event (migratingEnds r).after :=
  .turn (.of_eq rfl) nofun

theorem migratingBegins_begins : migratingBegins.Begins ⟨"migrate", migrating.handler 0⟩ :=
  ⟨⟨_, rfl, rfl⟩, .inr ⟨_, rfl, rfl, rfl⟩⟩

theorem migratingEnds_ends (r : Registry (Handler Rehearsals)) :
    (migratingEnds r).Ends ⟨"migrate", migrating.handler 0⟩ (.ok .completed) :=
  ⟨rfl, .inr ⟨_, rfl, rfl, rfl⟩⟩

def indexedRegistry : Registry (Handler Rehearsals) :=
  OrderedMap.insert migratedRegistry "index" ⟨indexing.handler 1, .ofMillis 1000⟩

def indexEntered : Moment Rehearsals :=
  ⟨⟨migratingBegun, []⟩, .register "index" (indexing.handler 1) (.ofMillis 1000),
    ⟨{ migratingBegun with registry := indexedRegistry }, []⟩⟩

theorem completion_clears_name_beside_another :
    (migratingEnds indexedRegistry).after.find? "migrate" = none ∧
      (migratingEnds indexedRegistry).after.find? "index" =
        some ⟨indexing.handler 1, .ofMillis 1000⟩ ∧
      migratingBegins.before.find? "migrate" = some ⟨migrating.handler 0, .ofMillis 1000⟩ := by
  have hc : Course migratingBegins.before
      (migratingBegins :: [indexEntered] ++ [migratingEnds indexedRegistry])
      (migratingEnds indexedRegistry).after :=
    ⟨rfl, migratingBegins_step, rfl, .register rfl, rfl, migratingEnds_step _, rfl⟩
  obtain ⟨hnone, hothers, hsame⟩ :=
    completion_clears_name hc migratingBegins_begins (migratingEnds_ends _)
  have hregisters : ∀ n ∈ [indexEntered], ¬n.Registers "migrate" := by
    intro n hn
    cases List.mem_singleton.mp hn
    rintro ⟨h, interval, he⟩
    injection he with hname
    exact absurd hname (by decide)
  have hindex := hothers "index" (by decide)
  exact ⟨hnone, hindex.trans rfl, (hsame hregisters _ rfl).1⟩

def withoutMigration : Registry (Handler Rehearsals) := OrderedMap.erase migratedRegistry "migrate"

def replacedRegistry : Registry (Handler Rehearsals) :=
  OrderedMap.insert withoutMigration "migrate" ⟨replacing.handler 1, .ofMillis 1000⟩

def migrationLeft : Moment Rehearsals :=
  ⟨⟨migratingBegun, []⟩, .deregister "migrate",
    ⟨{ migratingBegun with registry := withoutMigration }, []⟩⟩

def migrationReplaced : Moment Rehearsals :=
  ⟨⟨{ migratingBegun with registry := withoutMigration }, []⟩,
    .register "migrate" (replacing.handler 1) (.ofMillis 1000),
    ⟨{ migratingBegun with registry := replacedRegistry }, []⟩⟩

theorem replacement_removed : ¬∀ (d d' : Desk Rehearsals) (b m : Moment Rehearsals)
    (mid : List (Moment Rehearsals)) (f : Flight Rehearsals)
    (g : Registration (Handler Rehearsals)),
    Reaches (opened (.ofSecs 5) ∅) d → Course d (b :: mid ++ [m]) d' → b.Begins f →
      m.Ends f (.ok .completed) → m.before.find? f.name = some g → g.handler ≠ f.handler →
        d'.find? f.name = some g := by
  intro hstays
  have hregister : Step (opened (.ofSecs 5) ∅)
      (.register "migrate" (migrating.handler 0) (.ofMillis 1000))
      ⟨.create migratedRegistry (.ofSecs 5) ∅, []⟩ := .register rfl
  have hopened : Reaches (opened (.ofSecs 5) ∅) migratingBegins.before :=
    hregister.reaches.trans Step.spawn.reaches
  have hc : Course migratingBegins.before
      (migratingBegins :: [migrationLeft, migrationReplaced] ++ [migratingEnds replacedRegistry])
      (migratingEnds replacedRegistry).after :=
    ⟨rfl, migratingBegins_step, rfl, .deregister, rfl, .register rfl, rfl,
      migratingEnds_step _, rfl⟩
  have hne : replacing.handler 1 ≠ migrating.handler 0 := by
    intro he
    have hwork := congrArg (fun h : Handler Rehearsals => (h.start 0 ∅).1) he
    exact absurd hwork (by decide)
  have hgone : (migratingEnds replacedRegistry).after.find? "migrate" = none := rfl
  have hfound := hstays _ _ _ _ _ _ _ hopened hc migratingBegins_begins (migratingEnds_ends _)
    rfl hne
  rw [hgone] at hfound
  cases hfound

end ChainIndexer.Desk
