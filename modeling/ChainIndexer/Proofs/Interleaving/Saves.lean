import ChainIndexer.Proofs.Job.DependencySafety

namespace ChainIndexer

open Memory (Database Ends)

variable {ι α : Type}

def Request.savedAfter (saves : List Checkpoint) : Request → List Checkpoint
  | .access .opening => []
  | .access (.command (.saveCheckpoint c)) => saves ++ [c]
  | _ => saves

theorem Request.savedAfter_command {c : Store.Command} (hc : ∀ cp, c ≠ .saveCheckpoint cp)
    (saves : List Checkpoint) : savedAfter saves (.access (.command c)) = saves := by
  cases c <;> first | rfl | exact absurd rfl (hc _)

namespace Site

def savedAfter (s : Site ι α) (saves : List Checkpoint) : Move ι α → List Checkpoint
  | .ask i _ =>
    match s.ticks i with
    | some (.ask r _) => r.savedAfter saves
    | _ => saves
  | _ => saves

variable [DecidableEq ι]

def journal (s : Site ι α) (saves : List Checkpoint) :
    List (Move ι α) → Option (Site ι α × List Checkpoint)
  | [] => some (s, saves)
  | m :: rest => (s.move? m).bind fun t => t.journal (s.savedAfter saves m) rest

def Accounts (s : Site ι α) (saves : List Checkpoint) : Prop :=
  ∀ i, s.shared.holder = some i → s.shared.committed.SavedFrom saves s.shared.world.store.current

omit [DecidableEq ι] in
theorem accounts_of_free {s : Site ι α} (h : s.shared.holder = none) (saves : List Checkpoint) :
    s.Accounts saves := by
  intro i hi
  rw [h] at hi
  cases hi

omit [DecidableEq ι] in
theorem Accounts.aside {s : Site ι α} {saves : List Checkpoint} (h : s.Accounts saves) {i : ι}
    {now : Nat} {r : Request} (hr : r.IsAside) {ticks : ι → Option (Program α)} :
    (⟨s.shared.asked i now r, ticks⟩ : Site ι α).Accounts saves := by
  obtain ⟨hs, hh, -⟩ := Shared.asked_aside s.shared i now hr
  intro j hj
  rw [Shared.committed, hs]
  exact h j (hh.symm.trans hj)

theorem Accounts.move {s t : Site ι α} {saves : List Checkpoint} {m : Move ι α}
    (h : s.Accounts saves) (hw : s.shared.WellLocked) (hm : s.move? m = some t) :
    t.Accounts (s.savedAfter saves m) := by
  cases m with
  | begin i p =>
    obtain ⟨-, rfl⟩ := move?_begin.mp hm
    exact h
  | finish i =>
    obtain ⟨a, -, rfl⟩ := move?_finish.mp hm
    exact h
  | change c =>
    obtain ⟨hn, rfl⟩ := move?_change.mp hm
    exact accounts_of_free (s := ⟨s.shared.changed c, s.ticks⟩) hn saves
  | ask i now =>
    obtain ⟨r, next, hi, hp, rfl⟩ := move?_ask.mp hm
    simp only [savedAfter, hi]
    intro j hj
    cases r with
    | access a =>
      cases a with
      | query q => exact h j hj
      | opening =>
        have hn : s.shared.holder = none := by simpa [Shared.permits] using hp
        obtain ⟨hs, -, -⟩ := Shared.asked_opening s.shared i now
        rw [Shared.committed, hs]
        exact .opened _
      | command c =>
        have hh : s.shared.holder = some i := by simpa [Shared.permits] using hp
        obtain ⟨hs, -, -, -⟩ := Shared.asked_command i now hw hh c
        rw [Shared.committed, hs]
        by_cases hc : ∃ cp, c = .saveCheckpoint cp
        · obtain ⟨cp, rfl⟩ := hc
          exact (h i hh).saveCheckpoint _ cp
        · have hne (cp : Checkpoint) : c ≠ .saveCheckpoint cp := fun he => hc ⟨cp, he⟩
          rw [Request.savedAfter_command hne]
          refine (h i hh).of_find? fun job => ?_
          exact Database.perform_checkpoint _ _ fun cp he => absurd he (hne cp)
      | ending e =>
        obtain ⟨-, hn, -⟩ := Shared.asked_ending s.shared i now e
        rw [hn] at hj
        cases hj
    | clock => exact h.aside (r := .clock) trivial j hj
    | cachedHealth slot => exact h.aside (r := .cachedHealth slot) trivial j hj
    | keepHealth slot cache => exact h.aside (r := .keepHealth slot cache) trivial j hj
    | turn counter => exact h.aside (r := .turn counter) trivial j hj

theorem journal_reach {ρ : Rules ι α} {ms : List (Move ι α)} {s t : Site ι α}
    {saves saves' : List Checkpoint} (ha : ∀ m ∈ ms, ∀ s, ρ.Allows s m)
    (h : s.journal saves ms = some (t, saves')) (ho : InOrder ρ s) (hs : s.Accounts saves) :
    Reach ρ s t ∧ t.Accounts saves' := by
  induction ms generalizing s saves with
  | nil =>
    cases h
    exact ⟨.refl, hs⟩
  | cons m rest ih =>
    obtain ⟨u, hu, hr⟩ := Option.bind_eq_some_iff.mp h
    obtain ⟨hm, hrest⟩ := List.forall_mem_cons.mp ha
    have hstep : Step ρ s u := ⟨m, hm s, hu⟩
    obtain ⟨hreach, ht⟩ := ih hrest hr (ho.step hstep) (hs.move ho.1 hu)
    exact ⟨.head hstep hreach, ht⟩

end Site

inductive Site.Keeps (s t : Site ι α) (saves : List Checkpoint) : Prop
  | uncommitted : commits t.shared.record = commits s.shared.record →
      t.shared.committed.checkpoints = s.shared.committed.checkpoints → Keeps s t saves
  | committed (i : ι) : commits t.shared.record = commits s.shared.record ++
        [.ending i .commit (.ok ()) s.shared.committed t.shared.committed] →
      s.shared.committed.SavedFrom saves t.shared.committed → Keeps s t saves

theorem Site.Keeps.of_record {s t : Site ι α} (hr : t.shared.record = s.shared.record)
    (hc : t.shared.committed = s.shared.committed) (saves : List Checkpoint) : s.Keeps t saves :=
  .uncommitted (by rw [hr]) (by rw [hc])

variable [DecidableEq ι]

theorem Site.Accounts.keeps_ask {s : Site ι α} {saves : List Checkpoint} (h : s.Accounts saves)
    (hw : s.shared.WellLocked) {i : ι} {now : Nat} {r : Request}
    (hp : s.shared.permits i r = true) (ticks : ι → Option (Program α)) :
    s.Keeps ⟨s.shared.asked i now r, ticks⟩ saves := by
  have hstays := Shared.committed_asked hw hp now
  by_cases hr : r.IsAside
  · obtain ⟨-, -, hrecord⟩ := Shared.asked_aside s.shared i now hr
    exact .of_record hrecord (hstays fun e he => by rw [he] at hr; exact hr) saves
  cases r with
  | access a =>
    cases a with
    | query q =>
      refine .uncommitted ?_ (by rw [hstays nofun])
      exact commits_quiet _ rfl
    | opening => exact .of_record (Shared.asked_opening s.shared i now).2.2 (hstays nofun) saves
    | command c => exact .of_record (List.append_nil _) (hstays nofun) saves
    | ending e =>
      have hh : s.shared.holder = some i := by simpa [Shared.permits] using hp
      have hclosed := (held_of_holder hw hh).closed now e
      obtain ⟨rfl, hx, hagrees⟩ | ⟨hquiet, hagrees⟩ := hclosed.ends.cases_committer (i := i)
      · refine .committed i ?_ ((h i hh).of_find? fun job => by rw [hagrees.2.1])
        rw [hclosed.record, hx]
        exact commits_append _ (Moment.committer_commit i _ _)
      · refine .uncommitted ?_ hagrees.2.1
        rw [hclosed.record]
        exact commits_quiet _ hquiet
  | clock | cachedHealth _ | keepHealth _ _ | turn _ => exact (hr trivial).elim

theorem Site.Accounts.keeps {s t : Site ι α} {saves : List Checkpoint} {m : Move ι α}
    (h : s.Accounts saves) (hw : s.shared.WellLocked)
    (hno : ∀ time job height, m ≠ .change (.setCheckpoint time job height))
    (hm : s.move? m = some t) : s.Keeps t saves := by
  cases m with
  | begin i p =>
    obtain ⟨-, rfl⟩ := move?_begin.mp hm
    exact .uncommitted rfl rfl
  | finish i =>
    obtain ⟨a, -, rfl⟩ := move?_finish.mp hm
    exact .uncommitted rfl rfl
  | ask i now =>
    obtain ⟨r, next, -, hp, rfl⟩ := move?_ask.mp hm
    exact h.keeps_ask hw hp _
  | change c =>
    obtain ⟨-, rfl⟩ := move?_change.mp hm
    refine .uncommitted (commits_quiet _ rfl) ?_
    obtain ⟨time, job, height, rfl, -⟩ | ⟨hc, -⟩ := s.shared.committed.changed_cases c
    · exact absurd rfl (hno time job height)
    · exact hc

omit [DecidableEq ι] in
theorem lasting_grows (seen : Database) :
    Lasting growing Anyone Database.Grows fun db (_ : List (Moment ι)) => seen.Grows db where
  query _ _ h := h
  ending _ hg he h := h.trans (he.grows hg)
  change hc h := h.trans (Database.grows_changed _ hc)

theorem Site.Reach.grows {s t : Site ι (Except Stop Outcome)} (h : Reach growing s t)
    (ho : InOrder growing s)
    (hs : ∀ i, s.shared.holder = some i →
      s.shared.committed.Grows s.shared.world.store.current) :
    s.shared.committed.Grows t.shared.committed :=
  (h.obeys (guarantee_grows _) (lasting_grows _) ho ⟨.refl _, fun i _ hi => hs i hi⟩).1

theorem checkpoints_never_go_back {db : Database} {ms : List (Move ι (Except Stop Outcome))}
    {m : Move ι (Except Stop Outcome)} {s t : Site ι (Except Stop Outcome)}
    {saves : List Checkpoint}
    (hno : ∀ time job height, .change (.setCheckpoint time job height) ∉ m :: ms)
    (hs : (Site.ofDatabase db).journal [] ms = some (s, saves)) (ht : s.move? m = some t) :
    (∀ u, Site.Reach growing t u → s.shared.committed.Grows u.shared.committed) ∧
      s.Keeps t saves := by
  have hallows (k : Move ι (Except Stop Outcome)) (hk : k ∈ m :: ms)
      (v : Site ι (Except Stop Outcome)) : growing.Allows v k := by
    cases k with
    | begin i p => exact ⟨trivial, p.asks_true⟩
    | ask i now => trivial
    | finish i => trivial
    | change c =>
      rintro time job height rfl
      exact hno time job height hk
  obtain ⟨hm, hms⟩ := List.forall_mem_cons.mp hallows
  have ho := Site.inOrder_ofDatabase growing db (ι := ι)
  obtain ⟨hreach, haccounts⟩ := Site.journal_reach hms hs ho (Site.accounts_of_free rfl [])
  have ho' := ho.reach hreach
  constructor
  · intro u hu
    refine Site.Reach.grows (.head ⟨m, hm s, ht⟩ hu) ho' ?_
    intro i hi
    exact (hreach.obeys (guarantee_grows _) (lasting_grows db) ho
      (Shared.obeys_of_free rfl (.refl db))).2 i trivial hi
  · refine haccounts.keeps ho'.1 ?_ ht
    rintro time job height rfl
    exact hno time job height List.mem_cons_self

def saveThrice : Work Outcome :=
  Work.unitOfWork do
    Work.command (.saveCheckpoint (.pending "blocks" 7))
    Work.command (.saveCheckpoint (.pending "events" 2))
    Work.command (.saveCheckpoint (.pending "blocks" 3))
    pure (.commit, .idle)

def refusedThenSaved : List (Move Bool (Except Stop Outcome)) :=
  .change (.failCommitAfter 0) :: .begin false raiseBlocks.run ::
    List.replicate 3 (.ask false 0) ++ .finish false :: .begin true saveThrice.run ::
      List.replicate 4 (.ask true 0)

theorem checkpoints_never_go_back_after_refusal :
    ∃ (s t : Site Bool (Except Stop Outcome)) (saves : List Checkpoint),
      (Site.ofDatabase .blocksAtFive).journal [] refusedThenSaved = some (s, saves) ∧
      s.move? (.ask true 0) = some t ∧ saves.map (·.height) = [7, 2, 3] ∧
      s.shared.committed.height? "blocks" = some 5 ∧
      t.shared.committed.height? "blocks" = some 7 ∧
      (∀ u, Site.Reach growing t u → s.shared.committed.Grows u.shared.committed) ∧
      s.Keeps t saves := by
  have hplay : ((Site.ofDatabase .blocksAtFive).journal [] refusedThenSaved).bind (fun p =>
      (p.1.move? (.ask true 0)).map fun t => (p.2.map (·.height),
        p.1.shared.committed.height? "blocks", t.shared.committed.height? "blocks")) =
      some ([7, 2, 3], some 5, some 7) := by
    decide +kernel
  obtain ⟨⟨s, saves⟩, hs, hmove⟩ := Option.bind_eq_some_iff.mp hplay
  obtain ⟨t, ht, hseen⟩ := Option.map_eq_some_iff.mp hmove
  simp only [Prod.mk.injEq] at hseen
  obtain ⟨hsaves, hbefore, hafter⟩ := hseen
  have hno (time : Timestamp) (job : String) (height : Int) :
      .change (.setCheckpoint time job height) ∉ .ask true 0 :: refusedThenSaved := by
    simp [refusedThenSaved]
  obtain ⟨hgrows, hkeeps⟩ := checkpoints_never_go_back hno hs ht
  exact ⟨s, t, saves, hs, ht, hsaves, hbefore, hafter, hgrows, hkeeps⟩

end ChainIndexer
