import ChainIndexer.Proofs.Interleaving.Alone
import ChainIndexer.Proofs.Within

namespace ChainIndexer

open Memory (Database Ends)

structure Pact where
  holds : Database → Prop
  next : Database → Database → Prop
  refl : ∀ db, next db db
  trans : ∀ {a b c}, next a b → next b c → next a c
  agrees : ∀ {a b : Database}, b.Agrees a → next a b ∧ (holds a → holds b)

variable {ι α β γ : Type} {K : Pact} {sure : Sure}

namespace Program

def Honours (K : Pact) (sure : Sure) : Program β → Database → Option Database → Prop
  | .done _, _, o => o = none
  | .ask (.access (.query q)) next, db, none => ∀ db', K.next db db' → K.holds db' →
      (next (db'.answer q)).Honours K sure db' none
  | .ask (.access .opening) next, db, none => ∀ db', K.next db db' → K.holds db' →
      (next (.ok ())).Honours K sure db' (some db')
  | .ask (.access (.command c)) next, db, some cur => ∀ now,
      sure c (cur.perform now c).1 (cur.perform now c).2 ∧
        (next (cur.perform now c).1).Honours K sure db (some (cur.perform now c).2)
  | .ask (.access (.ending e)) next, db, some cur => ∀ x db', Ends db cur e x db' →
      K.next db db' ∧ K.holds db' ∧ (next x).Honours K sure db' none
  | .ask (.access _) _, _, _ => False
  | .ask .clock next, db, o => ∀ x, (next x).Honours K sure db o
  | .ask (.cachedHealth _) next, db, o => ∀ x, (next x).Honours K sure db o
  | .ask (.keepHealth _ _) next, db, o => ∀ x, (next x).Honours K sure db o
  | .ask (.turn _) next, db, o => ∀ x, (next x).Honours K sure db o

theorem honours_done {b : β} {db : Database} : (done b).Honours K sure db none :=
  (rfl : (none : Option Database) = none)

namespace Honours

theorem bind {p : Program β} {f : β → Program γ} {db : Database} {o : Option Database}
    (h : p.Honours K sure db o) (hf : ∀ b db, (f b).Honours K sure db none) :
    (p.bind f).Honours K sure db o := by
  induction p generalizing db o with
  | done b =>
    obtain rfl := h
    exact hf b db
  | ask r next ih =>
    cases r with
    | access a =>
      cases a with
      | query q =>
        cases o with
        | some cur => exact h.elim
        | none =>
          intro db' hnext hholds
          exact ih _ (h db' hnext hholds)
      | opening =>
        cases o with
        | some cur => exact h.elim
        | none =>
          intro db' hnext hholds
          exact ih _ (h db' hnext hholds)
      | command c =>
        cases o with
        | none => exact h.elim
        | some cur =>
          intro now
          exact ⟨(h now).1, ih _ (h now).2⟩
      | ending e =>
        cases o with
        | none => exact h.elim
        | some cur =>
          intro x db' hx
          obtain ⟨hnext, hholds, hrest⟩ := h x db' hx
          exact ⟨hnext, hholds, ih x hrest⟩
    | clock | cachedHealth _ | keepHealth _ _ | turn _ =>
      intro x
      exact ih x (h x)

theorem of_within {p : Program β} {f : β → Program γ} {R : β → Database → Prop}
    {db cur : Database} (h : p.Within sure R cur)
    (hf : ∀ b cur', R b cur' → (f b).Honours K sure db (some cur')) :
    (p.bind f).Honours K sure db (some cur) := by
  induction p generalizing cur with
  | done b => exact hf b cur h
  | ask r next ih =>
    cases r with
    | access a =>
      cases a with
      | command c =>
        intro now
        exact ⟨(h now).1, ih _ (h now).2⟩
      | query _ | opening | ending _ => exact h.elim
    | clock | cachedHealth _ | keepHealth _ _ | turn _ =>
      intro x
      exact ih x (h x)

end Honours

end Program

namespace Work

def Honours (K : Pact) (sure : Sure) (x : Work β) (db : Database) : Prop :=
  x.run.Honours K sure db none

namespace Honours

theorem pure (b : β) (db : Database) : (Pure.pure b : Work β).Honours K sure db :=
  Program.honours_done

theorem seq {x : Work β} {f : β → Work γ} {db : Database} (hx : x.Honours K sure db)
    (hf : ∀ b db, (f b).Honours K sure db) : (x >>= f).Honours K sure db := by
  rw [Honours, run_bind]
  refine Program.Honours.bind hx fun r db' => ?_
  cases r with
  | ok b => exact hf b db'
  | error e => exact Program.honours_done

theorem query {q : Store.Query} {f : q.Answer → Work β} {db : Database}
    (h : ∀ db', K.next db db' → K.holds db' → ∀ a, db'.answer q = .ok a →
      (f a).Honours K sure db') : (Work.query q >>= f).Honours K sure db := by
  intro db' hnext hholds
  have hdb' := h db' hnext hholds
  generalize db'.answer q = x at hdb' ⊢
  cases x with
  | ok a => exact hdb' a rfl
  | error e => exact Program.honours_done

theorem lift {p : Program β} {db : Database} (h : p.Honours K sure db none) :
    (Work.lift p).Honours K sure db :=
  Program.Honours.bind h fun _ _ => Program.honours_done

theorem unlessPresent {x : Work β} {present : β} {db : Database} (h : x.Honours K sure db) :
    (Work.unlessPresent x present).Honours K sure db := by
  refine seq (lift h) fun r db' => ?_
  cases r with
  | ok b => exact pure b db'
  | error stop =>
    have hstop (e : Stop) : (throw e : Work β).Honours K sure db' :=
      Program.honours_done
    cases stop with
    | crash fault => exact hstop _
    | error e =>
      cases e with
      | storage fault =>
        dsimp only
        split
        · exact pure present db'
        · exact hstop _
      | _ => exact hstop _

theorem ending {e : Store.Ending} {f : Unit → Work β} {db cur : Database} (hholds : K.holds db)
    (hcommit : e = .commit → K.next db cur ∧ K.holds cur)
    (hf : ∀ db', (f ()).Honours K sure db') :
    (Work.access (.ending e) >>= f).run.Honours K sure db (some cur) := by
  rw [run_bind]
  intro x db' hends
  have hafter : (Work.after f (Work.ofStore x)).Honours K sure db' none := by
    cases x with
    | ok _ => exact hf db'
    | error fault => exact Program.honours_done
  refine and_assoc.mp ⟨?_, hafter⟩
  cases hends with
  | commit ha =>
    obtain ⟨hnext, hcur⟩ := hcommit rfl
    exact ⟨K.trans hnext (K.agrees ha).1, (K.agrees ha).2 hcur⟩
  | refused ha => exact ⟨(K.agrees ha).1, (K.agrees ha).2 hholds⟩
  | rollback | discard => exact ⟨K.refl _, hholds⟩

theorem unitOfWork {body : Work (Store.Ending × β)} {db : Database}
    (h : ∀ db', K.next db db' → K.holds db' → body.Within sure (fun r cur =>
      ∀ b, r = .ok (.commit, b) → K.next db' cur ∧ K.holds cur) db') :
    (Work.unitOfWork body).Honours K sure db := by
  rw [Honours, Work.unitOfWork, run_bind]
  intro db' hnext hholds
  change (Work.lift body.run >>= _).run.Honours K sure db' (some db')
  rw [run_bind, run_lift, Program.bind_assoc]
  refine Program.Honours.of_within (h db' hnext hholds) fun r cur hcur => ?_
  cases r with
  | ok eb =>
    obtain ⟨e, b⟩ := eb
    exact ending hholds (fun he => hcur b (by rw [he])) fun _ => pure b _
  | error stop =>
    exact ending hholds (fun he => by cases he) fun _ => Program.honours_done

end Honours

end Work

variable [DecidableEq ι] {ρ : Rules ι α} {i j : ι} {now : Nat}

inductive Attends (K : Pact) (sure : Sure) (i : ι) (s : Shared ι) (p : Program α) : Prop
  | outside {db : Database} : s.holder ≠ some i → K.next db s.committed →
      p.Honours K sure db none → Attends K sure i s p
  | inside : s.holder = some i → K.holds s.world.store.current →
      p.Honours K sure s.committed (some s.world.store.current) → Attends K sure i s p

omit [DecidableEq ι] in
theorem Shared.holder_asked {s : Shared ι} {r : Request} (hji : j ≠ i)
    (h : (s.asked i now r).holder = some j) : s.holder = some j := by
  cases r with
  | access a =>
    cases a with
    | query q => exact h
    | opening => exact absurd (Option.some.inj h).symm hji
    | command c => exact h
    | ending e => cases h
  | clock | cachedHealth _ | keepHealth _ _ | turn _ => exact h

namespace Attends

variable {s : Shared ι} {p : Program α} {r : Request} {next : r.Answer → Program α}

omit [DecidableEq ι] in
theorem aside (h : Attends K sure i s (.ask r next)) (hr : r.IsAside) :
    Attends K sure i (s.asked i now r) (next (s.reply now r)) := by
  obtain ⟨hstore, hholder, -⟩ := Shared.asked_aside s i now hr
  have hcommitted : (s.asked i now r).committed = s.committed := by
    rw [Shared.committed, hstore, Shared.committed]
  cases h with
  | outside hh hnext hp =>
    refine .outside (hholder ▸ hh) (hcommitted ▸ hnext) ?_
    cases r with
    | access a => exact hr.elim
    | clock | cachedHealth _ | keepHealth _ _ | turn _ => exact hp _
  | inside hh hcur hp =>
    refine .inside (hholder.trans hh) (hstore ▸ hcur) ?_
    rw [hcommitted, hstore]
    cases r with
    | access a => exact hr.elim
    | clock | cachedHealth _ | keepHealth _ _ | turn _ => exact hp _

omit [DecidableEq ι] in
theorem free (h : Attends K sure i s p) (hs : s.holder = none) :
    ∃ db, K.next db s.committed ∧ p.Honours K sure db none := by
  cases h with
  | outside _ hnext hp => exact ⟨_, hnext, hp⟩
  | inside hh _ _ => rw [hs] at hh; cases hh

omit [DecidableEq ι] in
theorem held (h : Attends K sure i s p) (hs : s.holder = some i) :
    K.holds s.world.store.current ∧
      p.Honours K sure s.committed (some s.world.store.current) := by
  cases h with
  | outside hh _ _ => exact absurd hs hh
  | inside _ hcur hp => exact ⟨hcur, hp⟩

omit [DecidableEq ι] in
theorem query {q : Store.Query} {next : Store.Result q.Answer → Program α}
    (h : Attends K sure i s (.ask (.access (.query q)) next)) (hw : s.WellLocked)
    (hs : K.holds s.committed) (hn : s.holder = none) :
    Attends K sure i (s.asked i now (.access (.query q)))
      (next (s.reply now (.access (.query q)))) := by
  obtain ⟨hworld, hholder, -⟩ := Shared.asked_query s i now q
  obtain ⟨db, hnext, hhonours⟩ := h.free hn
  have hcommitted : (s.asked i now (.access (.query q))).committed = s.committed := by
    rw [Shared.committed, hworld, Shared.committed]
  have hreply : s.reply now (.access (.query q)) = s.committed.answer q := by
    rw [Shared.committed_of_free hw hn]
    rfl
  refine .outside (by simp [hholder, hn]) (K.refl _) ?_
  rw [hcommitted, hreply]
  exact hhonours s.committed hnext hs

omit [DecidableEq ι] in
theorem opening {next : Store.Result Unit → Program α}
    (h : Attends K sure i s (.ask (.access .opening) next)) (hw : s.WellLocked)
    (hs : K.holds s.committed) (hn : s.holder = none) :
    Attends K sure i (s.asked i now (.access .opening)) (next (.ok ())) := by
  obtain ⟨hstore, hholder, -⟩ := Shared.asked_opening s i now
  rw [← Shared.committed_of_free hw hn] at hstore
  obtain ⟨db, hnext, hhonours⟩ := h.free hn
  refine .inside hholder (hstore ▸ hs) ?_
  rw [Shared.committed, hstore]
  exact hhonours s.committed hnext hs

omit [DecidableEq ι] in
theorem command {c : Store.Command} {next : Store.Result c.Answer → Program α}
    (hsure : ∀ c x db, sure c x db → K.holds db)
    (h : Attends K sure i s (.ask (.access (.command c)) next)) (hw : s.WellLocked)
    (hh : s.holder = some i) : Attends K sure i (s.asked i now (.access (.command c)))
      (next (s.reply now (.access (.command c)))) := by
  obtain ⟨hstore, hreply, hholder, -⟩ := Shared.asked_command i now hw hh c
  obtain ⟨hsurely, hhonours⟩ := (h.held hh).2 (.ofMillis now)
  refine .inside (hholder.trans hh) (hstore ▸ hsure _ _ _ hsurely) ?_
  rw [Shared.committed, hstore, hreply]
  exact hhonours

omit [DecidableEq ι] in
theorem ending {e : Store.Ending} {next : Store.Result Unit → Program α}
    (h : Attends K sure i s (.ask (.access (.ending e)) next)) (hw : s.WellLocked)
    (hh : s.holder = some i) :
    Attends K sure i (s.asked i now (.access (.ending e)))
      (next (s.reply now (.access (.ending e)))) ∧
      K.next s.committed (s.asked i now (.access (.ending e))).committed ∧
      K.holds (s.asked i now (.access (.ending e))).committed := by
  have hheld := held_of_holder hw hh
  have hclosed := hheld.closed now e
  have hreply : s.reply now (.access (.ending e)) =
      (Memory.Engine.finish ⟨s.world.store.current, some s.committed⟩ e).1 := by
    rw [← hheld.store]
    rfl
  obtain ⟨hnext, hholds, hhonours⟩ := (h.held hh).2 _ _ hclosed.ends
  refine ⟨.outside (by simp [hclosed.holder]) (K.refl _) ?_, hnext, hholds⟩
  rw [hreply]
  exact hhonours

theorem asked (hsure : ∀ c x db, sure c x db → K.holds db)
    (h : Attends K sure i s (.ask r next)) (now : Nat) (hw : s.WellLocked)
    (hs : K.holds s.committed) (hp : s.permits i r = true) :
    Attends K sure i (s.asked i now r) (next (s.reply now r)) ∧
      K.next s.committed (s.asked i now r).committed ∧ K.holds (s.asked i now r).committed := by
  have hstays (hr : ∀ e, r ≠ .access (.ending e)) :
      K.next s.committed (s.asked i now r).committed ∧ K.holds (s.asked i now r).committed := by
    rw [Shared.committed_asked hw hp now hr]
    exact ⟨K.refl _, hs⟩
  by_cases hr : r.IsAside
  · exact ⟨h.aside hr, hstays fun e he => by rw [he] at hr; exact hr⟩
  cases r with
  | access a =>
    cases a with
    | query q =>
      have hn : s.holder = none := by simpa [Shared.permits] using hp
      exact ⟨h.query hw hs hn, hstays fun e he => by cases he⟩
    | opening =>
      have hn : s.holder = none := by simpa [Shared.permits] using hp
      exact ⟨h.opening hw hs hn, hstays fun e he => by cases he⟩
    | command c =>
      have hh : s.holder = some i := by simpa [Shared.permits] using hp
      exact ⟨h.command hsure hw hh, hstays fun e he => by cases he⟩
    | ending e =>
      have hh : s.holder = some i := by simpa [Shared.permits] using hp
      exact h.ending hw hh
  | clock | cachedHealth _ | keepHealth _ _ | turn _ => exact (hr trivial).elim

theorem asked_other (h : Attends K sure j s p) (hji : j ≠ i) (hp : s.permits i r = true)
    (hk : K.next s.committed (s.asked i now r).committed) :
    Attends K sure j (s.asked i now r) p := by
  cases h with
  | outside hh hnext hp' =>
    exact .outside (mt (Shared.holder_asked hji) hh) (K.trans hnext hk) hp'
  | inside hh hcur hp' =>
    obtain ⟨h1, h2, -⟩ := Shared.asked_aside s i now (permits_of_held_by_other hh hji.symm hp)
    refine .inside (h2.trans hh) (h1 ▸ hcur) ?_
    rwa [Shared.committed, h1]

end Attends

namespace Site

structure Cooperates (K : Pact) (sure : Sure) (s : Site ι α) : Prop where
  holds : K.holds s.shared.committed
  owned : ∀ i, s.shared.holder = some i → ∃ p, s.ticks i = some p
  attends : ∀ i p, s.ticks i = some p → Attends K sure i s.shared p

omit [DecidableEq ι] in
theorem cooperates_ofDatabase {db : Database} (h : K.holds db) :
    (ofDatabase db : Site ι α).Cooperates K sure := by
  refine ⟨h, fun i hi => ?_, fun i p hi => ?_⟩
  · cases hi
  · cases hi

variable {s t : Site ι α}

theorem Cooperates.step (hsure : ∀ c x db, sure c x db → K.holds db)
    (hwork : ∀ i p db, ρ.work i p → K.holds db → p.Honours K sure db none)
    (hchange : ∀ c db, ρ.change db c → K.holds db →
      K.next db (db.changed c) ∧ K.holds (db.changed c))
    (h : s.Cooperates K sure) (ho : InOrder ρ s) (hs : Step ρ s t) : t.Cooperates K sure := by
  obtain ⟨m, ha, hm⟩ := hs
  cases m with
  | begin i p =>
    obtain ⟨hi, rfl⟩ := move?_begin.mp hm
    have hfree : s.shared.holder ≠ some i := by
      intro hh
      obtain ⟨q, hq⟩ := h.owned i hh
      rw [hi] at hq
      cases hq
    refine ⟨h.holds, fun j hj => ?_, fun j q hj => ?_⟩
    · have hji : j ≠ i := fun e => hfree (e ▸ hj)
      obtain ⟨q, hq⟩ := h.owned j hj
      exact ⟨q, (Function.update_of_ne hji _ _).trans hq⟩
    · obtain ⟨rfl, hq⟩ | ⟨-, hq⟩ := ticks_update hj
      · obtain rfl := Option.some.inj hq
        exact .outside hfree (K.refl _) (hwork j p _ ha.1 h.holds)
      · exact h.attends j q hq
  | ask i now =>
    obtain ⟨r, next, hi, hp, rfl⟩ := move?_ask.mp hm
    obtain ⟨hattends, hnext, hholds⟩ := (h.attends i _ hi).asked hsure now ho.1 h.holds hp
    refine ⟨hholds, fun j hj => ?_, fun j q hj => ?_⟩
    · by_cases hji : j = i
      · subst hji
        exact ⟨_, Function.update_self ..⟩
      · obtain ⟨q, hq⟩ := h.owned j (Shared.holder_asked hji hj)
        exact ⟨q, (Function.update_of_ne hji _ _).trans hq⟩
    · obtain ⟨rfl, hq⟩ | ⟨hji, hq⟩ := ticks_update hj
      · exact Option.some.inj hq ▸ hattends
      · exact (h.attends j q hq).asked_other hji hp hnext
  | finish i =>
    obtain ⟨a, hi, rfl⟩ := move?_finish.mp hm
    refine ⟨h.holds, fun j hj => ?_, fun j q hj => ?_⟩
    · have hji : j ≠ i := by
        rintro rfl
        have hdone := ((h.attends j _ hi).held hj).2
        cases hdone
      obtain ⟨q, hq⟩ := h.owned j hj
      exact ⟨q, (Function.update_of_ne hji _ _).trans hq⟩
    · obtain ⟨-, hq⟩ | ⟨-, hq⟩ := ticks_update hj
      · cases hq
      · exact h.attends j q hq
  | change c =>
    obtain ⟨hn, rfl⟩ := move?_change.mp hm
    obtain ⟨hnext, hholds⟩ := hchange c _ ha h.holds
    refine ⟨hholds, fun j hj => ?_, fun j q hj => ?_⟩
    · rw [Shared.changed, hn] at hj
      cases hj
    · obtain ⟨db, hdb, hq⟩ := (h.attends j q hj).free hn
      exact .outside (by simp [Shared.changed, hn]) (K.trans hdb hnext) hq

theorem Cooperates.reach (hsure : ∀ c x db, sure c x db → K.holds db)
    (hwork : ∀ i p db, ρ.work i p → K.holds db → p.Honours K sure db none)
    (hchange : ∀ c db, ρ.change db c → K.holds db →
      K.next db (db.changed c) ∧ K.holds (db.changed c))
    (h : s.Cooperates K sure) (ho : InOrder ρ s) (hs : Reach ρ s t) : t.Cooperates K sure := by
  induction hs with
  | refl => exact h
  | tail hr hstep ih => exact ih.step hsure hwork hchange (ho.reach hr) hstep

omit [DecidableEq ι] in
theorem Cooperates.current (h : s.Cooperates K sure) (hw : s.shared.WellLocked) :
    K.holds s.shared.world.store.current := by
  cases hh : s.shared.holder with
  | none => exact Shared.committed_of_free hw hh ▸ h.holds
  | some i =>
    obtain ⟨p, hp⟩ := h.owned i hh
    exact ((h.attends i p hp).held hh).1

omit [DecidableEq ι] in
theorem Cooperates.surely {c : Store.Command} {next : Store.Result c.Answer → Program α}
    (h : s.Cooperates K sure) (hw : s.shared.WellLocked)
    (hi : s.ticks i = some (.ask (.access (.command c)) next))
    (hh : s.shared.holder = some i) (now : Nat) :
    ∃ db, sure c (s.shared.reply now (.access (.command c))) db := by
  rw [(Shared.asked_command i now hw hh c).2.1]
  exact ⟨_, (((h.attends i _ hi).held hh).2 (.ofMillis now)).1⟩

end Site

end ChainIndexer
