import ChainIndexer.Proofs.Interleaving.Ledger
import ChainIndexer.Proofs.Interleaving.UnitOfWork

namespace ChainIndexer

open Memory (Database Engine Table)

theorem Memory.Engine.finish_restores (db cur : Database) {e : Store.Ending} (he : e ≠ .commit) :
    finish ⟨cur, some db⟩ e = (.ok (), ⟨db, none⟩) := by
  cases e with
  | commit => exact absurd rfl he
  | rollback | discard => rfl

variable {ι α : Type} [DecidableEq ι]

namespace Shared

omit [DecidableEq ι] in
theorem eq_or_held_of_asked {s : Shared ι} {i j : ι} {now : Nat} {r : Request}
    (h : (s.asked i now r).holder = some j) : j = i ∨ s.holder = some j := by
  cases r with
  | access a =>
    cases a with
    | opening => exact .inl (Option.some.inj h).symm
    | ending _ => cases h
    | query _ | command _ => exact .inr h
  | clock | cachedHealth _ | keepHealth _ _ | turn _ => exact .inr h

def draftOf (s : Shared ι) (name : ι → String) (i : ι) : Option Table :=
  if s.holder = some i then s.world.store.current.tables.find? (name i) else none

theorem draftOf_of_ne {s : Shared ι} {name : ι → String} {i : ι} (h : s.holder ≠ some i) :
    s.draftOf name i = none := if_neg h

theorem draftOf_of_held {s : Shared ι} {name : ι → String} {i : ι} (h : s.holder = some i) :
    s.draftOf name i = s.world.store.current.tables.find? (name i) := if_pos h

theorem draftOf_of_held_by_other {s : Shared ι} {i j : ι} (h : s.holder = some i) (hj : j ≠ i)
    (name : ι → String) : s.draftOf name j = none := by
  refine draftOf_of_ne ?_
  rw [h]
  exact fun he => hj (Option.some.inj he).symm

end Shared

structure Kept (start : Database) (name : ι → String) (errand : ι → Errand α)
    (tasks : List (ι × Program α)) (l : Ledger ι) (s : Shared ι) : Prop where
  locked : s.WellLocked
  tends : ∀ f ∈ tasks, ∃ kept, s.committed.tables.find? (name f.1) = some kept ∧
    f.2.Tends (name f.1) (errand f.1).Ends ⟨kept, s.draftOf name f.1, l.turnout f.1⟩
  draft : ∀ i, s.holder = some i →
    ∃ cur, s.world.store.current = s.committed.putTable (name i) cur
  others : ∀ k, k ∉ tasks.map (fun f => name f.1) →
    s.committed.tables.find? k = start.tables.find? k
  listed : ∀ i, l.turnout i ≠ .untried → i ∈ tasks.map (·.1)
  accounts : l.Accounts start s.committed

namespace Kept

variable {start : Database} {name : ι → String} {errand : ι → Errand α}
  {tasks before after : List (ι × Program α)} {l l' : Ledger ι} {s s' : Shared ι} {i : ι}
  {p p' : Program α}

theorem advance (h : Kept start name errand (before ++ (i, p) :: after) l s)
    (hnames : ((before ++ (i, p) :: after).map fun f => name f.1).Nodup)
    (hothers : ∀ k, k ≠ name i → s'.committed.tables.find? k = s.committed.tables.find? k)
    (hdrafts : ∀ j, j ≠ i → s'.draftOf name j = s.draftOf name j)
    (hturnouts : ∀ j, j ≠ i → l'.turnout j = l.turnout j) (hlocked : s'.WellLocked)
    (hdraft : ∀ j, s'.holder = some j →
      ∃ cur, s'.world.store.current = s'.committed.putTable (name j) cur)
    (haccounts : l'.Accounts start s'.committed)
    (htends : ∃ kept, s'.committed.tables.find? (name i) = some kept ∧
      p'.Tends (name i) (errand i).Ends ⟨kept, s'.draftOf name i, l'.turnout i⟩) :
    Kept start name errand (before ++ (i, p') :: after) l' s' := by
  have hsame (g : ι × Program α → String) (hg : g (i, p') = g (i, p)) :
      (before ++ (i, p') :: after).map g = (before ++ (i, p) :: after).map g := by
    rw [List.map_append, List.map_append, List.map_cons, List.map_cons, hg]
  have hapart (f : ι × Program α) (hf : f ∈ before ∨ f ∈ after) : name f.1 ≠ name i := by
    intro he
    rw [List.map_append, List.map_cons, List.nodup_middle, List.nodup_cons] at hnames
    refine hnames.1 (he ▸ ?_)
    rw [← List.map_append]
    exact List.mem_map_of_mem (f := fun f : ι × Program α => name f.1) (List.mem_append.mpr hf)
  refine ⟨hlocked, fun f hf => ?_, hdraft, fun k hk => ?_, fun j hj => ?_, haccounts⟩
  · have hold (hf : f ∈ before ∨ f ∈ after) : ∃ kept,
        s'.committed.tables.find? (name f.1) = some kept ∧
        f.2.Tends (name f.1) (errand f.1).Ends ⟨kept, s'.draftOf name f.1, l'.turnout f.1⟩ := by
      have hne := hapart f hf
      have hi : f.1 ≠ i := fun he => hne (congrArg name he)
      rw [hothers _ hne, hdrafts _ hi, hturnouts _ hi]
      exact h.tends f (List.mem_append.mpr (hf.imp_right (List.mem_cons_of_mem _)))
    obtain hf | hf := List.mem_append.mp hf
    · exact hold (.inl hf)
    · obtain rfl | hf := List.mem_cons.mp hf
      · exact htends
      · exact hold (.inr hf)
  · rw [hsame _ rfl] at hk
    refine (hothers k fun he => hk (he ▸ ?_)).trans (h.others k hk)
    exact List.mem_map_of_mem (f := fun f : ι × Program α => name f.1)
      (List.mem_append_right _ (List.mem_cons_self (a := (i, p))))
  · have hkeys : (before ++ (i, p') :: after).map (·.1) =
        (before ++ (i, p) :: after).map (·.1) := by
      rw [List.map_append, List.map_append, List.map_cons, List.map_cons]
    rw [hkeys]
    by_cases hi : j = i
    · subst hi
      exact List.mem_map_of_mem (f := Prod.fst)
        (List.mem_append_right _ (List.mem_cons_self (a := (j, p))))
    · exact h.listed j (hturnouts j hi ▸ hj)

theorem tends_mem (h : Kept start name errand (before ++ (i, p) :: after) l s) :
    ∃ kept, s.committed.tables.find? (name i) = some kept ∧
      p.Tends (name i) (errand i).Ends ⟨kept, s.draftOf name i, l.turnout i⟩ :=
  h.tends (i, p) (List.mem_append_right _ (List.mem_cons_self ..))

theorem draftOf_ne_none (h : Kept start name errand tasks l s) (hheld : s.holder = some i) :
    s.draftOf name i ≠ none := by
  obtain ⟨cur, hcur⟩ := h.draft i hheld
  rw [Shared.draftOf_of_held hheld, hcur, Database.find?_putTable_self]
  nofun

theorem not_held_of_done (h : Kept start name errand tasks l s) {a : α}
    (ha : (i, .done a) ∈ tasks) : s.holder ≠ some i := by
  intro hheld
  refine h.draftOf_ne_none hheld ?_
  obtain ⟨kept, -, hends⟩ := h.tends _ ha
  exact Errand.Ends.draft hends

variable {r : Request} {next : r.Answer → Program α}

theorem permits (h : Kept start name errand (before ++ (i, .ask r next) :: after) l s)
    (hfree : s.holder = none ∨ s.holder = some i) : s.permits i r = true := by
  obtain ⟨kept, -, htends⟩ := h.tends_mem
  have hopen (hnone : s.draftOf name i = none) : s.holder = none :=
    hfree.resolve_right fun hheld => h.draftOf_ne_none hheld hnone
  have hheld (hsome : s.draftOf name i ≠ none) : s.holder = some i := by
    refine hfree.resolve_left fun hnone => hsome (Shared.draftOf_of_ne ?_)
    rw [hnone]
    nofun
  cases r with
  | access a =>
    cases a with
    | query q => exact decide_eq_true (hopen htends.1)
    | opening => exact decide_eq_true (hopen htends.1)
    | command c =>
      obtain ⟨a, cur, cur', hdraft, -⟩ := htends
      exact decide_eq_true (hheld fun hnone => by rw [hnone] at hdraft; cases hdraft)
    | ending e =>
      cases e with
      | commit =>
        obtain ⟨cur, hdraft, -⟩ := htends
        exact decide_eq_true (hheld fun hnone => by rw [hnone] at hdraft; cases hdraft)
      | rollback | discard => exact decide_eq_true (hheld htends.1)
  | clock | cachedHealth _ | keepHealth _ _ | turn _ => exact htends.elim

section

variable {q : Store.Query} {c : Store.Command} {e : Store.Ending}

theorem query {next : (Request.access (.query q)).Answer → Program α}
    (h : Kept start name errand (before ++ (i, .ask _ next) :: after) l s)
    (hnames : ((before ++ (i, .ask _ next) :: after).map fun f => name f.1).Nodup) (now : Nat)
    (hpermits : s.permits i (.access (.query q)) = true) : Kept start name errand
      (before ++ (i, next (s.reply now (.access (.query q)))) :: after) l
      (s.asked i now (.access (.query q))) := by
  have hfree : s.holder = none := of_decide_eq_true hpermits
  obtain ⟨kept, hkept, -, hnext⟩ := h.tends_mem
  have hreply : s.reply now (.access (.query q)) = s.committed.answer q := by
    rw [Shared.committed_of_free h.locked hfree]
    rfl
  refine h.advance hnames (fun _ _ => rfl) (fun _ _ => rfl) (fun _ _ => rfl)
    (Shared.wellLocked_asked h.locked hpermits) h.draft h.accounts ⟨kept, hkept, ?_⟩
  rw [hreply]
  exact hnext _ hkept

theorem opening {next : (Request.access .opening).Answer → Program α}
    (h : Kept start name errand (before ++ (i, .ask _ next) :: after) l s)
    (hnames : ((before ++ (i, .ask _ next) :: after).map fun f => name f.1).Nodup) (now : Nat)
    (hpermits : s.permits i (.access .opening) = true) : Kept start name errand
      (before ++ (i, next (s.reply now (.access .opening))) :: after) l
      (s.asked i now (.access .opening)) := by
  have hfree : s.holder = none := of_decide_eq_true hpermits
  have hcommitted := Shared.committed_asked h.locked hpermits now nofun
  obtain ⟨hstore, hheld, -⟩ := Shared.asked_opening s i now
  rw [← Shared.committed_of_free h.locked hfree] at hstore
  obtain ⟨kept, hkept, -, hnext⟩ := h.tends_mem
  refine h.advance hnames (fun _ _ => by rw [hcommitted]) (fun j hj => ?_) (fun _ _ => rfl)
    (Shared.wellLocked_asked h.locked hpermits) (fun j hj => ?_) (hcommitted ▸ h.accounts)
    ⟨kept, by rw [hcommitted, hkept], ?_⟩
  · rw [Shared.draftOf_of_held_by_other hheld hj, Shared.draftOf_of_ne]
    rw [hfree]
    nofun
  · obtain rfl := Option.some.inj (hheld.symm.trans hj)
    exact ⟨kept, by rw [hstore, hcommitted, Database.putTable_of_find? hkept]⟩
  · rw [Shared.draftOf_of_held hheld, hstore, hkept]
    exact hnext

theorem command {next : (Request.access (.command c)).Answer → Program α}
    (h : Kept start name errand (before ++ (i, .ask _ next) :: after) l s)
    (hnames : ((before ++ (i, .ask _ next) :: after).map fun f => name f.1).Nodup) (now : Nat)
    (hpermits : s.permits i (.access (.command c)) = true) : Kept start name errand
      (before ++ (i, next (s.reply now (.access (.command c)))) :: after) l
      (s.asked i now (.access (.command c))) := by
  have hheld : s.holder = some i := of_decide_eq_true hpermits
  have hcommitted := Shared.committed_asked h.locked hpermits now nofun
  obtain ⟨hstore, hreply, hholder, -⟩ := Shared.asked_command i now h.locked hheld c
  obtain ⟨cur, hcur⟩ := h.draft i hheld
  obtain ⟨kept, hkept, a, _, cur', hdraft, hperform, hnext⟩ := h.tends_mem
  have hfound : s.world.store.current.tables.find? (name i) = some cur := by
    rw [hcur, Database.find?_putTable_self]
  obtain rfl := Option.some.inj (hdraft.symm.trans ((Shared.draftOf_of_held hheld).trans hfound))
  rw [hperform (.ofMillis now) _ hfound, hcur, Database.putTable_putTable] at hstore hreply
  refine h.advance hnames (fun _ _ => by rw [hcommitted]) (fun j hj => ?_) (fun _ _ => rfl)
    (Shared.wellLocked_asked h.locked hpermits) (fun j hj => ?_) (hcommitted ▸ h.accounts)
    ⟨kept, by rw [hcommitted, hkept], ?_⟩
  · rw [Shared.draftOf_of_held_by_other hheld hj,
      Shared.draftOf_of_held_by_other (hholder.trans hheld) hj]
  · obtain rfl := Option.some.inj (hheld.symm.trans (hholder.symm.trans hj))
    exact ⟨cur', by rw [hstore, hcommitted]⟩
  · rw [hreply, Shared.draftOf_of_held (hholder.trans hheld), hstore, Database.find?_putTable_self]
    exact hnext

theorem ended {next : (Request.access (.ending e)).Answer → Program α} {db : Database}
    {x : Store.Result Unit} (h : Kept start name errand (before ++ (i, .ask _ next) :: after) l s)
    (hnames : ((before ++ (i, .ask _ next) :: after).map fun f => name f.1).Nodup) (now : Nat)
    (hpermits : s.permits i (.access (.ending e)) = true)
    (hfinish : s.world.store.finish e = (x, ⟨db, none⟩))
    (hothers : ∀ k, k ≠ name i → db.tables.find? k = s.committed.tables.find? k)
    (hturnouts : ∀ j, j ≠ i → l'.turnout j = l.turnout j) (haccounts : l'.Accounts start db)
    (htends : ∃ kept, db.tables.find? (name i) = some kept ∧
      (next x).Tends (name i) (errand i).Ends ⟨kept, none, l'.turnout i⟩) :
    Kept start name errand
      (before ++ (i, next (s.reply now (.access (.ending e)))) :: after) l'
      (s.asked i now (.access (.ending e))) := by
  have hheld : s.holder = some i := of_decide_eq_true hpermits
  obtain ⟨hstore, hholder, -⟩ := Shared.asked_ending s i now e
  have hfree (j : ι) : (s.asked i now (.access (.ending e))).holder ≠ some j := by
    rw [hholder]
    nofun
  have hreply : s.reply now (.access (.ending e)) = x := congrArg Prod.fst hfinish
  rw [hfinish] at hstore
  have hcommitted : (s.asked i now (.access (.ending e))).committed = db := by
    rw [Shared.committed, hstore]
    rfl
  obtain ⟨kept, hkept, hnext⟩ := htends
  refine h.advance hnames (fun k hk => hcommitted ▸ hothers k hk) (fun j hj => ?_) hturnouts
    (Shared.wellLocked_asked h.locked hpermits) (fun j hj => absurd hj (hfree j))
    (hcommitted ▸ haccounts) ⟨kept, hcommitted ▸ hkept, ?_⟩
  · rw [Shared.draftOf_of_held_by_other hheld hj, Shared.draftOf_of_ne (hfree j)]
  · rw [hreply, Shared.draftOf_of_ne (hfree i)]
    exact hnext

theorem commit {next : (Request.access (.ending .commit)).Answer → Program α}
    (h : Kept start name errand (before ++ (i, .ask _ next) :: after) l s)
    (hnames : ((before ++ (i, .ask _ next) :: after).map fun f => name f.1).Nodup) (now : Nat)
    (hpermits : s.permits i (.access (.ending .commit)) = true) : ∃ l', Kept start name errand
      (before ++ (i, next (s.reply now (.access (.ending .commit)))) :: after) l'
      (s.asked i now (.access (.ending .commit))) := by
  have hheld : s.holder = some i := of_decide_eq_true hpermits
  have hstore := Shared.store_of_held h.locked hheld
  obtain ⟨cur, hcur⟩ := h.draft i hheld
  obtain ⟨kept, hkept, cur', hdraft, huntried, hmade, hrefused⟩ := h.tends_mem
  rw [Shared.draftOf_of_held hheld, hcur, Database.find?_putTable_self] at hdraft
  obtain rfl := Option.some.inj hdraft
  rw [hcur] at hstore
  -- the commit that is to fail leaves the table as it was, any other one keeps the draft
  by_cases hfail : s.committed.failCommitAfter = some 0
  · obtain ⟨hclean, haccounts⟩ := h.accounts.strike huntried hfail
    have hfinish : s.world.store.finish .commit = (.error (.transient .commitRefused),
        ⟨{ s.committed with failCommitAfter := none }, none⟩) := by
      rw [hstore]
      exact if_pos hfail
    refine ⟨l.strike i, h.ended hnames now hpermits hfinish (fun _ _ => rfl)
      (fun j hj => Ledger.turnout_strike_of_ne hj hclean) haccounts ⟨kept, hkept, ?_⟩⟩
    rw [Ledger.turnout_strike_self]
    exact hrefused
  · have hfinish := congrArg (Engine.finish · .commit) hstore
    refine ⟨l.make i, h.ended hnames now hpermits (hfinish.trans (if_neg hfail)) (fun k hk => ?_)
      (fun j hj => Ledger.turnout_make_of_ne hj)
      ((h.accounts.putTable (name i) cur).make huntried hfail) ⟨cur, ?_, ?_⟩⟩
    · exact Database.find?_putTable_of_ne _ hk _
    · exact Database.find?_putTable_self ..
    · rw [Ledger.turnout_make_self huntried]
      exact hmade

theorem asked {r : Request} {next : r.Answer → Program α}
    (h : Kept start name errand (before ++ (i, .ask r next) :: after) l s)
    (hnames : ((before ++ (i, .ask r next) :: after).map fun f => name f.1).Nodup) (now : Nat)
    (hpermits : s.permits i r = true) : ∃ l', Kept start name errand
      (before ++ (i, next (s.reply now r)) :: after) l' (s.asked i now r) := by
  cases r with
  | access a =>
    cases a with
    | query q => exact ⟨l, h.query hnames now hpermits⟩
    | opening => exact ⟨l, h.opening hnames now hpermits⟩
    | command c => exact ⟨l, h.command hnames now hpermits⟩
    | ending e =>
      cases e with
      | commit => exact h.commit hnames now hpermits
      | rollback | discard =>
        obtain ⟨kept, hkept, -, hnext⟩ := h.tends_mem
        refine ⟨l, h.ended hnames now hpermits ?_ (fun _ _ => rfl) (fun _ _ => rfl) h.accounts
          ⟨kept, hkept, hnext⟩⟩
        rw [Shared.store_of_held h.locked (of_decide_eq_true hpermits)]
        exact Engine.finish_restores _ _ nofun
  | clock | cachedHealth _ | keepHealth _ _ | turn _ =>
    obtain ⟨_, -, hnever⟩ := h.tends_mem
    exact hnever.elim

end

end Kept

end ChainIndexer
