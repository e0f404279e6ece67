import ChainIndexer.Proofs.Interleaving.Upkeep

namespace ChainIndexer

open Memory (Database Table)

variable {ι α : Type} [DecidableEq ι]

def dues (errand : ι → Errand α) (items : List ι) : Nat := items.countP fun i => (errand i).due

omit [DecidableEq ι] in
theorem length_spared (errand : ι → Errand α) (items : List ι) :
    (items.filter fun i => (errand i).due && (none : Option ι) ≠ some i).length =
      dues errand items := by
  rw [dues, List.countP_eq_length_filter]
  simp

theorem length_spared_succ {errand : ι → Errand α} {items : List ι} {i : ι} (hitems : items.Nodup)
    (hi : i ∈ items) (hdue : (errand i).due = true) :
    (items.filter fun j => (errand j).due && some i ≠ some j).length + 1 = dues errand items := by
  have herase : (items.filter fun j => (errand j).due && some i ≠ some j) =
      (items.filter fun j => (errand j).due).erase i := by
    rw [(hitems.filter _).erase_eq_filter, List.filter_filter]
    refine List.filter_congr fun j _ => Bool.eq_iff_iff.mpr ?_
    simp only [Bool.and_eq_true, decide_eq_true_eq, ne_eq, Option.some.injEq, bne_iff_ne]
    rw [and_comm, eq_comm]
  rw [herase, List.length_erase_add_one (List.mem_filter.mpr ⟨hi, hdue⟩), dues,
    List.countP_eq_length_filter]

structure Accomplished (start : Database) (name : ι → String) (errand : ι → Errand α)
    (items : List ι) (hit : Option ι) (db : Database) : Prop where
  tables : ∀ i ∈ items, db.tables.find? (name i) =
    some (if hit = some i then (errand i).start else (errand i).goal)
  others : ∀ k, k ∉ items.map name → db.tables.find? k = start.tables.find? k
  frame : db = { start with
    tables := db.tables
    failCommitAfter := db.failCommitAfter
    commits := db.commits }
  clean : hit = none → db.commits = start.commits + dues errand items ∧
    db.failCommitAfter = start.failCommitAfter.map (· - dues errand items) ∧
    ∀ n, start.failCommitAfter = some n → dues errand items ≤ n
  struck : ∀ i, hit = some i → i ∈ items ∧ (errand i).due = true ∧
    db.commits + 1 = start.commits + dues errand items ∧ db.failCommitAfter = none ∧
    ∃ n, start.failCommitAfter = some n ∧ n < dues errand items

namespace Accomplished

variable {start mid db db' free : Database} {name : ι → String} {errand errand' : ι → Errand α}
  {items more : List ι} {hit hit' : Option ι}

theorem nil (start : Database) (name : ι → String) (errand : ι → Errand α) :
    Accomplished start name errand [] none start := by
  refine ⟨nofun, fun _ _ => rfl, rfl, fun _ => ⟨rfl, ?_, fun n _ => Nat.zero_le n⟩, nofun⟩
  cases start.failCommitAfter <;> rfl

theorem congr (h : Accomplished start name errand items hit db)
    (he : ∀ i ∈ items, errand i = errand' i) :
    Accomplished start name errand' items hit db := by
  have hcount : dues errand' items = dues errand items :=
    List.countP_congr fun i hi => by rw [he i hi]
  refine ⟨fun i hi => he i hi ▸ h.tables i hi, h.others, h.frame, hcount ▸ h.clean, fun i hi => ?_⟩
  obtain ⟨hin, hdue, hrest⟩ := h.struck i hi
  exact ⟨hin, he i hin ▸ hdue, hcount ▸ hrest⟩

theorem unique (h : Accomplished start name errand items hit db)
    (h' : Accomplished start name errand items hit db') : db = db' := by
  have htables : db.tables = db'.tables := by
    refine OrderedMap.ext_find? fun k => ?_
    by_cases hk : k ∈ items.map name
    · obtain ⟨i, hi, rfl⟩ := List.mem_map.mp hk
      rw [h.tables i hi, h'.tables i hi]
    · rw [h.others k hk, h'.others k hk]
  have hcounts : db.commits = db'.commits ∧ db.failCommitAfter = db'.failCommitAfter := by
    cases hhit : hit with
    | none =>
      obtain ⟨hcommits, hfail, -⟩ := h.clean hhit
      obtain ⟨hcommits', hfail', -⟩ := h'.clean hhit
      exact ⟨hcommits.trans hcommits'.symm, hfail.trans hfail'.symm⟩
    | some i =>
      obtain ⟨-, -, hcommits, hfail, -⟩ := h.struck i hhit
      obtain ⟨-, -, hcommits', hfail', -⟩ := h'.struck i hhit
      exact ⟨Nat.succ.inj (hcommits.trans hcommits'.symm), hfail.trans hfail'.symm⟩
  rw [h.frame, h'.frame, htables, hcounts.1, hcounts.2]

theorem frame_clean (h : Accomplished start name errand items none db) :
    db = { start with
      tables := db.tables
      failCommitAfter := start.failCommitAfter.map (· - dues errand items)
      commits := start.commits + dues errand items } := by
  obtain ⟨hcommits, hfail, -⟩ := h.clean rfl
  have hframe := h.frame
  rwa [hcommits, hfail] at hframe

theorem hit_eq_none (h : Accomplished start name errand items hit db)
    (hnone : start.failCommitAfter = none) : hit = none := by
  cases hhit : hit with
  | none => rfl
  | some i =>
    obtain ⟨-, -, -, -, n, hn, -⟩ := h.struck i hhit
    rw [hnone] at hn
    cases hn

theorem beside (h : Accomplished start name errand items hit db)
    (hfree : Accomplished { start with failCommitAfter := none } name errand items hit' free) :
    hit' = none ∧ free.commits = start.commits + dues errand items ∧
    (hit = none → db =
      { free with failCommitAfter := start.failCommitAfter.map (· - dues errand items) }) ∧
    ∀ i, hit = some i → ∀ k, k ≠ name i → db.tables.find? k = free.tables.find? k := by
  obtain rfl := hfree.hit_eq_none rfl
  have htables (k : String) (hk : ∀ i, hit = some i → k ≠ name i) :
      db.tables.find? k = free.tables.find? k := by
    by_cases hlisted : k ∈ items.map name
    · obtain ⟨j, hj, rfl⟩ := List.mem_map.mp hlisted
      have hspared : hit ≠ some j := fun hhit => hk j hhit rfl
      rw [h.tables j hj, hfree.tables j hj, if_neg hspared, if_neg nofun]
    · rw [h.others k hlisted, hfree.others k hlisted]
  refine ⟨rfl, congrArg (·.commits) hfree.frame_clean, ?_, ?_⟩
  · rintro rfl
    have hsame : db.tables = free.tables := OrderedMap.ext_find? fun k => htables k nofun
    rw [h.frame_clean, hfree.frame_clean, hsame]
  · rintro i rfl k hk
    refine htables k fun j hj => ?_
    obtain rfl := Option.some.inj hj
    exact hk

section

variable (h : Accomplished start name errand items hit mid)
  (h' : Accomplished mid name errand more hit' db)

include h h'

theorem once {i : ι} (hi : hit = some i) : hit' = none := by
  cases hj : hit' with
  | none => rfl
  | some j =>
    obtain ⟨-, -, -, hfail, -⟩ := h.struck i hi
    obtain ⟨-, -, -, -, n, hn, -⟩ := h'.struck j hj
    rw [hfail] at hn
    cases hn

variable (hapart : ∀ i ∈ items, ∀ j ∈ more, name i ≠ name j)

include hapart

omit h in
theorem or_eq_left {i : ι} (hi : i ∈ items) : hit.or hit' = some i ↔ hit = some i := by
  rw [Option.or_eq_some_iff]
  refine or_iff_left ?_
  rintro ⟨-, hlater⟩
  exact hapart i hi i (h'.struck i hlater).1 rfl

theorem or_eq_right {i : ι} (hi : i ∈ more) : hit.or hit' = some i ↔ hit' = some i := by
  rw [Option.or_eq_some_iff]
  constructor
  · rintro (hearlier | ⟨-, hlater⟩)
    · exact absurd rfl (hapart i (h.struck i hearlier).1 i hi)
    · exact hlater
  · intro hlater
    refine .inr ⟨?_, hlater⟩
    cases hhit : hit with
    | none => rfl
    | some j =>
      rw [h.once h' hhit] at hlater
      cases hlater

theorem append : Accomplished start name errand (items ++ more) (hit.or hit') db := by
  have hdues : dues errand (items ++ more) = dues errand items + dues errand more :=
    List.countP_append
  refine ⟨fun i hi => ?_, fun k hk => ?_, ?_, fun hclean => ?_, fun i hi => ?_⟩
  · obtain hi | hi := List.mem_append.mp hi
    · -- the later errands leave the table of an earlier one alone
      have hout : name i ∉ more.map name := fun hin => by
        obtain ⟨j, hj, he⟩ := List.mem_map.mp hin
        exact hapart i hi j hj he.symm
      rw [h'.others _ hout, h.tables i hi]
      simp only [h'.or_eq_left hapart hi]
    · rw [h'.tables i hi]
      simp only [h.or_eq_right h' hapart hi]
  · rw [List.map_append, List.mem_append, not_or] at hk
    rw [h'.others k hk.2, h.others k hk.1]
  · have hframe := h'.frame
    rw [h.frame] at hframe
    exact hframe
  · obtain ⟨hhit, hhit'⟩ := Option.or_eq_none_iff.mp hclean
    obtain ⟨hcommits, hfail, hle⟩ := h.clean hhit
    obtain ⟨hcommits', hfail', hle'⟩ := h'.clean hhit'
    rw [hdues, hcommits', hcommits, hfail', hfail]
    refine ⟨Nat.add_assoc .., ?_⟩
    cases hn : start.failCommitAfter with
    | none => exact ⟨rfl, nofun⟩
    | some n =>
      rw [hfail, hn] at hle'
      refine ⟨congrArg some (Nat.sub_sub ..), ?_⟩
      rintro _ ⟨⟩
      have hfirst := hle n hn
      have hsecond : dues errand more ≤ n - dues errand items := hle' _ rfl
      omega
  · obtain hearlier | ⟨hhit, hlater⟩ := Option.or_eq_some_iff.mp hi
    · obtain ⟨hin, hdue, hcommits, hfail, n, hn, hlt⟩ := h.struck i hearlier
      obtain ⟨hcommits', hfail', -⟩ := h'.clean (h.once h' hearlier)
      refine ⟨List.mem_append_left _ hin, hdue, by omega, ?_, n, hn, by omega⟩
      rw [hfail', hfail]
      rfl
    · obtain ⟨hin, hdue, hcommits', hfail, m, hm, hlt⟩ := h'.struck i hlater
      obtain ⟨hcommits, hmid, hle⟩ := h.clean hhit
      rw [hmid] at hm
      obtain ⟨n, hn, rfl⟩ := Option.map_eq_some_iff.mp hm
      have := hle n hn
      exact ⟨List.mem_append_right _ hin, hdue, by omega, hfail, n, hn, by omega⟩

end

end Accomplished

def Errand.ran (e : Errand α) (name : String) (db : Database) : Database :=
  { db.putTable name e.goal with
    failCommitAfter := db.failCommitAfter.map (· - e.due.toNat)
    commits := db.commits + e.due.toNat }

omit [DecidableEq ι] in
theorem dues_singleton (errand : ι → Errand α) (i : ι) :
    dues errand [i] = (errand i).due.toNat := by
  rw [dues, List.countP_singleton]
  cases (errand i).due <;> rfl

theorem Accomplished.single {e : Errand α} {name : String} {db db' : Database} {hit : Option Unit}
    (h : Accomplished db (fun _ => name) (fun _ => e) [()] hit db')
    (hallowed : e.due = true → db.failCommitAfter ≠ some 0) : hit = none ∧ db' = e.ran name db := by
  have hnone : hit = none := by
    cases hhit : hit with
    | none => rfl
    | some i =>
      obtain ⟨-, hdue, -, -, n, hn, hlt⟩ := h.struck i hhit
      rw [dues_singleton, hdue] at hlt
      obtain rfl := Nat.lt_one_iff.mp hlt
      exact absurd hn (hallowed hdue)
  subst hnone
  have htables : db'.tables = (db.putTable name e.goal).tables := by
    refine OrderedMap.ext_find? fun k => ?_
    by_cases hk : k = name
    · subst hk
      rw [Database.find?_putTable_self, h.tables () (List.mem_singleton_self _)]
      rfl
    · rw [Database.find?_putTable_of_ne _ hk, h.others k (by simpa using hk)]
  have hframe := h.frame_clean
  rw [htables, dues_singleton] at hframe
  exact ⟨rfl, hframe⟩

namespace Kept

variable {start : Database} {name : ι → String} {errand : ι → Errand α}
  {tasks : List (ι × Program α)} {l : Ledger ι} {s : Shared ι} {i : ι}

theorem outcome (h : Kept start name errand tasks l s) {a : α} (ha : (i, .done a) ∈ tasks) :
    s.committed.tables.find? (name i) =
      some (if l.hit = some i then (errand i).start else (errand i).goal) ∧
    a = (if l.hit = some i then (errand i).bad else (errand i).good) ∧
    ((errand i).due = true ↔ l.hit = some i ∨ i ∈ l.made) := by
  obtain ⟨kept, hkept, hends⟩ : ∃ kept, s.committed.tables.find? (name i) = some kept ∧
      (errand i).Ends a ⟨kept, s.draftOf name i, l.turnout i⟩ := h.tends _ ha
  rw [hkept]
  obtain ⟨hturnout, hdue, rfl, rfl⟩ | ⟨hturnout, hdue, rfl, rfl⟩ | ⟨hturnout, hdue, rfl, rfl⟩ :=
    hends.inv
  · obtain ⟨hspared, hout⟩ := Ledger.turnout_eq_untried.mp hturnout
    simp [hspared, hout, hdue]
  · obtain ⟨hspared, hin⟩ := Ledger.turnout_eq_made.mp hturnout
    simp [hspared, hin, hdue]
  · have hhit := Ledger.turnout_eq_refused.mp hturnout
    simp [hhit, hdue]

theorem made_perm (h : Kept start name errand tasks l s)
    (hdue : ∀ i ∈ tasks.map (·.1), (errand i).due = true ↔ l.hit = some i ∨ i ∈ l.made)
    (hitems : (tasks.map (·.1)).Nodup) :
    l.made.Perm ((tasks.map (·.1)).filter fun i => (errand i).due && l.hit ≠ some i) := by
  refine (List.perm_ext_iff_of_nodup h.accounts.nodup (hitems.filter _)).mpr fun i => ?_
  rw [List.mem_filter, Bool.and_eq_true, decide_eq_true_iff]
  constructor
  · intro hi
    have hspared : l.hit ≠ some i := fun he => (h.accounts.struck i he).1 hi
    have hlisted : i ∈ tasks.map (·.1) := by
      refine h.listed i ?_
      rw [Ledger.turnout_eq_made.mpr ⟨hspared, hi⟩]
      nofun
    exact ⟨hlisted, (hdue i hlisted).mpr (.inr hi), hspared⟩
  · rintro ⟨hlisted, hi, hspared⟩
    exact ((hdue i hlisted).mp hi).resolve_left hspared

theorem accomplished (h : Kept start name errand tasks l s)
    (hdone : ∀ f ∈ tasks, ∃ a, f.2 = .done a) (hitems : (tasks.map (·.1)).Nodup) :
    Accomplished start name errand (tasks.map (·.1)) l.hit s.committed ∧
    tasks = (tasks.map (·.1)).map fun i =>
      (i, .done (if l.hit = some i then (errand i).bad else (errand i).good)) := by
  have houtcome (f : ι × Program α) (hf : f ∈ tasks) : ∃ a, f.2 = .done a ∧
      s.committed.tables.find? (name f.1) =
        some (if l.hit = some f.1 then (errand f.1).start else (errand f.1).goal) ∧
      a = (if l.hit = some f.1 then (errand f.1).bad else (errand f.1).good) ∧
      ((errand f.1).due = true ↔ l.hit = some f.1 ∨ f.1 ∈ l.made) := by
    obtain ⟨a, ha⟩ := hdone f hf
    refine ⟨a, ha, h.outcome (a := a) ?_⟩
    rw [← ha]
    exact hf
  have hdue (i : ι) (hi : i ∈ tasks.map (·.1)) :
      (errand i).due = true ↔ l.hit = some i ∨ i ∈ l.made := by
    obtain ⟨f, hf, rfl⟩ := List.mem_map.mp hi
    obtain ⟨-, -, -, -, hdue⟩ := houtcome f hf
    exact hdue
  have hperm := h.made_perm hdue hitems
  have hcommits : s.committed.commits = start.commits + l.made.length :=
    congrArg Database.commits h.accounts.frame
  refine ⟨⟨fun i hi => ?_, fun k hk => ?_, ?_, fun hclean => ?_, fun i hi => ?_⟩, ?_⟩
  · obtain ⟨f, hf, rfl⟩ := List.mem_map.mp hi
    obtain ⟨-, -, htable, -⟩ := houtcome f hf
    exact htable
  · refine h.others k ?_
    rwa [List.map_map] at hk
  · rw [hcommits]
    exact h.accounts.frame
  · have hcount : l.made.length = dues errand (tasks.map (·.1)) := by
      rw [hperm.length_eq, hclean, length_spared]
    rw [hcommits, ← hcount]
    exact ⟨rfl, h.accounts.clean hclean⟩
  · obtain ⟨hout, hnone, n, hn, hle⟩ := h.accounts.struck i hi
    have hlisted : i ∈ tasks.map (·.1) := by
      refine h.listed i ?_
      rw [Ledger.turnout_eq_refused.mpr hi]
      nofun
    have hdueAt := (hdue i hlisted).mpr (.inl hi)
    have hcount : l.made.length + 1 = dues errand (tasks.map (·.1)) := by
      rw [hperm.length_eq, hi]
      exact length_spared_succ hitems hlisted hdueAt
    exact ⟨hlisted, hdueAt, by omega, hnone, n, hn, by omega⟩
  · rw [List.map_map]
    refine (List.map_id' tasks).symm.trans (List.map_congr_left fun f hf => ?_)
    obtain ⟨a, ha, -, rfl, -⟩ := houtcome f hf
    exact Prod.ext rfl ha

end Kept

end ChainIndexer
