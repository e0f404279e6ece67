import ChainIndexer.Proofs.Interleaving.Alone
import ChainIndexer.Job.PartitionUpkeep

namespace ChainIndexer

open Memory (Database Ends)

namespace Store.Query

def Surveys : Query → Prop
  | .tableExists _ => True
  | .isPartitioned _ => True
  | .maxId _ => True
  | .attachedPartitions _ => True
  | _ => False

end Store.Query

namespace PartitionUpkeep

section

variable {u : PartitionUpkeep} {p : Partition} {t : Memory.Table} {db next : Database}
  {Q : Bool → Database → Prop} {E : Stop → Bool → Database → Prop}

theorem answer_attached (h : db.tables.find? u.parent = some t) :
    db.answer (.attachedPartitions u.parent) = .ok (Partition.sorted t.partitions) := by
  simp only [Database.answer, h]
  rfl

theorem leads_isParent (h : db.tables.find? u.parent = some t) (hp : t.partitioned = true)
    (hq : Q true db) : Leads db u.isParent Q E := by
  have hanswer : db.answer (.isPartitioned u.parent) = .ok true := by
    simp only [Database.answer, h, Option.map_some, Option.getD_some, hp]
  refine .seq (.query (Q := fun b db' => b = true ∧ db' = db) hanswer ⟨rfl, rfl⟩) ?_
  rintro _ _ ⟨rfl, rfl⟩
  exact .pure hq

theorem leads_create (hnext : db.createPartition u.parent u.template p = .ok next)
    (hq : ∀ db', db'.Agrees next → Q true db')
    (he : ∀ db', db'.Agrees db → E refusal true db') : Leads db (u.create p) Q E := by
  have hunit : Leads db (Work.unitOfWork do
      Work.command (.createPartition u.parent u.template p)
      pure (.commit, true)) Q (fun e f db => e = refusal ∧ E e f db) := by
    refine .unitOfWork (Work.asks_bind (Work.asks_access trivial) fun _ => Work.asks_pure _)
      fun r cur hr => ?_
    obtain ⟨-, hr⟩ := Work.Transacts.command (d := fun _ => next) hr fun _ =>
      Database.settle_eq_ok.mpr hnext
    obtain ⟨rfl, rfl⟩ := Work.transacts_pure.mp hr
    exact ⟨hq, fun db' ha => ⟨rfl, he db' ha⟩⟩
  refine (Leads.unlessPresent hunit fun e f db he fault hfault => ?_).mono (fun _ _ h => h)
    fun _ _ _ h => h.2
  rw [he.1] at hfault
  cases hfault
  rfl

theorem leads_create_refused {e : StorageError}
    (hnext : db.createPartition u.parent u.template p = .error e)
    (he : E (.error (.storage e)) false db) : Leads db (Work.unitOfWork do
      Work.command (.createPartition u.parent u.template p)
      pure (.commit, true)) Q (fun s f db' => s = .error (.storage e) ∧ E s f db') := by
  refine .unitOfWork (Work.asks_bind (Work.asks_access trivial) fun _ => Work.asks_pure _)
    fun r cur hr => ?_
  obtain ⟨_, mid, hok, -⟩ | ⟨stop, hstop, rfl⟩ := Work.transacts_bind.mp hr
  · obtain ⟨now, hperform⟩ := Work.transacts_command_ok.mp hok
    rw [Database.perform, hnext] at hperform
    cases hperform
  · obtain ⟨now, x, hperform, hx⟩ := Work.transacts_command.mp hstop
    rw [Database.perform, hnext] at hperform
    cases hperform
    cases hx
    exact ⟨rfl, he⟩

theorem leads_create_error {e : StorageError}
    (hnext : db.createPartition u.parent u.template p = .error e) (hfault : e.isIntegrity = false)
    (he : E (.error (.storage e)) false db) : Leads db (u.create p) Q E := by
  refine (Leads.unlessPresent (leads_create_refused hnext he) fun s f db hs fault hf => ?_).mono
    (fun _ _ h => h) fun _ _ _ h => h.2
  rw [hs.1] at hf
  cases hf
  exact hfault

theorem leads_create_present {e : StorageError}
    (hnext : db.createPartition u.parent u.template p = .error e) (hfault : e.isIntegrity = true)
    (hq : Q false db) : Leads db (u.create p) Q E := by
  apply Leads.ifPresent
  refine (leads_create_refused (E := fun _ f db' => f = false ∧ Q false db') hnext ⟨rfl, hq⟩).mono
    (fun _ _ h => h) ?_
  rintro s f db' ⟨rfl, hclean, hq⟩
  exact ⟨e, rfl, hfault, hclean, hq⟩

structure Spares (u : PartitionUpkeep) (K : Database → Prop) : Prop where
  congr : ∀ {db db'}, db'.Agrees db → K db → K db'
  create : ∀ {db next p}, db.createPartition u.parent u.template p = .ok next → K db → K next

section

variable {K : Database → Prop} (hK : u.Spares K) (h : K db)

include hK h

theorem Spares.leads_create (p : Partition) :
    Leads db (u.create p) (fun _ => K) (fun _ _ _ => True) := by
  cases hnext : db.createPartition u.parent u.template p with
  | ok next =>
      exact PartitionUpkeep.leads_create hnext (fun _ ha => hK.congr ha (hK.create hnext h))
        fun _ _ => trivial
  | error e =>
      cases hfault : e.isIntegrity with
      | true => exact leads_create_present hnext hfault h
      | false => exact leads_create_error hnext hfault trivial

theorem Spares.leads_cover (first last : Int) :
    Leads db (u.cover first last) (fun _ => K) (fun _ _ _ => True) := by
  have each (existing ps : List Partition) {db : Database} (h : K db) :
      Leads db (u.createEach existing ps) (fun _ => K) (fun _ _ _ => True) := by
    induction ps generalizing db with
    | nil => exact .pure h
    | cons p rest ih =>
        rw [createEach]
        split
        · exact .seq (.pure (Q := fun _ => K) h) fun _ _ h => .seq (ih h) fun _ _ h => .pure h
        · exact .seq (hK.leads_create h p) fun _ _ h => .seq (ih h) fun _ _ h => .pure h
  rw [cover]
  split
  · exact .pure h
  · exact .seq (.question (Q := fun _ => K) (fun _ _ => h) fun _ _ => trivial)
      fun existing _ h => each existing _ h

theorem Spares.leads_createNext :
    Leads db u.createNext (fun _ => K) (fun _ _ _ => True) := by
  have asked {q : Store.Query} {db : Database} (h : K db) :
      Leads db (Work.query q) (fun _ => K) (fun _ _ _ => True) :=
    .question (fun _ _ => h) fun _ _ => trivial
  have parent : Leads db u.isParent (fun _ => K) (fun _ _ _ => True) := by
    apply Leads.seq (asked h)
    intro partitioned db' h
    split
    · exact .pure h
    · apply Leads.seq (asked h)
      intro present db' h
      split
      · exact .pure h
      · exact .throw trivial
  apply Leads.seq parent
  intro parted db' h
  split
  · exact .pure h
  · apply Leads.seq (asked h)
    intro top db' h
    split
    · exact .pure h
    · split
      · exact .pure h
      · apply Leads.seq (asked h)
        intro existing db' h
        split
        · exact .pure h
        · exact hK.leads_create h _

end

end

variable {ι α : Type} {ρ : Rules ι α} {i : ι} {G : Database → Database → Prop} {A K : Assertion ι}

structure Leaves (u : PartitionUpkeep) (i : ι) (fits : Partition → Prop) (K : Assertion ι) :
    Prop where
  survey : ∀ {q db record}, q.Surveys → K db record → K db (record ++ [.query i q db])
  create : ∀ {p db next x db' record}, fits p →
    db.createPartition u.parent u.template p = .ok next → Ends db next .commit x db' →
      K db record → K db' (record ++ [.ending i .commit x db db'])
  discard : ∀ {db record}, K db record → K db (record ++ [.ending i .discard (.ok ()) db db])

variable [DecidableEq ι] {u : PartitionUpkeep} {fits : Partition → Prop}

theorem keeps_create (hG : Guarantee ρ (· ≠ i) G) (hK : Local ρ i G A K) (hu : u.Leaves i fits K)
    {p : Partition} (hp : fits p) : Keeps ρ i G A K (u.create p) := by
  refine .unlessPresent hG hK (.unitOfWork hG hK (fun _ => hK) ?_ ?_ ?_) false
  · exact Work.asks_bind (Work.asks_access trivial) fun _ => Work.asks_pure _
  · intro db record e b cur x db' h hb hx
    obtain ⟨_, mid, hc, h1⟩ := Work.transacts_bind_ok.mp hb
    obtain ⟨now, hset⟩ := Work.transacts_command_ok.mp hc
    obtain ⟨he, rfl⟩ := Work.transacts_pure.mp h1
    cases he
    exact hu.create hp (Database.settle_eq_ok.mp hset) hx h
  · exact fun _ _ _ _ h _ => hu.discard h

theorem keeps_createEach (hG : Guarantee ρ (· ≠ i) G) (hK : Local ρ i G A K)
    (hu : u.Leaves i fits K) (existing : List Partition) {ps : List Partition}
    (hps : ∀ p ∈ ps, fits p) : Keeps ρ i G A K (u.createEach existing ps) := by
  induction ps with
  | nil => exact .pure hG hK _
  | cons p rest ih =>
    obtain ⟨hp, hrest⟩ := List.forall_mem_cons.mp hps
    rw [createEach]
    split
    · refine .seq hG hK (.pure hG hK false) fun made => ?_
      exact .seq hG hK (ih hrest) fun _ => .pure hG hK _
    · refine .seq hG hK (keeps_create hG hK hu hp) fun made => ?_
      exact .seq hG hK (ih hrest) fun _ => .pure hG hK _

theorem keeps_cover (hG : Guarantee ρ (· ≠ i) G) (hK : Local ρ i G A K) (hu : u.Leaves i fits K)
    {first last : Int} (hps : ∀ p ∈ u.layout.covering u.parent first last, fits p) :
    Keeps ρ i G A K (u.cover first last) := by
  simp only [cover]
  split
  · exact .pure hG hK _
  · exact .seq hG hK (.query hG hK fun _ _ => hu.survey trivial) fun existing =>
      keeps_createEach hG hK hu existing hps

theorem keeps_isParent (hG : Guarantee ρ (· ≠ i) G) (hK : Local ρ i G A K)
    (hu : u.Leaves i fits K) : Keeps ρ i G A K u.isParent := by
  refine .seq hG hK (.query hG hK fun _ _ => hu.survey trivial) fun partitioned => ?_
  split
  · exact .pure hG hK _
  · refine .seq hG hK (.query hG hK fun _ _ => hu.survey trivial) fun present => ?_
    split
    · exact .pure hG hK _
    · exact .fail hG hK _

theorem keeps_createNext (hG : Guarantee ρ (· ≠ i) G) (hK : Local ρ i G A K)
    (hu : u.Leaves i fits K) (hdue : ∀ {db record top next}, K db record →
      db.maxId u.parent = .ok (some top) → u.layout.nextDue u.parent top = some next → fits next) :
    Keeps ρ i G A K u.createNext := by
  refine .seq hG hK (keeps_isParent hG hK hu) fun parent => ?_
  split
  · exact .pure hG hK _
  · let known (r : Except Stop (Option Int)) : Prop := ∀ top next, r = .ok (some top) →
      u.layout.nextDue u.parent top = some next → fits next
    refine Meets.seq hG (R := fun r db record => known r ∧ K db record)
      (.query hG hK (fun r => hK.const_and _) fun db record h => ⟨?_, hu.survey trivial h⟩)
      (fun top => ?_) (fun _ => hK) fun _ _ _ h => h.2
    · intro top next hr hn
      cases hm : db.maxId u.parent with
      | ok found =>
        rw [Database.answer, hm] at hr
        cases hr
        exact hdue h hm hn
      | error e =>
        rw [Database.answer, hm] at hr
        cases hr
    · refine Meets.assuming fun hknown => ?_
      split
      · exact Keeps.pure hG hK _
      · next top =>
        split
        · exact Keeps.pure hG hK _
        · next next hnext =>
          refine Keeps.seq hG hK (.query hG hK fun _ _ => hu.survey trivial) fun existing => ?_
          split
          · exact Keeps.pure hG hK _
          · exact keeps_create hG hK hu (hknown top next rfl hnext)

end PartitionUpkeep

end ChainIndexer
