import ChainIndexer.Proofs.Interleaving.UnitOfWork

namespace ChainIndexer

open Memory (Database Engine Ends)

abbrev Assertion (ι : Type) := Database → List (Moment ι) → Prop

namespace Moment

variable {ι : Type}

def query (i : ι) (q : Store.Query) (db : Database) : Moment ι :=
  ⟨.asked i ⟨.access (.query q), db.answer q⟩, db, db⟩

def ending (i : ι) (e : Store.Ending) (x : Store.Result Unit) (db db' : Database) : Moment ι :=
  ⟨.asked i ⟨.access (.ending e), x⟩, db, db'⟩

def change (c : Memory.Change) (db : Database) : Moment ι := ⟨.changed c, db, db.changed c⟩

end Moment

variable {ι α β γ : Type}

structure Guarantee (ρ : Rules ι α) (who : ι → Prop) (G : Database → Database → Prop) : Prop where
  opened : ∀ db, G db db
  command : ∀ {j c db cur} now, who j → ρ.asks j (.access (.command c)) → G db cur →
    G db (cur.perform now c).2

def Request.Reads (ok : Store.Query → Prop) : Request → Prop
  | .access (.query q) => ok q
  | .access _ => False
  | _ => True

structure Lasting (ρ : Rules ι α) (who : ι → Prop) (G : Database → Database → Prop)
    (P : Assertion ι) : Prop where
  query : ∀ {j q db record}, who j → ρ.asks j (.access (.query q)) → P db record →
    P db (record ++ [.query j q db])
  ending : ∀ {j e x db cur db' record}, who j → G db cur → Ends db cur e x db' → P db record →
    P db' (record ++ [.ending j e x db db'])
  change : ∀ {c db record}, ρ.change db c → P db record → P (db.changed c) (record ++ [.change c db])

def Shared.Obeys (s : Shared ι) (who : ι → Prop) (G : Database → Database → Prop)
    (P : Assertion ι) : Prop :=
  P s.committed s.record ∧ ∀ j, who j → s.holder = some j → G s.committed s.world.store.current

section

variable {who : ι → Prop} {G : Database → Database → Prop} {P Q : Assertion ι} {s : Shared ι}

theorem Shared.Obeys.mono (hPQ : ∀ db record, P db record → Q db record) (h : s.Obeys who G P) :
    s.Obeys who G Q := ⟨hPQ _ _ h.1, h.2⟩

theorem Shared.obeys_of_free (hn : s.holder = none) (h : P s.committed s.record) :
    s.Obeys who G P := ⟨h, fun _ _ hj => by rw [hn] at hj; cases hj⟩

theorem Shared.Obeys.aside (h : s.Obeys who G P) (j : ι) (now : Nat) {r : Request}
    (hr : r.IsAside) : (s.asked j now r).Obeys who G P := by
  obtain ⟨h1, h2, h3⟩ := asked_aside s j now hr
  rwa [Obeys, committed, h1, h2, h3]

theorem Held.obeys {i : ι} {db cur : Database} {record : List (Moment ι)}
    (h : Held i db cur record s) (hP : P db record) : s.Obeys (· ≠ i) G P := by
  refine ⟨by rwa [h.committed, h.record], fun j hj hs => ?_⟩
  rw [h.holder] at hs
  exact absurd (Option.some.inj hs).symm hj

theorem Closed.obeys {j : ι} {db cur : Database} {record : List (Moment ι)} {e : Store.Ending}
    {x : Store.Result Unit} (h : Closed j db record cur e x s)
    (hP : P s.committed (record ++ [.ending j e x db s.committed])) : s.Obeys who G P :=
  Shared.obeys_of_free h.holder (by rw [h.record]; exact hP)

end

variable [DecidableEq ι] {ρ : Rules ι α} {i : ι} {G : Database → Database → Prop}

namespace Lasting

variable {who : ι → Prop} {P : Assertion ι}

theorem asked (hG : Guarantee ρ who G) (hP : Lasting ρ who G P) {s : Shared ι} (hw : s.WellLocked)
    {j : ι} (hj : who j) {r : Request} (hr : ρ.asks j r) (hp : s.permits j r = true) (now : Nat)
    (h : s.Obeys who G P) : (s.asked j now r).Obeys who G P := by
  obtain ⟨hs, hg⟩ := h
  cases r with
  | access a =>
    cases a with
    | query q =>
      have hn : s.holder = none := by simpa [Shared.permits] using hp
      obtain ⟨-, h2, h3⟩ := Shared.asked_query s j now q
      refine Shared.obeys_of_free (h2.trans hn) ?_
      rw [h3, ← Shared.committed_of_free hw hn]
      exact hP.query hj hr hs
    | opening =>
      have hn : s.holder = none := by simpa [Shared.permits] using hp
      obtain ⟨h1, -, h3⟩ := Shared.asked_opening s j now
      rw [← Shared.committed_of_free hw hn] at h1
      rw [Shared.Obeys, Shared.committed, h1, h3]
      exact ⟨hs, fun _ _ _ => hG.opened _⟩
    | command c =>
      have hh : s.holder = some j := by simpa [Shared.permits] using hp
      obtain ⟨h1, -, -, h3⟩ := Shared.asked_command j now hw hh c
      rw [Shared.Obeys, Shared.committed, h1, h3]
      exact ⟨hs, fun _ _ _ => hG.command _ hj hr (hg j hj hh)⟩
    | ending e =>
      have hh : s.holder = some j := by simpa [Shared.permits] using hp
      have hc := (held_of_holder hw hh).closed now e
      exact hc.obeys (hP.ending hj (hg j hj hh) hc.ends hs)
  | clock | cachedHealth _ | keepHealth _ _ | turn _ =>
    exact Shared.Obeys.aside ⟨hs, hg⟩ j now trivial

omit [DecidableEq ι] in
theorem changed (hP : Lasting ρ who G P) {s : Shared ι} (hn : s.holder = none)
    {c : Memory.Change} (hc : ρ.change s.committed c) (h : s.Obeys who G P) :
    (s.changed c).Obeys who G P := Shared.obeys_of_free hn (hP.change hc h.1)

theorem stable (hG : Guarantee ρ (· ≠ i) G) (hP : Lasting ρ (· ≠ i) G P) :
    Stable ρ i fun s => s.Obeys (· ≠ i) G P := by
  intro s t hw hd h
  cases hd with
  | asked now hj hr hp => exact hP.asked hG hw hj hr hp now h
  | changed hn hc => exact hP.changed hn hc h

end Lasting

def Anyone (_ : ι) : Prop := True

theorem Site.Reach.obeys {P : Assertion ι} (hG : Guarantee ρ Anyone G)
    (hP : Lasting ρ Anyone G P) {s t : Site ι α} (h : Site.Reach ρ s t) (ho : InOrder ρ s)
    (hs : s.shared.Obeys Anyone G P) : t.shared.Obeys Anyone G P := by
  induction h with
  | refl => exact hs
  | @tail u v hr hstep ih =>
    obtain ⟨hw, hq⟩ := ho.reach hr
    obtain ⟨m, ha, hm⟩ := hstep
    cases m with
    | begin i p =>
      obtain ⟨-, rfl⟩ := move?_begin.mp hm
      exact ih
    | ask i now =>
      obtain ⟨r, next, hi, hp, rfl⟩ := move?_ask.mp hm
      exact hP.asked hG hw trivial (hq i _ hi).1 hp now ih
    | finish i =>
      obtain ⟨a, -, rfl⟩ := move?_finish.mp hm
      exact ih
    | change c =>
      obtain ⟨hn, rfl⟩ := move?_change.mp hm
      exact hP.changed hn ha ih

def Meets (ρ : Rules ι α) (i : ι) (G : Database → Database → Prop) (A P : Assertion ι)
    (x : Work β) (Q : Except Stop β → Assertion ι) : Prop :=
  ∀ s, s.Obeys (· ≠ i) G P →
    Ensures ρ i (·.Obeys (· ≠ i) G A) x.run (fun r t => t.Obeys (· ≠ i) G (Q r)) s

structure Local (ρ : Rules ι α) (i : ι) (G : Database → Database → Prop) (A P : Assertion ι) :
    Prop where
  always : ∀ {db record}, P db record → A db record
  lasting : Lasting ρ (· ≠ i) G P

namespace Local

variable {A : Assertion ι}

omit [DecidableEq ι] in
theorem exists_intro {P : γ → Assertion ι} (h : ∀ c, Local ρ i G A (P c)) :
    Local ρ i G A fun db record => ∃ c, P c db record where
  always := fun ⟨c, hc⟩ => (h c).always hc
  lasting :=
    { query := fun hj hq ⟨c, hc⟩ => ⟨c, (h c).lasting.query hj hq hc⟩
      ending := fun hj hg he ⟨c, hc⟩ => ⟨c, (h c).lasting.ending hj hg he hc⟩
      change := fun hr ⟨c, hc⟩ => ⟨c, (h c).lasting.change hr hc⟩ }

omit [DecidableEq ι] in
theorem const_and {P : Assertion ι} (p : Prop) (h : Local ρ i G A P) :
    Local ρ i G A fun db record => p ∧ P db record where
  always := fun hp => h.always hp.2
  lasting :=
    { query := fun hj hq hp => ⟨hp.1, h.lasting.query hj hq hp.2⟩
      ending := fun hj hg he hp => ⟨hp.1, h.lasting.ending hj hg he hp.2⟩
      change := fun hr hp => ⟨hp.1, h.lasting.change hr hp.2⟩ }

end Local

def Assertion.onResult (P : β → Assertion ι) (E : Assertion ι) : Except Stop β → Assertion ι
  | .ok b => P b
  | .error _ => E

omit [DecidableEq ι] in
theorem Assertion.local_onResult {A E : Assertion ι} {P : β → Assertion ι}
    (hP : ∀ b, Local ρ i G A (P b)) (hE : Local ρ i G A E) (r : Except Stop β) :
    Local ρ i G A (onResult P E r) := by
  cases r with
  | ok b => exact hP b
  | error e => exact hE

namespace Meets

variable {A P : Assertion ι}

theorem mono {x : Work β} {P' : Assertion ι} {Q Q' : Except Stop β → Assertion ι}
    (h : Meets ρ i G A P x Q) (hP : ∀ db record, P' db record → P db record)
    (hQ : ∀ r db record, Q r db record → Q' r db record) : Meets ρ i G A P' x Q' :=
  fun s hs => (h s (hs.mono hP)).mono fun r _ ht => ht.mono (hQ r)

theorem assuming {p : Prop} {x : Work β} {Q : Except Stop β → Assertion ι}
    (h : p → Meets ρ i G A P x Q) : Meets ρ i G A (fun db record => p ∧ P db record) x Q :=
  fun s hs => h hs.1.1 s (hs.mono fun _ _ => And.right)

theorem done (hG : Guarantee ρ (· ≠ i) G) {Q : Except Stop β → Assertion ι} {r : Except Stop β}
    (hQ : Local ρ i G A (Q r)) {s : Shared ι} (hs : s.Obeys (· ≠ i) G (Q r)) :
    Ensures ρ i (·.Obeys (· ≠ i) G A) (.done r) (fun r t => t.Obeys (· ≠ i) G (Q r)) s :=
  .done (hQ.lasting.stable hG) (fun _ ht => ⟨ht.mono fun _ _ => hQ.always, ht⟩) hs

theorem pure (hG : Guarantee ρ (· ≠ i) G) {b : β} {Q : Except Stop β → Assertion ι}
    (hQ : Local ρ i G A (Q (.ok b))) : Meets ρ i G A (Q (.ok b)) (Pure.pure b) Q :=
  fun _ hs => done hG hQ hs

theorem throw (hG : Guarantee ρ (· ≠ i) G) {e : Stop} {Q : Except Stop β → Assertion ι}
    (hQ : Local ρ i G A (Q (.error e))) :
    Meets ρ i G A (Q (.error e)) (throwThe Stop e : Work β) Q :=
  fun _ hs => done hG hQ hs

theorem seq (hG : Guarantee ρ (· ≠ i) G) {x : Work β} {f : β → Work γ}
    {R : Except Stop β → Assertion ι} {Q : Except Stop γ → Assertion ι} (hx : Meets ρ i G A P x R)
    (hf : ∀ b, Meets ρ i G A (R (.ok b)) (f b) Q) (hQ : ∀ e, Local ρ i G A (Q (.error e)))
    (he : ∀ e db record, R (.error e) db record → Q (.error e) db record) :
    Meets ρ i G A P (x >>= f) Q :=
  fun s hs => (hx s hs).seq (fun b t ht => hf b t ht)
    fun e _ ht => done hG (hQ e) (ht.mono (he e))

theorem query (hG : Guarantee ρ (· ≠ i) G) (hP : Local ρ i G A P) {q : Store.Query}
    {Q : Except Stop q.Answer → Assertion ι} (hQ : ∀ r, Local ρ i G A (Q r))
    (h : ∀ db record, P db record → Q (Work.ofStore (db.answer q)) db (record ++ [.query i q db])) :
    Meets ρ i G A P (Work.query q) Q := by
  intro s hs
  rw [Work.query, Work.run_access]
  refine .ask (hP.lasting.stable hG) (fun t ht => ht.mono fun _ _ => hP.always)
    (fun t now hw ht hp => ?_) hs
  have hn : t.holder = none := by simpa [Shared.permits] using hp
  obtain ⟨-, h2, h3⟩ := Shared.asked_query t i now q
  rw [← Shared.committed_of_free hw hn] at h3
  have hr : t.reply now (.access (.query q)) = t.committed.answer q := by
    rw [Shared.committed_of_free hw hn]; rfl
  rw [hr]
  refine done hG (hQ _) (Shared.obeys_of_free (h2.trans hn) ?_)
  rw [h3]
  exact h _ _ ht.1

theorem ofExcept (hG : Guarantee ρ (· ≠ i) G) {x : Except PlanningError β}
    {Q : Except Stop β → Assertion ι} (hQ : ∀ r, Local ρ i G A (Q r))
    (h : ∀ db record, P db record → Q (x.mapError fun e => .error (.planning e)) db record) :
    Meets ρ i G A P (Work.ofExcept x) Q := by
  cases x with
  | ok b => exact (pure hG (hQ _)).mono h fun _ _ _ hr => hr
  | error e => exact (throw hG (hQ _)).mono h fun _ _ _ hr => hr

theorem reads (hG : Guarantee ρ (· ≠ i) G) (hP : Local ρ i G A P) {ok : Store.Query → Prop}
    (h : ∀ q db record, ok q → P db record → P db (record ++ [.query i q db])) {x : Work β}
    (hx : x.Asks (Request.Reads ok)) : Meets ρ i G A P x fun _ => P := by
  have hA (t : Shared ι) (ht : t.Obeys (· ≠ i) G P) : t.Obeys (· ≠ i) G A :=
    ht.mono fun _ _ => hP.always
  have hstable := hP.lasting.stable hG
  suffices ∀ (p : Program (Except Stop β)) s, p.Asks (Request.Reads ok) → s.Obeys (· ≠ i) G P →
      Ensures ρ i (·.Obeys (· ≠ i) G A) p (fun _ t => t.Obeys (· ≠ i) G P) s from
    fun s => this x.run s hx
  intro p
  induction p with
  | done r => exact fun s _ hs => .done hstable (fun t ht => ⟨hA t ht, ht⟩) hs
  | ask r next ih =>
    refine fun s hx hs => .ask hstable hA (fun t now hw ht hp => ih _ _ (hx.2 _) ?_) hs
    cases r with
    | access a =>
      cases a with
      | query q =>
        have hn : t.holder = none := by simpa [Shared.permits] using hp
        obtain ⟨-, h2, h3⟩ := Shared.asked_query t i now q
        rw [← Shared.committed_of_free hw hn] at h3
        refine Shared.obeys_of_free (h2.trans hn) ?_
        rw [h3]
        exact h q _ _ hx.1 ht.1
      | opening | command _ | ending _ => exact hx.1.elim
    | clock | cachedHealth _ | keepHealth _ _ | turn _ => exact ht.aside i now trivial

theorem unitOfWork (hG : Guarantee ρ (· ≠ i) G) (hP : Local ρ i G A P)
    {body : Work (Store.Ending × β)} {Q : Except Stop β → Assertion ι} (hQ : ∀ r, Local ρ i G A (Q r))
    (hbody : body.Asks Request.InUnit)
    (hend : ∀ db record e b cur x db', P db record → body.Transacts db (.ok (e, b)) cur →
      Ends db cur e x db' →
        Q ((Work.ofStore x).map fun _ => b) db' (record ++ [.ending i e x db db']))
    (hstop : ∀ db record e cur, P db record → body.Transacts db (.error e) cur →
      Q (.error e) db (record ++ [.ending i .discard (.ok ()) db db])) :
    Meets ρ i G A P (Work.unitOfWork body) Q := by
  intro s hs
  refine .unit (hP.lasting.stable hG) (fun _ ht => ht.mono fun _ _ => hP.always)
    (fun r => (hQ r).lasting.stable hG) (fun r _ ht => ht.mono fun _ _ => (hQ r).always) hbody
    ?_ ?_ ?_ hs
  · intro t u cur ht _ hu
    exact hu.obeys (hP.always ht.1)
  · intro t e b cur x u ht _ hb hu
    exact hu.obeys (hend _ _ e b cur x _ ht.1 hb hu.ends)
  · intro t e cur u ht _ hb hu
    have hc := hu.ends.of_discard
    refine hu.obeys ?_
    rw [hc]
    exact hstop _ _ e cur ht.1 hb

theorem unlessPresent (hG : Guarantee ρ (· ≠ i) G) {K : Assertion ι} (hK : Local ρ i G A K)
    {x : Work β} (hx : Meets ρ i G A P x fun _ => K) (present : β) :
    Meets ρ i G A P (Work.unlessPresent x present) fun _ => K := by
  intro s hs
  refine .seq (R := fun _ t => t.Obeys (· ≠ i) G K) ?_ (fun r t ht => ?_) fun e t ht =>
    done hG (Q := fun _ => K) hK ht
  · rw [Work.run_lift]
    exact .bind ((hx s hs).mono fun r t ht => done hG (Q := fun _ => K) hK ht)
  · split
    · exact done hG (Q := fun _ => K) hK ht
    · split
      · exact done hG (Q := fun _ => K) hK ht
      · exact done hG (Q := fun _ => K) hK ht
    · exact done hG (Q := fun _ => K) hK ht

end Meets

def Keeps (ρ : Rules ι α) (i : ι) (G : Database → Database → Prop) (A K : Assertion ι)
    (x : Work β) : Prop := Meets ρ i G A K x fun _ => K

namespace Keeps

variable {A K : Assertion ι}

theorem pure (hG : Guarantee ρ (· ≠ i) G) (hK : Local ρ i G A K) (b : β) :
    Keeps ρ i G A K (Pure.pure b) := Meets.pure hG (Q := fun _ => K) hK

theorem fail (hG : Guarantee ρ (· ≠ i) G) (hK : Local ρ i G A K) (e : JobError) :
    Keeps ρ i G A K (Work.fail e : Work β) := Meets.throw hG (Q := fun _ => K) hK

theorem seq (hG : Guarantee ρ (· ≠ i) G) (hK : Local ρ i G A K) {x : Work β} {f : β → Work γ}
    (hx : Keeps ρ i G A K x) (hf : ∀ b, Keeps ρ i G A K (f b)) : Keeps ρ i G A K (x >>= f) :=
  Meets.seq hG hx hf (fun _ => hK) fun _ _ _ h => h

theorem query (hG : Guarantee ρ (· ≠ i) G) (hK : Local ρ i G A K) {q : Store.Query}
    (h : ∀ db record, K db record → K db (record ++ [.query i q db])) :
    Keeps ρ i G A K (Work.query q) := Meets.query hG hK (fun _ => hK) h

end Keeps

end ChainIndexer
