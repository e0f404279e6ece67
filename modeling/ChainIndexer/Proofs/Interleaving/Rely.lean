import ChainIndexer.Proofs.Interleaving.Site
import ChainIndexer.Proofs.Transaction

namespace ChainIndexer

open Memory (Database Engine)
open Relation (ReflTransGen)

variable {ι α β γ : Type} [DecidableEq ι]

inductive Drift (ρ : Rules ι α) (i : ι) : Shared ι → Shared ι → Prop
  | asked {s : Shared ι} {j : ι} {r : Request} (now : Nat) : j ≠ i → ρ.asks j r →
      s.permits j r = true → Drift ρ i s (s.asked j now r)
  | changed {s : Shared ι} {c : Memory.Change} : s.holder = none → ρ.change s.committed c →
      Drift ρ i s (s.changed c)

theorem Drift.wellLocked {ρ : Rules ι α} {i : ι} {s t : Shared ι} (h : Drift ρ i s t)
    (hw : s.WellLocked) : t.WellLocked := by
  cases h with
  | asked now _ _ hp => exact Shared.wellLocked_asked hw hp
  | changed hn _ => exact Shared.wellLocked_changed hn _

def Stable (ρ : Rules ι α) (i : ι) (P : Shared ι → Prop) : Prop :=
  ∀ s t, s.WellLocked → Drift ρ i s t → P s → P t

theorem Stable.after {ρ : Rules ι α} {i : ι} {P : Shared ι → Prop} (hP : Stable ρ i P)
    {s t : Shared ι} (hw : s.WellLocked) (h : ReflTransGen (Drift ρ i) s t) (hs : P s) :
    t.WellLocked ∧ P t := by
  induction h with
  | refl => exact ⟨hw, hs⟩
  | tail _ hd ih => exact ⟨hd.wellLocked ih.1, hP _ _ ih.1 hd ih.2⟩

theorem stable_const (ρ : Rules ι α) (i : ι) (p : Prop) : Stable ρ i fun _ => p :=
  fun _ _ _ _ h => h

theorem Stable.and {ρ : Rules ι α} {i : ι} {P Q : Shared ι → Prop} (hP : Stable ρ i P)
    (hQ : Stable ρ i Q) : Stable ρ i fun s => P s ∧ Q s :=
  fun s t hw hd h => ⟨hP s t hw hd h.1, hQ s t hw hd h.2⟩

def Ensures (ρ : Rules ι α) (i : ι) (A : Shared ι → Prop) :
    Program β → (β → Shared ι → Prop) → Shared ι → Prop
  | .done b, Q, s => s.WellLocked → ∀ t, ReflTransGen (Drift ρ i) s t → A t ∧ Q b t
  | .ask r next, Q, s => s.WellLocked → ∀ t, ReflTransGen (Drift ρ i) s t →
      A t ∧ (t.permits i r = true → ∀ now,
        Ensures ρ i A (next (t.reply now r)) Q (t.asked i now r))

namespace Ensures

variable {ρ : Rules ι α} {i : ι} {A : Shared ι → Prop}

theorem always {p : Program β} {Q : β → Shared ι → Prop} {s : Shared ι}
    (h : Ensures ρ i A p Q s) (hw : s.WellLocked) : A s := by
  cases p with
  | done b => exact (h hw s .refl).1
  | ask r next => exact (h hw s .refl).1

theorem drift {p : Program β} {Q : β → Shared ι → Prop} {s t : Shared ι}
    (h : Ensures ρ i A p Q s) (hw : s.WellLocked) (hd : Drift ρ i s t) :
    Ensures ρ i A p Q t := by
  cases p with
  | done b => exact fun _ u hu => h hw u (.head hd hu)
  | ask r next => exact fun _ u hu => h hw u (.head hd hu)

theorem mono {p : Program β} {Q Q' : β → Shared ι → Prop} (hQ : ∀ b s, Q b s → Q' b s)
    {s : Shared ι} (h : Ensures ρ i A p Q s) : Ensures ρ i A p Q' s := by
  induction p generalizing s with
  | done b => exact fun hw t ht => ⟨(h hw t ht).1, hQ b t (h hw t ht).2⟩
  | ask r next ih =>
    exact fun hw t ht => ⟨(h hw t ht).1, fun hp now => ih _ ((h hw t ht).2 hp now)⟩

theorem of_wellLocked {p : Program β} {Q : β → Shared ι → Prop} {s : Shared ι}
    (h : s.WellLocked → Ensures ρ i A p Q s) : Ensures ρ i A p Q s := by
  cases p with
  | done b => exact fun hw => h hw hw
  | ask r next => exact fun hw => h hw hw

theorem bind {p : Program β} {f : β → Program γ} {Q : γ → Shared ι → Prop} {s : Shared ι}
    (h : Ensures ρ i A p (fun b t => Ensures ρ i A (f b) Q t) s) :
    Ensures ρ i A (p.bind f) Q s := by
  induction p generalizing s with
  | done b => exact of_wellLocked fun hw => (h hw s .refl).2
  | ask r next ih =>
    exact fun hw t ht => ⟨(h hw t ht).1, fun hp now => ih _ ((h hw t ht).2 hp now)⟩

theorem done {P : Shared ι → Prop} (hP : Stable ρ i P) {b : β} {Q : β → Shared ι → Prop}
    (hQ : ∀ s, P s → A s ∧ Q b s) {s : Shared ι} (hs : P s) :
    Ensures ρ i A (.done b) Q s :=
  fun hw t ht => hQ t (hP.after hw ht hs).2

theorem ask {P : Shared ι → Prop} (hP : Stable ρ i P) (hA : ∀ s, P s → A s) {r : Request}
    {next : r.Answer → Program β} {Q : β → Shared ι → Prop}
    (h : ∀ s now, s.WellLocked → P s → s.permits i r = true →
      Ensures ρ i A (next (s.reply now r)) Q (s.asked i now r))
    {s : Shared ι} (hs : P s) : Ensures ρ i A (.ask r next) Q s := by
  intro hw t ht
  obtain ⟨hw', hp⟩ := hP.after hw ht hs
  exact ⟨hA t hp, fun hperm now => h t now hw' hp hperm⟩

theorem seq {x : Work β} {f : β → Work γ} {R : Except Stop β → Shared ι → Prop}
    {Q : Except Stop γ → Shared ι → Prop} {s : Shared ι} (hx : Ensures ρ i A x.run R s)
    (hok : ∀ b t, R (.ok b) t → Ensures ρ i A (f b).run Q t)
    (herr : ∀ e t, R (.error e) t → Ensures ρ i A (.done (.error e)) Q t) :
    Ensures ρ i A (x >>= f).run Q s := by
  rw [Work.run_bind]
  refine bind (hx.mono fun r t hr => ?_)
  cases r with
  | ok b => exact hok b t hr
  | error e => exact herr e t hr

end Ensures

namespace Site

variable {ρ : Rules ι α} {i : ι} {A : Shared ι → Prop} {Q : α → Shared ι → Prop}

theorem ensures_move {s t : Site ι α} (ho : InOrder ρ s) {m : Move ι α} (ha : ρ.Allows s m)
    (hm : s.move? m = some t) (hf : m ≠ .finish i) {p : Program α} (hp : s.ticks i = some p)
    (he : Ensures ρ i A p Q s.shared) :
    ∃ q, t.ticks i = some q ∧ Ensures ρ i A q Q t.shared := by
  obtain ⟨hw, hq⟩ := ho
  cases m with
  | begin j q =>
    obtain ⟨hj, rfl⟩ := move?_begin.mp hm
    have hij : i ≠ j := fun e => by rw [← e, hp] at hj; cases hj
    exact ⟨p, (Function.update_of_ne hij _ _).trans hp, he⟩
  | ask j now =>
    obtain ⟨r, next, hj, hperm, rfl⟩ := move?_ask.mp hm
    by_cases hij : i = j
    · subst hij
      obtain rfl := Option.some.inj (hp.symm.trans hj)
      exact ⟨_, Function.update_self .., (he hw _ .refl).2 hperm now⟩
    · have hd := Drift.asked (ρ := ρ) now (Ne.symm hij) (hq j _ hj).1 hperm
      exact ⟨p, (Function.update_of_ne hij _ _).trans hp, he.drift hw hd⟩
  | finish j =>
    obtain ⟨a, hj, rfl⟩ := move?_finish.mp hm
    have hij : i ≠ j := fun e => hf (e ▸ rfl)
    exact ⟨p, (Function.update_of_ne hij _ _).trans hp, he⟩
  | change c =>
    obtain ⟨hn, rfl⟩ := move?_change.mp hm
    exact ⟨p, hp, he.drift hw (.changed hn ha)⟩

theorem During.ensures {s t : Site ι α} (h : During ρ i s t) (ho : InOrder ρ s)
    {p : Program α} (hp : s.ticks i = some p) (he : Ensures ρ i A p Q s.shared) :
    ∃ q, t.ticks i = some q ∧ Ensures ρ i A q Q t.shared := by
  induction h with
  | refl => exact ⟨p, hp, he⟩
  | tail hr hm ih =>
    obtain ⟨q, hq, he'⟩ := ih
    obtain ⟨m, ha, hf, hm⟩ := hm
    exact ensures_move (ho.reach (During.reach hr)) ha hm hf hq he'

def Secured (ρ : Rules ι α) (i : ι) (A : Shared ι → Prop) (Q : α → Shared ι → Prop)
    (s : Site ι α) : Prop :=
  A s.shared ∧ ∀ p, s.ticks i = some p → Ensures ρ i A p Q s.shared

theorem Secured.of_idle {s : Site ι α} (hi : s.ticks i = none) (hA : A s.shared) :
    Secured ρ i A Q s := ⟨hA, fun p hp => by rw [hi] at hp; cases hp⟩

theorem Secured.step (hA : Stable ρ i A)
    (hwork : ∀ p s, ρ.work i p → A s → Ensures ρ i A p Q s) {s t : Site ι α}
    (ho : InOrder ρ s) (h : Secured ρ i A Q s) (hs : Step ρ s t) : Secured ρ i A Q t := by
  have ho' := ho.step hs
  obtain ⟨m, ha, hm⟩ := hs
  obtain ⟨h0, he⟩ := h
  by_cases hf : m = .finish i
  · subst hf
    obtain ⟨a, -, rfl⟩ := move?_finish.mp hm
    exact of_idle (Function.update_self ..) h0
  · cases hi : s.ticks i with
    | some p =>
      obtain ⟨q, hq, hE⟩ := ensures_move ho ha hm hf hi (he p hi)
      refine ⟨hE.always ho'.1, fun q' hq' => ?_⟩
      obtain rfl := Option.some.inj (hq.symm.trans hq')
      exact hE
    | none =>
      cases m with
      | begin j p =>
        obtain ⟨hj, rfl⟩ := move?_begin.mp hm
        refine ⟨h0, fun q hq => ?_⟩
        obtain ⟨rfl, he'⟩ | ⟨-, he'⟩ := ticks_update hq
        · exact Option.some.inj he' ▸ hwork p _ ha.1 h0
        · rw [hi] at he'; cases he'
      | ask j now =>
        obtain ⟨r, next, hj, hperm, rfl⟩ := move?_ask.mp hm
        have hij : i ≠ j := fun e => by rw [← e, hi] at hj; cases hj
        have hd := Drift.asked (ρ := ρ) now hij.symm (ho.2 j _ hj).1 hperm
        exact of_idle ((Function.update_of_ne hij _ _).trans hi) (hA _ _ ho.1 hd h0)
      | finish j =>
        obtain ⟨a, hj, rfl⟩ := move?_finish.mp hm
        have hij : i ≠ j := fun e => hf (e ▸ rfl)
        exact of_idle ((Function.update_of_ne hij _ _).trans hi) h0
      | change c =>
        obtain ⟨hn, rfl⟩ := move?_change.mp hm
        exact of_idle hi (hA _ _ ho.1 (.changed hn ha) h0)

theorem Secured.reach (hA : Stable ρ i A)
    (hwork : ∀ p s, ρ.work i p → A s → Ensures ρ i A p Q s) {s t : Site ι α}
    (ho : InOrder ρ s) (h : Secured ρ i A Q s) (hr : Reach ρ s t) : Secured ρ i A Q t := by
  induction hr with
  | refl => exact h
  | tail hr hs ih => exact ih.step hA hwork (ho.reach hr) hs

end Site

end ChainIndexer
