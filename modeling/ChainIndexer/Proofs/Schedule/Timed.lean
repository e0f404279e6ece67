import ChainIndexer.Schedule.Ticker
import Mathlib.Data.List.Chain

namespace ChainIndexer.Ticker

structure Start where
  due : Nat
  time : Nat
  work : Nat
  deriving DecidableEq, Repr

structure Finish where
  time : Nat
  result : Except Stop Outcome

def rest (backoff : Duration) : Except Stop Outcome → Nat
  | .ok (.advanced _ pause) => pause.ceilMillis
  | .error (.error e) => if e.failureClass = .transient then backoff.ceilMillis else 0
  | _ => 0

theorem sequel_eq_resume {backoff : Duration} {r : Except Stop Outcome} {pause : Nat}
    (h : sequel backoff r = .resume pause) : pause = rest backoff r := by
  simp only [sequel] at h
  split at h
  · cases h
  · cases h
    rfl
  · cases h
    rfl
  · cases h
  · cases h
  · next e _ =>
    split at h
    · next hc =>
      cases h
      simp only [rest, hc, if_true]
    · next hc =>
      cases h
      simp only [rest, if_neg hc]

inductive Timed (backoff : Duration) (period now : Nat) (lives : Prop) :
    Nat → Nat → List Start → List Finish → Prop where
  | waits {due time : Nat} (h : lives → now ≤ time) : Timed backoff period now lives due time [] []
  | works {due time work : Nat} (h : lives → now ≤ time + work) :
      Timed backoff period now lives due time [⟨due, time, work⟩] []
  | stops {due time work : Nat} {result : Except Stop Outcome} (h : ¬lives) :
      Timed backoff period now lives due time [⟨due, time, work⟩] [⟨time + work, result⟩]
  | goesOn {due time work : Nat} {result : Except Stop Outcome} {starts finishes}
      (h : Timed backoff period now lives (nextDue due time period)
        (nextStart due time work (rest backoff result) period) starts finishes) :
      Timed backoff period now lives due time (⟨due, time, work⟩ :: starts)
        (⟨time + work, result⟩ :: finishes)

structure Paced (backoff : Duration) (period origin now : Nat) (lives : Prop)
    (starts : List Start) (finishes : List Finish) : Prop where
  first : ∀ s, starts[0]? = some s → s.due = origin ∧ s.time = origin
  finish : ∀ (k : Nat) (f : Finish), finishes[k]? = some f →
    ∃ s : Start, starts[k]? = some s ∧ f.time = s.time + s.work
  next : ∀ k s, starts[k + 1]? = some s → ∃ r f, starts[k]? = some r ∧ finishes[k]? = some f ∧
    s.due = (if r.time ≤ r.due + 5 then r.due + period else r.time + period) ∧
    s.time = max s.due (f.time + rest backoff f.result)
  begins : lives → origin < now → ∃ s, starts[0]? = some s
  ends : lives → ∀ (k : Nat) (s : Start), starts[k]? = some s → s.time + s.work < now →
    ∃ f, finishes[k]? = some f
  goesOn : lives → ∀ (k : Nat) (s : Start) (f : Finish), starts[k]? = some s → finishes[k]? = some f →
    nextStart s.due s.time s.work (rest backoff f.result) period < now →
      ∃ s', starts[k + 1]? = some s'

section Timed

variable {backoff : Duration} {period now due time : Nat} {lives : Prop} {starts : List Start}
  {finishes : List Finish}

theorem Timed.head (h : Timed backoff period now lives due time starts finishes) {s : Start}
    (hs : starts[0]? = some s) : s.due = due ∧ s.time = time := by
  cases h with
  | waits => cases hs
  | works | stops | goesOn =>
    cases hs
    exact ⟨rfl, rfl⟩

theorem Timed.finish (h : Timed backoff period now lives due time starts finishes) {k : Nat}
    {f : Finish} (hf : finishes[k]? = some f) :
    ∃ s, starts[k]? = some s ∧ f.time = s.time + s.work := by
  induction h generalizing k with
  | waits | works => cases hf
  | stops =>
    cases k with
    | zero =>
      cases hf
      exact ⟨_, rfl, rfl⟩
    | succ k => cases hf
  | goesOn _ ih =>
    cases k with
    | zero =>
      cases hf
      exact ⟨_, rfl, rfl⟩
    | succ k => exact ih hf

theorem Timed.next (h : Timed backoff period now lives due time starts finishes) {k : Nat}
    {s : Start} (hs : starts[k + 1]? = some s) : ∃ r f, starts[k]? = some r ∧
      finishes[k]? = some f ∧ s.due = nextDue r.due r.time period ∧
      s.time = max s.due (f.time + rest backoff f.result) := by
  induction h generalizing k with
  | waits | works | stops => cases hs
  | goesOn h ih =>
    cases k with
    | zero =>
      obtain ⟨hdue, htime⟩ := h.head hs
      exact ⟨_, _, rfl, rfl, hdue, hdue ▸ htime⟩
    | succ k => exact ih hs

theorem Timed.begins (h : Timed backoff period now lives due time starts finishes) (hl : lives)
    (hnow : time < now) : ∃ s, starts[0]? = some s := by
  cases h with
  | waits hw => exact absurd (hw hl) (Nat.not_le.mpr hnow)
  | works | stops | goesOn => exact ⟨_, rfl⟩

theorem Timed.ends (h : Timed backoff period now lives due time starts finishes) (hl : lives)
    {k : Nat} {s : Start} (hs : starts[k]? = some s) (hnow : s.time + s.work < now) :
    ∃ f, finishes[k]? = some f := by
  induction h generalizing k with
  | waits => cases hs
  | works hw =>
    cases k with
    | zero =>
      cases hs
      exact absurd (hw hl) (Nat.not_le.mpr hnow)
    | succ k => cases hs
  | stops hgone => exact absurd hl hgone
  | goesOn _ ih =>
    cases k with
    | zero => exact ⟨_, rfl⟩
    | succ k => exact ih hs

theorem Timed.follows (h : Timed backoff period now lives due time starts finishes) (hl : lives)
    {k : Nat} {s : Start} {f : Finish} (hs : starts[k]? = some s) (hf : finishes[k]? = some f)
    (hnow : nextStart s.due s.time s.work (rest backoff f.result) period < now) :
    ∃ s', starts[k + 1]? = some s' := by
  induction h generalizing k with
  | waits | works => cases hf
  | stops hgone => exact absurd hl hgone
  | goesOn h ih =>
    cases k with
    | zero =>
      cases hs
      cases hf
      exact h.begins hl hnow
    | succ k => exact ih hs hf

theorem nextDue_eq (due time period : Nat) : nextDue due time period =
    if time ≤ due + 5 then due + period else time + period := by
  by_cases h : time ≤ due + 5
  · have hintime : ¬due + tolerance < time := Nat.not_lt.mpr h
    rw [if_pos h, nextDue, if_neg hintime]
  · have hlate : due + tolerance < time := Nat.not_le.mp h
    rw [if_neg h, nextDue, if_pos hlate]

theorem Timed.paced (h : Timed backoff period now lives time time starts finishes) :
    Paced backoff period time now lives starts finishes where
  first _ := h.head
  finish _ _ := h.finish
  next k s hs := by
    obtain ⟨r, f, hr, hf, hdue, htime⟩ := h.next hs
    exact ⟨r, f, hr, hf, hdue.trans (nextDue_eq ..), htime⟩
  begins := h.begins
  ends hl _ _ := h.ends hl
  goesOn hl _ _ _ := h.follows hl

theorem le_nextDue (due time period : Nat) :
    time + period ≤ nextDue due time period + tolerance := by
  simp only [nextDue]
  split <;> omega

theorem Timed.spaced (h : Timed backoff period now lives due time starts finishes) :
    starts.IsChain fun r s => r.time + period ≤ s.time + tolerance := by
  induction h with
  | waits => exact .nil
  | works | stops => exact .singleton _
  | @goesOn due time _ _ starts _ h ih =>
    refine List.isChain_cons.mpr ⟨fun s hs => ?_, ih⟩
    obtain ⟨-, htime⟩ := h.head (List.head?_eq_getElem? .. ▸ hs)
    have hdue := le_nextDue due time period
    have hmax : nextDue due time period ≤ s.time := htime ▸ Nat.le_max_left ..
    dsimp only
    omega

end Timed

theorem Paced.rested {backoff : Duration} {period origin now : Nat} {lives : Prop}
    {starts : List Start} {finishes : List Finish}
    (h : Paced backoff period origin now lives starts finishes) {k : Nat} {s : Start} {f : Finish}
    (hs : starts[k + 1]? = some s) (hf : finishes[k]? = some f) :
    f.time + rest backoff f.result ≤ s.time := by
  obtain ⟨r, f', -, hf', -, htime⟩ := h.next k s hs
  cases hf.symm.trans hf'
  exact htime ▸ Nat.le_max_right ..

theorem countP_le_of_apart {gap : Nat} (hgap : 0 < gap) {starts : List Start}
    (h : starts.Pairwise fun r s => r.time + gap ≤ s.time) (low high : Nat) :
    starts.countP (fun s => low ≤ s.time ∧ s.time ≤ high) ≤ (high - low) / gap + 1 := by
  induction h generalizing low with
  | nil => exact Nat.zero_le _
  | @cons r starts hle _ ih =>
    rw [List.countP_cons]
    by_cases hr : low ≤ r.time ∧ r.time ≤ high
    · -- the others are among those that start no earlier than `r.time + gap`
      have hrest : starts.countP (fun s => low ≤ s.time ∧ s.time ≤ high) =
          starts.countP (fun s => r.time + gap ≤ s.time ∧ s.time ≤ high) :=
        List.countP_congr fun s hs => by
          have := hle s hs
          simp only [decide_eq_true_eq]
          omega
      by_cases hhigh : r.time + gap ≤ high
      · have hstep : (high - (r.time + gap)) / gap + 1 ≤ (high - low) / gap := by
          rw [← Nat.add_div_right _ hgap]
          exact Nat.div_le_div_right (by omega)
        have := ih (r.time + gap)
        simp only [hr, hrest, and_self, decide_true, if_true]
        omega
      · have hnone : starts.countP (fun s => r.time + gap ≤ s.time ∧ s.time ≤ high) = 0 :=
          List.countP_eq_zero.mpr fun s _ => by
            simp only [decide_eq_true_eq]
            omega
        simp only [hr, hrest, hnone, and_self, decide_true, if_true]
        exact Nat.le_add_left ..
    · simpa only [hr, decide_false, Bool.false_eq_true, if_false, Nat.add_zero] using ih low

theorem countP_le_of_spaced {period : Nat} {starts : List Start}
    (h : starts.IsChain fun r s => r.time + period ≤ s.time + tolerance)
    (hperiod : tolerance < period) (low length : Nat) :
    starts.countP (fun s => low ≤ s.time ∧ s.time ≤ low + length) ≤
      length / (period - tolerance) + 1 := by
  let Apart (r s : Start) : Prop := r.time + (period - tolerance) ≤ s.time
  have : Trans Apart Apart Apart :=
    ⟨fun hrs hst => Nat.le_trans hrs (Nat.le_trans (Nat.le_add_right ..) hst)⟩
  have hchain : starts.IsChain Apart := h.imp fun r s hrs => by
    simp only [Apart]
    omega
  have := countP_le_of_apart (Nat.sub_pos_of_lt hperiod) hchain.pairwise low (low + length)
  rwa [Nat.add_sub_cancel_left] at this

end ChainIndexer.Ticker
