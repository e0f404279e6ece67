import ChainIndexer.Fanout
import Mathlib.Data.List.Induction

namespace ChainIndexer.Fanout

variable {ε α : Type}

section

variable {places n bound : Nat} {finishes : List Nat}

theorem foldl_max_of_ne_nil (h : finishes ≠ []) : finishes.foldl max 0 = finishes.max h := by
  rw [List.foldl_max_eq_max h, Nat.zero_max]

theorem le_startTime (h : n ∈ finishes.take (finishes.length + 1 - places)) :
    n ≤ startTime places finishes := by
  rw [startTime, foldl_max_of_ne_nil (List.ne_nil_of_mem h)]
  exact List.le_max_of_mem h

theorem startTime_le (h : ∀ n ∈ finishes.take (finishes.length + 1 - places), n ≤ bound) :
    startTime places finishes ≤ bound := by
  rw [startTime]
  by_cases hne : finishes.take (finishes.length + 1 - places) = []
  · rw [hne]
    exact Nat.zero_le _
  · rw [foldl_max_of_ne_nil hne]
    exact (List.max_le_iff hne).mpr h

theorem startTime_of_lt (h : finishes.length < places) : startTime places finishes = 0 := by
  rw [startTime, Nat.sub_eq_zero_of_le h]
  rfl

theorem startTime_mem (hplaces : 0 < places) (hfull : places ≤ finishes.length) :
    startTime places finishes ∈ finishes.take (finishes.length + 1 - places) := by
  have hne : finishes.take (finishes.length + 1 - places) ≠ [] := by
    rw [ne_eq, List.take_eq_nil_iff, not_or]
    exact ⟨by omega, List.ne_nil_of_length_pos (by omega)⟩
  rw [startTime, foldl_max_of_ne_nil hne]
  exact List.max_mem hne

theorem startTime_append (more : List Nat) :
    startTime places finishes ≤ startTime places (finishes ++ more) := by
  refine startTime_le fun n hn => le_startTime ?_
  have hlonger : finishes.length + 1 - places ≤ (finishes ++ more).length + 1 - places := by
    rw [List.length_append]
    omega
  refine (List.take_prefix_take_left hlonger).subset ?_
  rw [List.take_append]
  exact List.mem_append_left _ hn

theorem countP_startTime_lt (hplaces : 0 < places) (finishes : List Nat) :
    finishes.countP (startTime places finishes < ·) < places := by
  have hout : (finishes.take (finishes.length + 1 - places)).countP
      (startTime places finishes < ·) = 0 :=
    List.countP_eq_zero.mpr fun n hn => by simpa using le_startTime hn
  have hin : (finishes.drop (finishes.length + 1 - places)).countP
      (startTime places finishes < ·) ≤ finishes.length - (finishes.length + 1 - places) :=
    List.length_drop .. ▸ List.countP_le_length
  have hsplit := congrArg (List.countP (startTime places finishes < ·))
    (List.take_append_drop (finishes.length + 1 - places) finishes)
  rw [List.countP_append] at hsplit
  omega

end

structure Started (ε α : Type) where
  start : Nat
  item : FanoutItem ε α

namespace Started

def finish (s : Started ε α) : Nat := s.start + s.item.duration

def span (s : Started ε α) : Span := ⟨s.start, s.finish⟩

def RunsAt (s : Started ε α) (time : Nat) : Prop := s.start ≤ time ∧ time < s.finish

instance (s : Started ε α) (time : Nat) : Decidable (s.RunsAt time) :=
  inferInstanceAs (Decidable (_ ∧ _))

end Started

def Prompt (places : Nat) (ss : List (Started ε α)) : Prop :=
  ∀ k s, ss[k]? = some s → s.start = startTime places ((ss.take k).map (·.finish))

namespace Prompt

variable {places : Nat} {ss more : List (Started ε α)} {s : Started ε α}

theorem nil : Prompt places ([] : List (Started ε α)) := nofun

theorem concat (h : Prompt places ss) (hs : s.start = startTime places (ss.map (·.finish))) :
    Prompt places (ss ++ [s]) := by
  intro k u hu
  obtain hk | hk := Nat.lt_or_ge k ss.length
  · rw [List.getElem?_append_left hk] at hu
    rw [List.take_append_of_le_length (Nat.le_of_lt hk)]
    exact h k u hu
  · rw [List.getElem?_append_right hk] at hu
    obtain ⟨hlast, rfl⟩ := List.getElem?_eq_some_iff.mp hu
    have hlength : k = ss.length := by
      rw [List.length_singleton] at hlast
      omega
    subst hlength
    simpa using hs

theorem of_append (h : Prompt places (ss ++ more)) : Prompt places ss := by
  intro k s hs
  have hk := (List.getElem?_eq_some_iff.mp hs).1
  have := h k s ((List.getElem?_append_left hk).trans hs)
  rwa [List.take_append_of_le_length (Nat.le_of_lt hk)] at this

theorem last (h : Prompt places (ss ++ s :: more)) :
    s.start = startTime places (ss.map (·.finish)) := by
  have := h ss.length s (by simp)
  rwa [List.take_left] at this

theorem spansAfter_eq (h : Prompt places (ss ++ more)) :
    spansAfter places (ss.map (·.span)) (more.map (·.item.duration)) = more.map (·.span) := by
  induction more generalizing ss with
  | nil => rfl
  | cons s more ih =>
    have hspan : (⟨startTime places ((ss.map (·.span)).map (·.finish)),
        startTime places ((ss.map (·.span)).map (·.finish)) + s.item.duration⟩ : Span) = s.span := by
      have hfinishes : (ss.map (·.span)).map (·.finish) = ss.map (·.finish) := List.map_map
      rw [hfinishes, ← h.last]
      rfl
    simp only [List.map_cons, spansAfter, hspan]
    congr 1
    have hlonger : Prompt places ((ss ++ [s]) ++ more) := by rwa [List.append_assoc]
    have hrest := ih hlonger
    rwa [List.map_append] at hrest

theorem spans_eq (h : Prompt places ss) :
    spans places (ss.map (·.item.duration)) = ss.map (·.span) := by
  have hall : Prompt places ([] ++ ss) := h
  exact hall.spansAfter_eq

theorem running_le (h : Prompt places (ss ++ s :: more)) (hplaces : 0 < places) :
    ss.countP (s.start < ·.finish) + 1 ≤ places := by
  have := countP_startTime_lt hplaces (ss.map (·.finish))
  rw [← h.last, List.countP_map] at this
  exact this

theorem peakAfter_le (h : Prompt places (ss ++ more)) (hplaces : 0 < places) {peak : Nat}
    (hpeak : peak ≤ places) : peakAfter peak (ss.map (·.span)) (more.map (·.span)) ≤ places := by
  induction more generalizing ss peak with
  | nil => exact hpeak
  | cons s more ih =>
    have hrunning := h.running_le hplaces
    have hnow : ((ss.map (·.span)).filter fun e => s.span.start < e.finish).length + 1 ≤ places := by
      rw [← List.countP_eq_length_filter, List.countP_map]
      exact hrunning
    have hlonger : Prompt places ((ss ++ [s]) ++ more) := by rwa [List.append_assoc]
    have hrest := ih hlonger (Nat.max_le.mpr ⟨hpeak, hnow⟩)
    rwa [List.map_append] at hrest

theorem peak_le (h : Prompt places ss) (hplaces : 0 < places) :
    peak (ss.map (·.span)) ≤ places := by
  have hall : Prompt places ([] ++ ss) := h
  exact hall.peakAfter_le hplaces (Nat.zero_le _)

theorem countP_runsAt_le (h : Prompt places ss) (hplaces : 0 < places) (time : Nat) :
    ss.countP (·.RunsAt time) ≤ places := by
  induction ss using List.reverseRecOn with
  | nil => exact Nat.zero_le _
  | append_singleton ss s ih =>
    rw [List.countP_append, List.countP_singleton]
    by_cases hs : s.RunsAt time
    · -- those before it that run now were still to be finished when it started
      have hbefore : ss.countP (·.RunsAt time) ≤ ss.countP (s.start < ·.finish) :=
        List.countP_mono_left fun u _ hu => by
          simp only [decide_eq_true_eq] at hu ⊢
          exact Nat.lt_of_le_of_lt hs.1 hu.2
      have hrunning := h.running_le hplaces
      rw [if_pos (decide_eq_true hs)]
      exact Nat.le_trans (Nat.succ_le_succ hbefore) hrunning
    · rw [if_neg (by simpa using hs)]
      exact ih h.of_append

theorem later (h : Prompt places ss) (hplaces : 0 < places)
    {k : Nat} {f : Started ε α} (hf : ss[k]? = some f) (hk : places ≤ k) :
    (∃ j g, j + places ≤ k ∧ ss[j]? = some g ∧ g.finish = f.start) ∧
      ∀ j g, j + places ≤ k → ss[j]? = some g → g.finish ≤ f.start := by
  have hlength := (List.getElem?_eq_some_iff.mp hf).1
  have hcount : ((ss.take k).map (·.finish)).length = k := by
    rw [List.length_map, List.length_take, Nat.min_eq_left (Nat.le_of_lt hlength)]
  have hearlier (j : Nat) (hj : j + places ≤ k) :
      (((ss.take k).map (·.finish)).take (k + 1 - places))[j]? = ss[j]?.map (·.finish) := by
    rw [List.getElem?_take_of_lt (by omega), List.getElem?_map, List.getElem?_take_of_lt (by omega)]
  rw [h k f hf]
  constructor
  · have hmem := startTime_mem hplaces (Nat.le_trans hk (Nat.le_of_eq hcount.symm))
    rw [hcount] at hmem
    obtain ⟨j, hj⟩ := List.mem_iff_getElem?.mp hmem
    have hbound : j + places ≤ k := by
      have := (List.getElem?_eq_some_iff.mp hj).1
      rw [List.length_take] at this
      omega
    rw [hearlier j hbound] at hj
    obtain ⟨g, hg, hfinish⟩ := Option.map_eq_some_iff.mp hj
    exact ⟨j, g, hbound, hg, hfinish⟩
  · intro j g hj hg
    refine le_startTime (List.mem_of_getElem? (i := j) ?_)
    rw [hcount, hearlier j hj, hg]
    rfl

end Prompt

theorem width_pos (concurrency : Nat) : 0 < width concurrency :=
  Nat.lt_of_lt_of_le Nat.zero_lt_one (Nat.le_max_right ..)

theorem mapM_id_eq_collect (results : List (Except ε α)) :
    results.mapM id = collect results := by
  induction results with
  | nil => rfl
  | cons x rest ih =>
    rw [List.mapM_cons, ih]
    cases x with
    | error e => rfl
    | ok a => cases hrest : collect rest <;> simp [collect, hrest, bind, Except.bind, Except.map,
        pure, Except.pure]

theorem collect_of_error {ι : Type} {f : ι → Except ε α} {items : List ι} {e : ε}
    (h : ∃ i ∈ items, f i = .error e) (honly : ∀ i ∈ items, ∀ e', f i = .error e' → e' = e) :
    collect (items.map f) = .error e := by
  induction items with
  | nil =>
    obtain ⟨i, hi, -⟩ := h
    cases hi
  | cons j rest ih =>
    rw [List.map_cons]
    cases hj : f j with
    | error e' =>
      rw [honly j (List.mem_cons_self ..) e' hj]
      rfl
    | ok a =>
      obtain ⟨i, hi, he⟩ := h
      have hrest : i ∈ rest := by
        refine (List.mem_cons.mp hi).resolve_left ?_
        rintro rfl
        rw [hj] at he
        cases he
      rw [collect, ih ⟨i, hrest, he⟩ fun k hk => honly k (List.mem_cons_of_mem _ hk)]
      rfl

theorem collect_map_ok (values : List α) :
    collect (values.map (.ok : α → Except ε α)) = .ok values := by
  induction values with
  | nil => rfl
  | cons value values ih => simp only [List.map_cons, collect, ih, Except.map]

theorem collect_first_error {results : List (Except ε α)} {k : Nat} {e : ε}
    (hk : results[k]? = some (.error e))
    (hbefore : ∀ j < k, ∀ r, results[j]? = some r → r.isOk = true) :
    collect results = .error e := by
  induction results generalizing k with
  | nil => cases hk
  | cons r results ih =>
    cases k with
    | zero =>
      cases hk
      rfl
    | succ k =>
      cases r with
      | error e' => exact absurd (hbefore 0 (Nat.succ_pos k) _ rfl) nofun
      | ok a =>
        have hrest := ih (k := k) hk fun j hj => hbefore (j + 1) (Nat.succ_lt_succ hj)
        simp only [collect, hrest, Except.map]

end ChainIndexer.Fanout
