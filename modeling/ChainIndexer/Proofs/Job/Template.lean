import ChainIndexer.Job.Template
import ChainIndexer.Proofs.Text

namespace ChainIndexer.Template

inductive Mark where
  | start
  | stop
  deriving DecidableEq

def Mark.chars : Mark → List Char
  | start => startMark
  | stop => stopMark

inductive Piece where
  | mark (m : Mark)
  | other (c : Char)
  deriving DecidableEq

def pieces : List Char → List Piece
  | '\x7b' :: 's' :: 't' :: 'a' :: 'r' :: 't' :: '\x7d' :: r => .mark .start :: pieces r
  | '\x7b' :: 'e' :: 'n' :: 'd' :: '\x7d' :: r => .mark .stop :: pieces r
  | c :: r => .other c :: pieces r
  | [] => []

def Piece.written (value : Mark → List Char) : Piece → List Char
  | mark m => value m
  | other c => [c]

def Piece.filled (m : Mark) (v : List Char) : Piece → List Piece
  | mark n => if n = m then v.map other else [mark n]
  | other c => [other c]

variable {m n : Mark} {c : Char} {pattern v s r : List Char}

theorem Mark.chars_eq (m : Mark) : ∃ q, m.chars = '\x7b' :: q ∧ '\x7b' ∉ q := by
  cases m with
  | start => exact ⟨_, rfl, by decide⟩
  | stop => exact ⟨_, rfl, by decide⟩

theorem Mark.chars_ne_nil (m : Mark) : m.chars ≠ [] := by
  cases m <;> exact List.cons_ne_nil _ _

theorem Mark.chars_prefix (h : m.chars <+: n.chars ++ r) : m = n := by
  cases m <;> cases n <;> simp_all [chars, startMark, stopMark]

theorem pieces_mark (m : Mark) (r : List Char) : pieces (m.chars ++ r) = .mark m :: pieces r := by
  cases m <;> rfl

theorem pieces_other (h : ∀ m : Mark, ¬m.chars <+: c :: r) :
    pieces (c :: r) = .other c :: pieces r := by
  rw [pieces]
  · rintro t rfl rfl
    exact h .start ⟨t, rfl⟩
  · rintro t rfl rfl
    exact h .stop ⟨t, rfl⟩

theorem pieces_induction {motive : List Char → Prop} (nil : motive [])
    (mark : ∀ (m : Mark) r, motive r → motive (m.chars ++ r))
    (other : ∀ c r, (∀ m : Mark, ¬m.chars <+: c :: r) → motive r → motive (c :: r))
    (s : List Char) : motive s := by
  induction s using pieces.induct with
  | case1 r ih => exact mark .start r ih
  | case2 r ih => exact mark .stop r ih
  | case3 c r hstart hstop ih =>
    refine other c r (fun m => ?_) ih
    rintro ⟨t, ht⟩
    cases m with
    | start => obtain ⟨rfl, rfl⟩ := List.cons.inj ht; exact hstart t rfl rfl
    | stop => obtain ⟨rfl, rfl⟩ := List.cons.inj ht; exact hstop t rfl rfl
  | case4 => exact nil

theorem pieces_append (hv : ∀ c ∈ v, ∀ m : Mark, c ∉ m.chars) (r : List Char) :
    pieces (v ++ r) = v.map .other ++ pieces r := by
  induction v with
  | nil => rfl
  | cons c v ih =>
    obtain ⟨hc, hv⟩ := List.forall_mem_cons.mp hv
    have hnone (m : Mark) : ¬m.chars <+: c :: (v ++ r) := by
      obtain ⟨q, hq, -⟩ := m.chars_eq
      rw [hq, List.cons_prefix_cons]
      rintro ⟨rfl, -⟩
      exact hc m (hq ▸ List.mem_cons_self ..)
    rw [List.cons_append, pieces_other hnone, ih hv]
    rfl

theorem flatMap_written_pieces (s : List Char) :
    (pieces s).flatMap (Piece.written Mark.chars) = s := by
  induction s using pieces_induction with
  | nil => rfl
  | mark m r ih => rw [pieces_mark, List.flatMap_cons, ih]; rfl
  | other c r h ih => rw [pieces_other h, List.flatMap_cons, ih]; rfl

theorem replace_append (hne : pattern ≠ []) (v r : List Char) :
    replace pattern v (pattern ++ r) = v ++ replace pattern v r := by
  have passed (t : List Char) : replaceFrom pattern v t.length (t ++ r) = replace pattern v r := by
    induction t with
    | nil => rfl
    | cons c t ih => exact ih
  obtain ⟨c, q, rfl⟩ := List.exists_cons_of_ne_nil hne
  have hhere : (c :: q).isPrefixOf (c :: (q ++ r)) := List.isPrefixOf_iff_prefix.mpr ⟨r, rfl⟩
  rw [replace, List.cons_append, replaceFrom, if_pos hhere]
  exact congrArg (v ++ ·) (passed q)

theorem replace_cons (h : ¬pattern <+: c :: r) (v : List Char) :
    replace pattern v (c :: r) = c :: replace pattern v r := by
  rw [replace, replaceFrom, if_neg (mt List.isPrefixOf_iff_prefix.mp h)]
  rfl

theorem replace_append_of_notMem {q t : List Char} (h : c ∉ t) (v r : List Char) :
    replace (c :: q) v (t ++ r) = t ++ replace (c :: q) v r := by
  induction t with
  | nil => rfl
  | cons d t ih =>
    obtain ⟨hd, ht⟩ := not_or.mp (mt List.mem_cons.mpr h)
    rw [List.cons_append, replace_cons (fun hp => hd (List.cons_prefix_cons.mp hp).1), ih ht]
    rfl

theorem prefix_of_prefix_replace {t : List Char} (hpattern : pattern ≠ []) (hv : v ≠ [])
    (hvt : ∀ c ∈ v, c ∉ t) (h : t <+: replace pattern v r) : t <+: r := by
  induction t generalizing r with
  | nil => exact List.nil_prefix
  | cons d t ih =>
    cases r with
    | nil => exact h
    | cons c r =>
      by_cases hp : pattern <+: c :: r
      · obtain ⟨r', hr⟩ := hp
        obtain ⟨e, v', rfl⟩ := List.exists_cons_of_ne_nil hv
        rw [← hr, replace_append hpattern, List.cons_append] at h
        obtain rfl := (List.cons_prefix_cons.mp h).1
        exact absurd (List.mem_cons_self ..) (hvt d (List.mem_cons_self ..))
      · rw [replace_cons hp] at h
        obtain ⟨rfl, hrest⟩ := List.cons_prefix_cons.mp h
        refine List.cons_prefix_cons.mpr ⟨rfl, ih (fun e he => ?_) hrest⟩
        exact (not_or.mp (mt List.mem_cons.mpr (hvt e he))).2

structure Inert (v : List Char) : Prop where
  ne_nil : v ≠ []
  apart : ∀ c ∈ v, ∀ m : Mark, c ∉ m.chars

theorem replace_other_mark (h : n ≠ m) (v r : List Char) :
    replace m.chars v (n.chars ++ r) = n.chars ++ replace m.chars v r := by
  obtain ⟨p, hp, -⟩ := m.chars_eq
  obtain ⟨q, hq, hnot⟩ := n.chars_eq
  have hnone : ¬m.chars <+: '\x7b' :: (q ++ r) := by
    intro hm
    rw [← List.cons_append, ← hq] at hm
    exact h (Mark.chars_prefix hm).symm
  rw [hq, List.cons_append, replace_cons hnone, hp, replace_append_of_notMem hnot]
  rfl

theorem Inert.prefix_of_replace (hv : Inert v) (h : n.chars <+: c :: replace m.chars v r) :
    n.chars <+: c :: r := by
  obtain ⟨q, hq, -⟩ := n.chars_eq
  rw [hq] at h ⊢
  obtain ⟨rfl, hrest⟩ := List.cons_prefix_cons.mp h
  refine List.cons_prefix_cons.mpr
    ⟨rfl, prefix_of_prefix_replace m.chars_ne_nil hv.ne_nil (fun d hd hmem => ?_) hrest⟩
  exact hv.apart d hd n (hq ▸ List.mem_cons_of_mem _ hmem)

theorem Inert.pieces_replace (hv : Inert v) (m : Mark) (s : List Char) :
    pieces (replace m.chars v s) = (pieces s).flatMap (Piece.filled m v) := by
  induction s using pieces_induction with
  | nil => rfl
  | mark n r ih =>
    rw [pieces_mark, List.flatMap_cons, Piece.filled, ← ih]
    by_cases h : n = m
    · subst h
      rw [replace_append n.chars_ne_nil, pieces_append hv.apart, if_pos rfl]
    · rw [replace_other_mark h, pieces_mark, if_neg h]
      rfl
  | other c r h ih =>
    have hnone (n : Mark) : ¬n.chars <+: c :: replace m.chars v r :=
      fun hn => h n (hv.prefix_of_replace hn)
    rw [replace_cons (h m), pieces_other hnone, pieces_other h, List.flatMap_cons, ← ih]
    rfl

theorem replace_eq (m : Mark) (v s : List Char) :
    replace m.chars v s = (pieces s).flatMap (Piece.written (Function.update Mark.chars m v)) := by
  induction s using pieces_induction with
  | nil => rfl
  | mark n r ih =>
    rw [pieces_mark, List.flatMap_cons, Piece.written, ← ih]
    by_cases h : n = m
    · subst h
      rw [replace_append n.chars_ne_nil, Function.update_self]
    · rw [replace_other_mark h, Function.update_of_ne h]
  | other c r h ih =>
    rw [replace_cons (h m), pieces_other h, List.flatMap_cons, ← ih]
    rfl

theorem Inert.replace_replace (hv : Inert v) (h : m ≠ n) (w s : List Char) :
    replace n.chars w (replace m.chars v s) =
      (pieces s).flatMap
        (Piece.written (Function.update (Function.update Mark.chars m v) n w)) := by
  rw [replace_eq, hv.pieces_replace, List.flatMap_assoc]
  congr 1
  funext p
  cases p with
  | other c => rfl
  | mark k =>
    rw [Piece.filled, Piece.written]
    by_cases hk : k = m
    · subst hk
      rw [if_pos rfl, List.flatMap_map, Function.update_of_ne h, Function.update_self]
      exact List.flatMap_singleton' v
    · rw [if_neg hk, List.flatMap_singleton, Piece.written, Function.update_comm h,
        Function.update_of_ne hk]

def bound (w : Window) : Mark → List Char
  | .start => (toString w.start).toList
  | .stop => (toString w.stop).toList

theorem Mark.isDigit_of_mem (hc : c ∈ m.chars) : c.isDigit = false := by
  have hall : m.chars.all (!·.isDigit) = true := by cases m <;> rfl
  rw [← Bool.not_eq_true']
  exact List.all_eq_true.mp hall c hc

theorem inert_toString (n : Int) : Inert (toString n).toList := by
  have hn : Text.Literal (toString n).toList n := Text.literal_repr n
  refine ⟨fun hnil => ?_, fun c hc m hm => ?_⟩
  · rw [hnil] at hn
    cases hn with
    | bare digits => exact digits.1 rfl
  · obtain hdigit | rfl | rfl := hn.mem hc
    · rw [Mark.isDigit_of_mem hm] at hdigit
      cases hdigit
    · cases m <;> exact absurd hm (by decide)
    · cases m <;> exact absurd hm (by decide)

theorem inert_bound (w : Window) (m : Mark) : Inert (bound w m) := by
  cases m <;> exact inert_toString _

theorem update_bound (w : Window) (h : m ≠ n) :
    Function.update (Function.update Mark.chars m (bound w m)) n (bound w n) = bound w := by
  have only (k : Mark) (hk : k ≠ n) : k = m := by
    cases k <;> cases m <;> cases n <;> simp_all
  funext k
  by_cases hk : k = n
  · subst hk
    exact Function.update_self ..
  · obtain rfl := only k hk
    rw [Function.update_of_ne hk, Function.update_self]

theorem render_simultaneous (template : String) (w : Window) :
    (pieces template.toList).flatMap (Piece.written Mark.chars) = template.toList ∧
      (render template w).toList = (pieces template.toList).flatMap (Piece.written (bound w)) ∧
      (render template w).toList = replace startMark (bound w .start)
        (replace stopMark (bound w .stop) template.toList) ∧
      ∀ m : Mark, pieces (replace m.chars (bound w m) template.toList) =
        (pieces template.toList).flatMap (Piece.filled m (bound w m)) := by
  have both (m n : Mark) (h : m ≠ n) : replace n.chars (bound w n)
      (replace m.chars (bound w m) template.toList) =
        (pieces template.toList).flatMap (Piece.written (bound w)) := by
    rw [(inert_bound w m).replace_replace h, update_bound w h]
  have hrender : (render template w).toList =
      (pieces template.toList).flatMap (Piece.written (bound w)) := by
    rw [render, String.toList_ofList]
    exact both .start .stop (by decide)
  refine ⟨flatMap_written_pieces _, hrender, ?_, fun m => (inert_bound w m).pieces_replace m _⟩
  rw [hrender]
  exact (both .stop .start (by decide)).symm

example : render "\x7b\x7bstart\x7d\x7bend\x7b\x7bend\x7d" ⟨5, -9⟩ =
    "\x7b5\x7bend\x7b-9" := by decide

end ChainIndexer.Template
