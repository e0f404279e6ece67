import ChainIndexer.Postgres.Row
import ChainIndexer.Proofs.Identifier
import ChainIndexer.Proofs.Partition
import ChainIndexer.Proofs.Partition.Bound
import Mathlib.Data.List.Perm.Basic

namespace ChainIndexer

namespace Partition

open Text

namespace Bound

/-- How the catalog prints a range; numbers stand between quotes or bare. -/
inductive Printed (lower upper : Int) : String → Prop
  | quoted : Printed lower upper s!"FOR VALUES FROM ('{lower}') TO ('{upper}')"
  | bare : Printed lower upper s!"FOR VALUES FROM ({lower}) TO ({upper})"

variable {lower upper : Int}

theorem Printed.pieces {text : String} (h : Printed lower upper text) :
    ∃ quote, Quotes quote ∧ text.toList = "FOR VALUES ".toList ++ opening ++
      (quote ++ lower.repr.toList ++ quote) ++ middle ++
      (quote ++ upper.repr.toList ++ quote) ++ [')'] := by
  cases h with
  | quoted =>
    refine ⟨['\''], fun _ => List.mem_singleton.mp, ?_⟩
    have hfront : "FOR VALUES FROM ('".toList = "FOR VALUES ".toList ++ opening ++ ['\''] := by
      decide
    have hturn : "') TO ('".toList = ['\''] ++ middle ++ ['\''] := by decide
    have hback : "')".toList = ['\''] ++ [')'] := by decide
    simp only [toString, String.toList_append, hfront, hturn, hback, List.append_assoc]
  | bare =>
    refine ⟨[], fun _ hc => absurd hc List.not_mem_nil, ?_⟩
    have hfront : "FOR VALUES FROM (".toList = "FOR VALUES ".toList ++ opening := by decide
    have hturn : ") TO (".toList = middle := rfl
    have hback : ")".toList = [')'] := rfl
    simp only [toString, String.toList_append, hfront, hturn, hback, List.append_assoc,
      List.nil_append]

theorem padded_quoted {quote digits : List Char} {n : Int} (hq : Quotes quote)
    (literal : Literal digits n) (inRange : Int64Range.Holds n) :
    Padded (quote ++ digits ++ quote) n := by
  have nothing : Blanks [] := fun _ h => nomatch h
  have h := Padded.mk nothing hq literal inRange hq nothing
  rwa [List.nil_append, List.append_nil] at h

theorem asciiUppercase_append (s t : List Char) :
    asciiUppercase (s ++ t) = asciiUppercase s ++ asciiUppercase t := List.map_append

theorem cut_of_pieces {x y : List Char} (hx : ')' ∉ x) (hy : ')' ∉ y) :
    Cut ("FOR VALUES ".toList ++ opening ++ x ++ middle ++ y ++ [')']) "FOR VALUES ".toList x y
      [')'] := by
  have hopening : asciiUppercase opening = opening := by decide
  have hmiddle : asciiUppercase middle = middle := by decide
  have hwords : asciiUppercase ("FOR VALUES ".toList ++ opening) = "FOR VALUES ".toList ++ opening := by
    decide
  refine ⟨⟨opening, middle, rfl, hopening, hmiddle⟩, ?_, ?_, hy, ?_⟩
  · have hfirst : FirstAt opening ("FOR VALUES ".toList ++ opening) 11 := ⟨by decide, by decide⟩
    simp only [asciiUppercase_append _ x, asciiUppercase_append _ middle, asciiUppercase_append _ y,
      asciiUppercase_append _ [')'], hwords, List.append_assoc _ _ (asciiUppercase _)]
    exact hfirst.append (by decide) _
  · have hlength : (asciiUppercase ("FOR VALUES ".toList ++ opening ++ x)).length =
        "FOR VALUES ".toList.length + 6 + x.length := by
      rw [asciiUppercase, List.length_map, List.length_append, List.length_append, length_opening]
    have hparen : ')' ∉ asciiUppercase ("FOR VALUES ".toList ++ opening ++ x) := by
      intro hmem
      rcases List.mem_append.mp (mem_asciiUppercase (by decide) hmem) with h | h
      · exact absurd h (by decide)
      · exact hx h
    rw [← hlength, List.append_assoc _ y, asciiUppercase_append, asciiUppercase_append _ middle,
      hmiddle]
    exact .of_notMem hparen _
  · rintro c ⟨⟩
    rfl

theorem parse_printed {text : String} (h : Printed lower upper text) (hlt : lower < upper)
    (hlower : Int64Range.Holds lower) (hupper : Int64Range.Holds upper) :
    parse text = .ok (lower, upper) := by
  obtain ⟨quote, hquote, htext⟩ := h.pieces
  have hx := padded_quoted hquote (literal_repr lower) hlower
  have hy := padded_quoted hquote (literal_repr upper) hupper
  have cut := cut_of_pieces hx.no_parens.2 hy.no_parens.2
  rw [← htext] at cut
  exact parse_eq_ok_iff.mpr ⟨hlt, _, _, _, _, cut, hx, hy⟩

end Bound

end Partition

namespace Postgres

open ChainIndexer.Partition (nameFor forRange isAttached)

variable {parent : String} {lower upper : Int}

theorem dot_notMem_repr (n : Int) : '.' ∉ n.repr.toList := by
  intro h
  rcases (Text.literal_repr n).mem h with h | h | h <;> exact absurd h (by decide)

theorem exists_suffix (parent : String) (lower upper : Int) :
    ∃ suffix : String, nameFor parent lower upper = parent ++ suffix ∧ '.' ∉ suffix.toList := by
  refine ⟨_, rfl, ?_⟩
  simp [toString, dot_notMem_repr]

theorem nameUnder_unqualified (parent : String) (lower upper : Int) :
    nameUnder parent (Identifier.unqualified (nameFor parent lower upper)) =
      nameFor parent lower upper := by
  obtain ⟨suffix, hname, hdot⟩ := exists_suffix parent lower upper
  obtain ⟨ps, p, hparts⟩ : ∃ ps p, Identifier.parts parent.toList = ps ++ [p] :=
    ⟨_, _, (List.dropLast_append_getLast (Identifier.parts_ne_nil _)).symm⟩
  have hlast : Identifier.unqualified (parent ++ suffix) = String.ofList (p ++ suffix.toList) := by
    rw [Identifier.unqualified, String.toList_append, Identifier.parts_append hparts hdot,
      List.getLastD_concat]
  have hparent := Identifier.joinWith_parts parent.toList
  rw [hparts] at hparent
  rw [hname, hlast, nameUnder, Identifier.schema?, hparts, List.dropLast_concat, ← String.toList_inj]
  cases ps with
  | nil =>
    rw [List.nil_append, Identifier.joinWith] at hparent
    simp only [String.toList_ofList, String.toList_append, hparent]
  | cons q qs =>
    rw [Identifier.joinWith_concat _ (List.cons_ne_nil q qs)] at hparent
    simp only [String.toList_ofList, String.toList_append, ← hparent, List.append_assoc]
    rfl

def rowOf (name bound : String) : Row := [⟨.text, some (.text name)⟩, ⟨.text, some (.text bound)⟩]

inductive Listed (parent : String) (lower upper : Int) : Row → Prop
  | mk {bound} (printed : Partition.Bound.Printed lower upper bound) :
      Listed parent lower upper (rowOf (Identifier.unqualified (nameFor parent lower upper)) bound)

inductive Unranged : Row → Prop
  | mk (name : String) : Unranged (rowOf name "DEFAULT")

variable {row : Row}

theorem isDefaultBound_printed {bound : String} (h : Partition.Bound.Printed lower upper bound) :
    isDefaultBound bound = false := by
  obtain ⟨quote, -, hbound⟩ := h.pieces
  have hparen : ')' ∈ bound.toList := by
    rw [hbound]
    exact List.mem_append_right _ (List.mem_singleton_self _)
  obtain ⟨l, r, hsplit, hl, hr⟩ := Text.exists_strip Text.isBlank bound.toList
  have htrim : ')' ∈ Text.trim bound.toList := by
    rw [hsplit, List.mem_append, List.mem_append] at hparen
    rcases hparen with (h | h) | h
    · exact absurd (hl _ h) (by decide)
    · exact h
    · exact absurd (hr _ h) (by decide)
  have hupper : ')' ∈ Text.asciiUppercase (Text.trim bound.toList) :=
    List.mem_map_of_mem (f := Text.asciiUpper) htrim
  rw [isDefaultBound, beq_eq_false_iff_ne]
  intro h
  rw [h] at hupper
  exact absurd hupper (by decide)

theorem partitionOf_row (parent name bound : String) :
    partitionOf parent (rowOf name bound) =
      if isDefaultBound bound then .ok none
      else ((Partition.Bound.parse bound).mapError .planning).bind fun r =>
        .ok (some ⟨nameUnder parent name, r.1, r.2⟩) := rfl

theorem partitionOf_listed (hrow : Listed parent lower upper row) (hlt : lower < upper)
    (hlower : Int64Range.Holds lower) (hupper : Int64Range.Holds upper) :
    partitionOf parent row = .ok (some (forRange parent lower upper)) := by
  cases hrow with
  | mk printed =>
    rw [partitionOf_row, isDefaultBound_printed printed, nameUnder_unqualified,
      Partition.Bound.parse_printed printed hlt hlower hupper]
    rfl

theorem partitionOf_unranged (h : Unranged row) : partitionOf parent row = .ok none := by
  cases h with
  | mk name =>
    have hdefault : isDefaultBound "DEFAULT" = true := by decide +kernel
    rw [partitionOf_row, if_pos hdefault]

theorem mapM_of_forall₂ {α β ε : Type} {f : α → Except ε β} {l : List α} {r : List β}
    (h : List.Forall₂ (fun a b => f a = .ok b) l r) : l.mapM f = .ok r := by
  induction h with
  | nil => rfl
  | cons hab _ ih => rw [List.mapM_cons, hab, ih]; rfl

theorem sorted_pairwise {ps : List Partition} (distinct : (ps.map Partition.lower).Nodup) :
    (Partition.sorted ps).Pairwise (·.lower < ·.lower) := by
  have hle : (Partition.sorted ps).Pairwise (·.lower ≤ ·.lower) := by
    have h := @List.pairwise_mergeSort Partition (fun p q => decide (p.lower ≤ q.lower))
      (by simp only [decide_eq_true_eq]; exact fun _ _ _ => Int.le_trans)
      (by simp only [Bool.or_eq_true, decide_eq_true_eq]; exact fun _ _ => Int.le_total _ _) ps
    exact h.imp of_decide_eq_true
  have hne : (Partition.sorted ps).Pairwise (·.lower ≠ ·.lower) :=
    List.pairwise_map.mp (((List.mergeSort_perm ps _).map Partition.lower).nodup_iff.mpr distinct)
  exact hle.imp₂ (fun _ _ hpq hne => Int.lt_iff_le_and_ne.mpr ⟨hpq, hne⟩) hne

theorem isAttached_forRange {ranges : List (Int × Int)} {ps : List Partition}
    (h : ps.Perm (ranges.map fun r => forRange parent r.1 r.2)) (lower upper : Int) :
    isAttached ps (forRange parent lower upper) = true ↔ (lower, upper) ∈ ranges := by
  rw [isAttached, List.any_eq_true]
  constructor
  · rintro ⟨p, hp, hsame⟩
    obtain ⟨⟨l, u⟩, hr, rfl⟩ := List.mem_map.mp (h.mem_iff.mp hp)
    rw [Bool.or_eq_true, beq_iff_eq, Partition.sameRange, Bool.and_eq_true, beq_iff_eq,
      beq_iff_eq] at hsame
    have heq : l = lower ∧ u = upper := hsame.elim Partition.nameFor_inj.mp id
    rw [← heq.1, ← heq.2]
    exact hr
  · intro hr
    refine ⟨forRange parent lower upper, h.mem_iff.mpr (List.mem_map.mpr ⟨_, hr, rfl⟩), ?_⟩
    rw [Bool.or_eq_true, beq_iff_eq]
    exact .inl rfl

theorem catalog_reads_back {ranges : List (Int × Int)} {listed defaults rows : List Row}
    (holds : ∀ r ∈ ranges, Int64Range.Holds r.1 ∧ Int64Range.Holds r.2)
    (ordered : ∀ r ∈ ranges, r.1 < r.2) (distinct : (ranges.map Prod.fst).Nodup)
    (hlisted : List.Forall₂ (fun r row => Listed parent r.1 r.2 row) ranges listed)
    (hdefaults : ∀ row ∈ defaults, Unranged row) (hrows : rows.Perm (listed ++ defaults)) :
    ∃ ps, partitionsOf parent rows = .ok ps ∧
      ps.Perm (ranges.map fun r => forRange parent r.1 r.2) ∧
      ps.Pairwise (·.lower < ·.lower) ∧
      ∀ lower upper, isAttached ps (forRange parent lower upper) = true ↔
        (lower, upper) ∈ ranges := by
  have hread : List.Forall₂ (fun row p => partitionOf parent row = .ok p) (listed ++ defaults)
      ((ranges.map fun r => some (forRange parent r.1 r.2)) ++ defaults.map fun _ => none) := by
    apply List.rel_append
    · have sound : ∀ r ∈ ranges, r.1 < r.2 ∧ Int64Range.Holds r.1 ∧ Int64Range.Holds r.2 :=
        fun r hr => ⟨ordered r hr, holds r hr⟩
      rw [List.forall₂_map_right_iff]
      exact ((List.forall₂_and_left _ _).mpr ⟨sound, hlisted⟩).flip.imp
        fun row r ⟨⟨hlt, hlower, hupper⟩, hrow⟩ => partitionOf_listed hrow hlt hlower hupper
    · rw [List.forall₂_map_right_iff, List.forall₂_same]
      exact fun row hrow => partitionOf_unranged (hdefaults row hrow)
  obtain ⟨found, hfound, hperm⟩ := List.perm_comp_forall₂ hrows hread
  have hranges : (found.filterMap id).Perm (ranges.map fun r => forRange parent r.1 r.2) := by
    have h := hperm.filterMap id
    simpa [List.filterMap_append, List.filterMap_map, Function.comp_def] using h
  have hsorted : (Partition.sorted (found.filterMap id)).Perm
      (ranges.map fun r => forRange parent r.1 r.2) := (List.mergeSort_perm _ _).trans hranges
  refine ⟨_, ?_, hsorted, sorted_pairwise ?_, isAttached_forRange hsorted⟩
  · rw [partitionsOf, mapM_of_forall₂ hfound]
    rfl
  · rw [(hranges.map Partition.lower).nodup_iff, List.map_map]
    exact distinct

theorem catalog_reads_back_extreme_bounds :
    ∃ ps, partitionsOf "chain.event"
        [rowOf "event_rest" "DEFAULT",
          rowOf "event_5_9223372036854775807" "FOR VALUES FROM (5) TO (9223372036854775807)",
          rowOf "event_-9223372036854775808_-1"
            "FOR VALUES FROM ('-9223372036854775808') TO ('-1')"] = .ok ps ∧
      ps.Perm [forRange "chain.event" (-9223372036854775808) (-1),
        forRange "chain.event" 5 9223372036854775807] ∧
      ps.Pairwise (·.lower < ·.lower) ∧
      isAttached ps (forRange "chain.event" (-9223372036854775808) (-1)) = true := by
  have low : Listed "chain.event" (-9223372036854775808) (-1)
      (rowOf "event_-9223372036854775808_-1"
        "FOR VALUES FROM ('-9223372036854775808') TO ('-1')") := by
    have hname : Identifier.unqualified (nameFor "chain.event" (-9223372036854775808) (-1)) =
        "event_-9223372036854775808_-1" := by decide +kernel
    exact hname ▸ .mk .quoted
  have high : Listed "chain.event" 5 9223372036854775807
      (rowOf "event_5_9223372036854775807" "FOR VALUES FROM (5) TO (9223372036854775807)") := by
    have hname : Identifier.unqualified (nameFor "chain.event" 5 9223372036854775807) =
        "event_5_9223372036854775807" := by decide +kernel
    exact hname ▸ .mk .bare
  have ranges : List.Forall₂ (fun (r : Int × Int) row => Listed "chain.event" r.1 r.2 row)
      [(-9223372036854775808, -1), (5, 9223372036854775807)] _ := .cons low (.cons high .nil)
  obtain ⟨ps, hread, hperm, hsorted, hattached⟩ := catalog_reads_back (by decide) (by decide)
    (by decide) ranges (List.forall_mem_singleton.mpr (.mk "event_rest")) (List.reverse_perm _)
  exact ⟨ps, hread, hperm, hsorted, (hattached _ _).mpr (by decide)⟩

end Postgres

end ChainIndexer
