import ChainIndexer.Proofs.Constraint
import ChainIndexer.Proofs.Identifier.Naming
import ChainIndexer.Proofs.Postgres.Catalog
import Mathlib.Data.Nat.Digits.Defs

namespace ChainIndexer

namespace Identifier

variable {s t part : List Char} {name : String} {n : Nat}

theorem byteCount_append (s t : List Char) : byteCount (s ++ t) = byteCount s + byteCount t := by
  induction s with
  | nil => exact (Nat.zero_add _).symm
  | cons c r ih =>
    change c.utf8Size + byteCount (r ++ t) = c.utf8Size + byteCount r + byteCount t
    rw [ih, Nat.add_assoc]

theorem byteCount_ascii (h : ∀ c ∈ s, c.utf8Size = 1) : byteCount s = s.length := by
  induction s with
  | nil => rfl
  | cons c r ih =>
    obtain ⟨hc, hr⟩ := List.forall_mem_cons.mp h
    change c.utf8Size + byteCount r = r.length + 1
    rw [hc, ih hr, Nat.add_comm]

theorem byteCount_clip_le (n : Nat) (s : List Char) : byteCount (clip n s) ≤ n := by
  induction s generalizing n with
  | nil => exact Nat.zero_le n
  | cons c r ih =>
    rw [clip]
    split
    · next hc =>
      have hrest := ih (n - c.utf8Size)
      change c.utf8Size + byteCount (clip (n - c.utf8Size) r) ≤ n
      omega
    · exact Nat.zero_le n

theorem clip_eq_self_iff : clip n s = s ↔ byteCount s ≤ n := by
  refine ⟨fun h => ?_, clip_eq_self⟩
  rw [← h]
  exact byteCount_clip_le n s

theorem clip_append (n : Nat) (s t : List Char) :
    clip n (s ++ t) = if byteCount s ≤ n then s ++ clip (n - byteCount s) t else clip n s := by
  induction s generalizing n with
  | nil => exact (if_pos (Nat.zero_le n)).symm
  | cons c r ih =>
    have hcount : byteCount (c :: r) = c.utf8Size + byteCount r := rfl
    rw [List.cons_append, clip, clip, ih, hcount]
    by_cases hc : c.utf8Size ≤ n
    · rw [if_pos hc, if_pos hc]
      by_cases hr : byteCount r ≤ n - c.utf8Size
      · rw [if_pos hr, if_pos (by omega), Nat.sub_sub, List.cons_append]
      · rw [if_neg hr, if_neg (by omega)]
    · rw [if_neg hc, if_neg hc, if_neg (by omega)]

def kept (name : String) : String := String.ofList (clip maxBytes name.toList)

theorem kept_eq_self_iff : kept name = name ↔ byteCount name.toList ≤ maxBytes := by
  rw [kept, ← String.toList_inj, String.toList_ofList, clip_eq_self_iff]

def Clean (s : List Char) : Prop := ∀ part ∈ parts s, part ≠ [] ∧ '\x00' ∉ part

theorem exists_parts_append (s t : List Char) : ∃ ps p q qs,
    parts s = ps ++ [p] ∧ parts t = q :: qs ∧ parts (s ++ t) = ps ++ (p ++ q) :: qs := by
  obtain ⟨q, qs, ht⟩ := List.exists_cons_of_ne_nil (parts_ne_nil t)
  induction s with
  | nil => exact ⟨[], [], q, qs, rfl, ht, ht⟩
  | cons c r ih =>
    obtain ⟨ps, p, q', qs', hr, ht', happend⟩ := ih
    obtain ⟨rfl, rfl⟩ := List.cons.inj (ht.symm.trans ht')
    simp only [parts] at hr ht happend ⊢
    rw [List.cons_append, Text.splitAll, Text.splitAll, hr, happend]
    by_cases hc : c = '.'
    · exact ⟨[] :: ps, p, q, qs, if_pos hc, ht, if_pos hc⟩
    · rw [if_neg hc, if_neg hc]
      cases ps with
      | nil => exact ⟨[], c :: p, q, qs, rfl, ht, rfl⟩
      | cons p' ps => exact ⟨(c :: p') :: ps, p, q, qs, rfl, ht, rfl⟩

theorem Clean.append (hs : Clean s) (ht : Clean t) : Clean (s ++ t) := by
  obtain ⟨ps, p, q, qs, hps, hqs, happend⟩ := exists_parts_append s t
  rw [Clean, hps, List.forall_mem_append, List.forall_mem_singleton] at hs
  rw [Clean, hqs, List.forall_mem_cons] at ht
  obtain ⟨hps, hp, hpnul⟩ := hs
  obtain ⟨⟨-, hqnul⟩, hqs⟩ := ht
  rw [Clean, happend, List.forall_mem_append, List.forall_mem_cons]
  refine ⟨hps, ⟨List.append_ne_nil_of_left_ne_nil hp q, ?_⟩, hqs⟩
  rw [List.mem_append, not_or]
  exact ⟨hpnul, hqnul⟩

theorem parts_of_notMem (h : '.' ∉ s) : parts s = [s] := by
  have hjoin : joinWith ['.'] [s] = s := rfl
  rw [← hjoin]
  exact parts_joinWith (by simpa using h) (List.cons_ne_nil _ _)

theorem Clean.single (hdot : '.' ∉ s) (hne : s ≠ []) (hnul : '\x00' ∉ s) : Clean s := by
  rw [Clean, parts_of_notMem hdot, List.forall_mem_singleton]
  exact ⟨hne, hnul⟩

theorem validate_eq_ok : validate name = .ok () ↔ usable name = true := by
  rw [validate]
  split
  · next h => exact iff_of_true rfl h
  · next h => exact iff_of_false nofun h

theorem usable_iff : usable name = true ↔ ∀ part ∈ parts name.toList, partUsable part = true :=
  List.all_eq_true

theorem Clean.of_usable (h : usable name = true) : Clean name.toList := by
  intro part hpart
  obtain ⟨hne, -, hnul⟩ := partUsable_iff.mp (usable_iff.mp h part hpart)
  exact ⟨hne, hnul⟩

theorem Clean.validate_iff (h : Clean name.toList) :
    validate name = .ok () ↔ ∀ part ∈ parts name.toList, byteCount part ≤ maxBytes := by
  rw [validate_eq_ok, usable_iff]
  refine forall₂_congr fun part hpart => ?_
  obtain ⟨hne, hnul⟩ := h part hpart
  rw [partUsable_iff]
  exact ⟨fun h => h.2.1, fun h => ⟨hne, h, hnul⟩⟩

theorem exists_parts_concat (name : String) : ∃ ps, parts name.toList = ps ++ [(unqualified name).toList] := by
  obtain ⟨ps, p, hps⟩ : ∃ ps p, parts name.toList = ps ++ [p] :=
    ⟨_, _, (List.dropLast_append_getLast (parts_ne_nil _)).symm⟩
  refine ⟨ps, ?_⟩
  rw [unqualified, hps, List.getLastD_concat, String.toList_ofList]

end Identifier

namespace Postgres

theorem nameUnder_inj {parent a b : String} : nameUnder parent a = nameUnder parent b ↔ a = b := by
  rw [nameUnder, nameUnder]
  cases Identifier.schema? parent with
  | none => exact Iff.rfl
  | some schema => exact String.append_right_inj _

end Postgres

namespace Partition

open Identifier
open Postgres (nameUnder)

variable {parent : String} {lower upper : Int}

def suffix (lower upper : Int) : String := s!"_{lower}_{upper}"

theorem suffix_toList (lower upper : Int) :
    (suffix lower upper).toList = '_' :: (lower.repr.toList ++ '_' :: upper.repr.toList) := by
  simp [suffix, toString]

theorem mem_suffix {c : Char} (hc : c ∈ (suffix lower upper).toList) :
    c = '_' ∨ c.isDigit = true ∨ c = '+' ∨ c = '-' := by
  rw [suffix_toList, List.mem_cons, List.mem_append, List.mem_cons] at hc
  obtain hc | hc | hc | hc := hc
  · exact .inl hc
  · exact .inr ((Text.literal_repr lower).mem hc)
  · exact .inl hc
  · exact .inr ((Text.literal_repr upper).mem hc)

theorem notMem_suffix {c : Char} (h : (c == '_' || c.isDigit || c == '+' || c == '-') = false) :
    c ∉ (suffix lower upper).toList := by
  intro hc
  obtain rfl | hd | rfl | rfl := mem_suffix hc
  · cases h
  · rw [hd] at h
    simp at h
  · cases h
  · cases h

theorem clean_suffix (lower upper : Int) : Clean (suffix lower upper).toList :=
  .single (notMem_suffix (by decide)) (by rw [suffix_toList]; exact List.cons_ne_nil _ _)
    (notMem_suffix (by decide))

theorem byteCount_suffix (lower upper : Int) :
    byteCount (suffix lower upper).toList = lower.repr.length + upper.repr.length + 2 := by
  rw [byteCount_ascii, suffix_toList]
  · simp only [List.length_cons, List.length_append, String.length_toList]
    omega
  · intro c hc
    obtain rfl | hd | rfl | rfl := mem_suffix hc
    · rfl
    · have hle : c.val.toNat ≤ 57 := (Char.isDigit_iff_toNat.mp hd).2
      exact Char.utf8Size_eq_one_iff.mpr (UInt32.le_iff_toNat_le.mpr (hle.trans (by decide)))
    · rfl
    · rfl

theorem unqualified_nameFor (parent : String) (lower upper : Int) :
    (unqualified (nameFor parent lower upper)).toList =
      (unqualified parent).toList ++ (suffix lower upper).toList := by
  obtain ⟨ps, hps⟩ := exists_parts_concat parent
  have hdot : '.' ∉ (suffix lower upper).toList := notMem_suffix (by decide)
  have hparts := parts_append hps hdot
  rw [← String.toList_append] at hparts
  rw [nameFor, ← suffix, unqualified, hparts, List.getLastD_concat, String.toList_ofList]

theorem length_repr_le {n : Int} (h : Int64Range.Holds n) : n.repr.length ≤ 20 := by
  obtain ⟨hlow, hhigh⟩ := h
  simp only [Int64Range.lowest, Int64Range.highest] at hlow hhigh
  cases n with
  | ofNat m =>
    rw [Int.ofNat_eq_natCast] at hhigh
    have hm := Nat.repr_length m 19 (by decide) (by omega)
    change m.repr.length ≤ 20
    omega
  | negSucc m =>
    have hm := Nat.repr_length (m + 1) 19 (by decide) (by omega)
    have hminus : (Int.negSucc m).repr.length = 1 + (m + 1).repr.length := by
      rw [Int.repr, String.length_append]
      rfl
    omega

structure Lodged (parent : String) (p : Partition) : Prop where
  usable : Identifier.validate p.name = .ok () ↔
    byteCount (unqualified p.name).toList ≤ maxBytes
  bytes : byteCount (unqualified p.name).toList =
    byteCount (unqualified parent).toList + (p.lower.repr.length + p.upper.repr.length + 2)
  short : byteCount (unqualified parent).toList ≤ 21 → Identifier.validate p.name = .ok ()
  listed : nameUnder parent (kept (unqualified p.name)) = p.name ↔
    byteCount (unqualified p.name).toList ≤ maxBytes
  attached : ∀ existing, ⟨nameUnder parent (kept (unqualified p.name)), p.lower, p.upper⟩ ∈ existing →
    isAttached existing p = true

theorem clean_nameFor (h : Identifier.usable parent = true) :
    Clean (nameFor parent lower upper).toList := by
  rw [nameFor, ← suffix, String.toList_append]
  exact (Clean.of_usable h).append (clean_suffix lower upper)

theorem validate_nameFor_iff (h : Identifier.usable parent = true) :
    Identifier.validate (nameFor parent lower upper) = .ok () ↔
      byteCount (unqualified (nameFor parent lower upper)).toList ≤ maxBytes := by
  obtain ⟨ps, hps⟩ := exists_parts_concat parent
  have hdot : '.' ∉ (suffix lower upper).toList := notMem_suffix (by decide)
  have hparts := parts_append hps hdot
  rw [← unqualified_nameFor, ← String.toList_append] at hparts
  have hkept : ∀ part ∈ ps, byteCount part ≤ maxBytes := fun part hpart =>
    (partUsable_iff.mp (usable_iff.mp h part (hps ▸ List.mem_append_left _ hpart))).2.1
  rw [(clean_nameFor h).validate_iff, nameFor, ← suffix, hparts, List.forall_mem_append,
    List.forall_mem_singleton]
  exact and_iff_right hkept

theorem lodged (h : Identifier.usable parent = true) (hlower : Int64Range.Holds lower)
    (hupper : Int64Range.Holds upper) : Lodged parent (forRange parent lower upper) := by
  have husable : Identifier.validate (nameFor parent lower upper) = .ok () ↔
      byteCount (unqualified (nameFor parent lower upper)).toList ≤ maxBytes :=
    validate_nameFor_iff h
  have hbytes : byteCount (unqualified (nameFor parent lower upper)).toList =
      byteCount (unqualified parent).toList + (lower.repr.length + upper.repr.length + 2) := by
    rw [unqualified_nameFor, byteCount_append, byteCount_suffix]
  refine ⟨husable, hbytes, fun hshort => husable.mpr ?_, ?_, fun existing hmem => ?_⟩
  · have hl := length_repr_le hlower
    have hu := length_repr_le hupper
    rw [hbytes, maxBytes]
    omega
  · have hname := Postgres.nameUnder_unqualified parent lower upper
    calc nameUnder parent (kept (unqualified (nameFor parent lower upper))) = nameFor parent lower upper
      _ ↔ nameUnder parent (kept (unqualified (nameFor parent lower upper))) =
          nameUnder parent (unqualified (nameFor parent lower upper)) := by rw [hname]
      _ ↔ kept (unqualified (nameFor parent lower upper)) =
          unqualified (nameFor parent lower upper) := Postgres.nameUnder_inj
      _ ↔ byteCount (unqualified (nameFor parent lower upper)).toList ≤ maxBytes := kept_eq_self_iff
  · refine List.any_eq_true.mpr ⟨_, hmem, ?_⟩
    simp [sameRange]

end Partition

namespace Constraint

open Identifier

variable {partition column : String} {s t : CheckState}

def stem (partition column : String) : String := unqualified partition ++ "_" ++ column ++ "_"

theorem nameFor_toList (partition column : String) (s : CheckState) :
    (nameFor partition column s).toList = (stem partition column).toList ++ s.text.toList := by
  rw [nameFor, ← stem, String.toList_append]

theorem eq_of_text_initial (h : t.text.toList <+: s.text.toList) : t = s := by
  revert h
  cases s <;> cases t <;> decide

structure Lodged (partition column : String) : Prop where
  usable : ∀ s, Identifier.validate (nameFor partition column s) = .ok () ↔
    ∀ part ∈ parts (nameFor partition column s).toList, byteCount part ≤ maxBytes
  bytes : ∀ s, byteCount (nameFor partition column s).toList =
    byteCount (unqualified partition).toList + byteCount column.toList + (s.text.length + 2)
  recognised : ∀ s, stateOf? partition column (kept (nameFor partition column s)) =
    if byteCount (nameFor partition column s).toList ≤ maxBytes then some s else none
  distinct : kept (nameFor partition column .inserting) ≠ kept (nameFor partition column .done) ↔
    byteCount (stem partition column).toList < maxBytes

theorem stateOf?_kept (partition column : String) (s : CheckState) :
    stateOf? partition column (kept (nameFor partition column s)) =
      if byteCount (nameFor partition column s).toList ≤ maxBytes then some s else none := by
  split
  · next hfits => rw [kept_eq_self_iff.mpr hfits, stateOf?_nameFor]
  · next hlong =>
    rw [Option.eq_none_iff_forall_ne_some]
    intro t ht
    -- the rest of a name would be the whole name of a state, and of no other than its own
    have hkept := stateOf?_eq_some.mp ht
    have hinitial := clip_initial maxBytes (nameFor partition column s).toList
    rw [← String.toList_ofList (l := clip _ _), ← kept, hkept, nameFor_toList, nameFor_toList,
      List.prefix_append_right_inj] at hinitial
    obtain rfl := eq_of_text_initial hinitial
    exact hlong (kept_eq_self_iff.mp hkept)

theorem clip_text_eq_iff {n : Nat} : clip n CheckState.inserting.text.toList =
    clip n CheckState.done.text.toList ↔ n = 0 := by
  cases n with
  | zero => exact iff_of_true rfl rfl
  | succ n =>
    refine iff_of_false (fun h => ?_) (Nat.succ_ne_zero n)
    -- a byte is room for the first letter, in which the two differ
    have hfirst : some 'i' = some 'd' := congrArg List.head? h
    exact absurd hfirst (by decide)

theorem kept_nameFor_ne_iff (partition column : String) :
    kept (nameFor partition column .inserting) ≠ kept (nameFor partition column .done) ↔
      byteCount (stem partition column).toList < maxBytes := by
  rw [Ne, kept, kept, ← String.toList_inj, String.toList_ofList, String.toList_ofList,
    nameFor_toList, nameFor_toList, clip_append, clip_append]
  by_cases hstem : byteCount (stem partition column).toList ≤ maxBytes
  · rw [if_pos hstem, if_pos hstem, List.append_right_inj, clip_text_eq_iff]
    omega
  · rw [if_neg hstem, if_neg hstem]
    exact iff_of_false (fun h => h rfl) (by omega)

theorem clean_nameFor (hp : Clean partition.toList) (hc : Clean column.toList) (s : CheckState) :
    Clean (nameFor partition column s).toList := by
  obtain ⟨ps, hps⟩ := exists_parts_concat partition
  have hlast : (unqualified partition).toList ∈ parts partition.toList := by simp [hps]
  have hunqualified : Clean (unqualified partition).toList :=
    .single (dot_notMem_of_mem_parts hlast) (hp _ hlast).1 (hp _ hlast).2
  have hline : Clean "_".toList := .single (by decide) (by decide) (by decide)
  have htext : Clean s.text.toList := by
    cases s <;> exact .single (by decide) (by decide) (by decide)
  simp only [nameFor, String.toList_append]
  exact (((hunqualified.append hline).append hc).append hline).append htext

theorem byteCount_nameFor (partition column : String) (s : CheckState) :
    byteCount (nameFor partition column s).toList =
      byteCount (unqualified partition).toList + byteCount column.toList + (s.text.length + 2) := by
  have htext : byteCount s.text.toList = s.text.length := by cases s <;> rfl
  have hline : byteCount "_".toList = 1 := rfl
  simp only [nameFor, String.toList_append, byteCount_append, htext, hline]
  omega

theorem lodged (hp : Clean partition.toList) (hc : Clean column.toList) : Lodged partition column :=
  ⟨fun s => (clean_nameFor hp hc s).validate_iff, byteCount_nameFor partition column,
    stateOf?_kept partition column, kept_nameFor_ne_iff partition column⟩

end Constraint

end ChainIndexer
