import ChainIndexer.Text.Blank
import ChainIndexer.Text.Integer
import Mathlib.Data.List.Infix
import Mathlib.Data.List.TakeWhile

namespace ChainIndexer.Text

def Digits (s : List Char) : Prop := s ≠ [] ∧ ∀ c ∈ s, c.isDigit

def value (s : List Char) : Nat := Nat.ofDigitChars 10 s 0

inductive Literal : List Char → Int → Prop
  | bare {s} (digits : Digits s) : Literal s (value s)
  | plus {s} (digits : Digits s) : Literal ('+' :: s) (value s)
  | minus {s} (digits : Digits s) : Literal ('-' :: s) (-(value s))

section

variable {s : List Char} {n : Int}

theorem digits?_eq (m : Nat) (s : List Char) :
    digits? m s = if s.all Char.isDigit then some (Nat.ofDigitChars 10 s m) else none := by
  induction s generalizing m with
  | nil => rfl
  | cons c r ih =>
    rw [digits?, digitValue?, Nat.ofDigitChars_cons, List.all_cons]
    cases hc : c.isDigit with
    | true => rw [if_pos rfl, Option.bind_some, ih, Bool.true_and]
    | false => rfl

theorem natural?_eq_some_iff {m : Nat} : natural? s = some m ↔ Digits s ∧ m = value s := by
  cases s with
  | nil => simp [natural?, Digits]
  | cons c r =>
    have hdigits : Digits (c :: r) ↔ (c :: r).all Char.isDigit := by
      rw [Digits, List.all_eq_true, and_iff_right (List.cons_ne_nil _ _)]
    rw [natural?, digits?_eq, hdigits, Option.ite_none_right_eq_some, Option.some.injEq, value,
      eq_comm (a := m)]
    exact List.cons_ne_nil _ _

theorem Literal.mem (h : Literal s n) {c : Char} (hc : c ∈ s) :
    c.isDigit ∨ c = '+' ∨ c = '-' := by
  cases h with
  | bare digits => exact .inl (digits.2 c hc)
  | plus digits => exact (List.mem_cons.mp hc).elim (.inr ∘ .inl) (.inl ∘ digits.2 c)
  | minus digits => exact (List.mem_cons.mp hc).elim (.inr ∘ .inr) (.inl ∘ digits.2 c)

theorem integer?_eq_some_iff : integer? s = some n ↔ Literal s n := by
  constructor
  · intro h
    unfold integer? at h
    split at h
    all_goals
      obtain ⟨_, hm, rfl⟩ := Option.map_eq_some_iff.mp h
      obtain ⟨m, hm, hz⟩ := Option.bind_eq_some_iff.mp hm
      obtain ⟨digits, rfl⟩ := natural?_eq_some_iff.mp hm
      cases hz
    · exact .minus digits
    · exact .plus digits
    · exact .bare digits
  · intro h
    cases h with
    | bare digits =>
      have unsigned (sign : Char) (hsign : sign.isDigit = false) (r : List Char) :
          s ≠ sign :: r := by
        rintro rfl
        rw [digits.2 sign (List.mem_cons_self ..)] at hsign
        cases hsign
      unfold integer?
      split
      · exact absurd rfl (unsigned '-' (by decide) _)
      · exact absurd rfl (unsigned '+' (by decide) _)
      · rw [natural?_eq_some_iff.mpr ⟨digits, rfl⟩]
        rfl
    | plus digits => rw [integer?, natural?_eq_some_iff.mpr ⟨digits, rfl⟩]; rfl
    | minus digits => rw [integer?, natural?_eq_some_iff.mpr ⟨digits, rfl⟩]; rfl

theorem int64?_eq_some_iff : int64? s = some n ↔ Literal s n ∧ Int64Range.Holds n := by
  simp [int64?, Option.filter_eq_some_iff, integer?_eq_some_iff]

theorem digits_repr (m : Nat) : Digits m.repr.toList := by
  rw [Nat.toList_repr]
  exact ⟨Nat.toDigits_ne_nil, fun c hc => Nat.isDigit_of_mem_toDigits (by decide) (by decide) hc⟩

theorem value_repr (m : Nat) : value m.repr.toList = m := by
  rw [Nat.toList_repr]
  exact Nat.ofDigitChars_toDigits (by decide) (by decide)

theorem literal_repr (n : Int) : Literal n.repr.toList n := by
  cases n with
  | ofNat m =>
    have h := Literal.bare (digits_repr m)
    rwa [value_repr] at h
  | negSucc m =>
    have h := Literal.minus (digits_repr (m + 1))
    rw [value_repr] at h
    rwa [Int.repr, String.toList_append]

end

section

variable {p : Char → Bool} {s : List Char}

theorem dropWhile_of_head? (h : ∀ c ∈ s.head?, p c = false) : s.dropWhile p = s := by
  cases s with
  | nil => rfl
  | cons c r => rw [List.dropWhile_cons, h c rfl]; rfl

theorem takeWhile_of_head? (h : ∀ c ∈ s.head?, p c = false) : s.takeWhile p = [] := by
  cases s with
  | nil => rfl
  | cons c r => rw [List.takeWhile_cons, h c rfl]; rfl

theorem takeWhile_bne {c : Char} {l r : List Char} (hl : c ∉ l) (hr : ∀ d ∈ r.head?, d = c) :
    (l ++ r).takeWhile (· != c) = l := by
  rw [List.takeWhile_append_of_pos fun d hd => bne_iff_ne.mpr (ne_of_mem_of_not_mem hd hl),
    takeWhile_of_head? fun d hd => by rw [hr d hd, bne_self_eq_false], List.append_nil]

theorem split_unique {c : Char} {l l' r r' : List Char} (hl : c ∉ l) (hl' : c ∉ l')
    (h : l ++ c :: r = l' ++ c :: r') : l = l' ∧ r = r' := by
  have hfirst : l = l' := by
    rw [← takeWhile_bne hl (r := c :: r) (by simp), h, takeWhile_bne hl' (by simp)]
  subst hfirst
  exact ⟨rfl, (List.cons.inj (List.append_cancel_left h)).2⟩

theorem split_last_unique {c : Char} {l l' r r' : List Char} (hr : c ∉ r) (hr' : c ∉ r')
    (h : l ++ c :: r = l' ++ c :: r') : l = l' ∧ r = r' := by
  have hback : r.reverse ++ c :: l.reverse = r'.reverse ++ c :: l'.reverse := by
    simpa using congrArg List.reverse h
  obtain ⟨hright, hleft⟩ :=
    split_unique (mt List.mem_reverse.mp hr) (mt List.mem_reverse.mp hr') hback
  exact ⟨List.reverse_inj.mp hleft, List.reverse_inj.mp hright⟩

theorem strip_append {l m r : List Char} (hl : ∀ c ∈ l, p c) (hr : ∀ c ∈ r, p c)
    (hfirst : ∀ c ∈ m.head?, p c = false) (hlast : ∀ c ∈ m.getLast?, p c = false) :
    strip p (l ++ m ++ r) = m := by
  have hends : ∀ c ∈ (m ++ r).head?, m ≠ [] → p c = false := by
    intro c hc hm
    rw [List.head?_append_of_ne_nil _ hm] at hc
    exact hfirst c hc
  rw [strip, List.append_assoc, List.dropWhile_append_of_pos hl]
  by_cases hm : m = []
  · subst hm
    rw [List.nil_append, List.dropWhile_eq_nil_iff.mpr hr]
    rfl
  · rw [dropWhile_of_head? fun c hc => hends c hc hm, List.reverse_append,
      List.dropWhile_append_of_pos (by simpa using hr),
      dropWhile_of_head? (by simpa using hlast), List.reverse_reverse]

theorem exists_strip (p : Char → Bool) (s : List Char) :
    ∃ l r, s = l ++ strip p s ++ r ∧ (∀ c ∈ l, p c) ∧ ∀ c ∈ r, p c := by
  let front := s.dropWhile p
  refine ⟨s.takeWhile p, (front.reverse.takeWhile p).reverse, ?_, ?_, ?_⟩
  · have hback : strip p s ++ (front.reverse.takeWhile p).reverse = front := by
      rw [strip, ← List.reverse_append, List.takeWhile_append_dropWhile, List.reverse_reverse]
    rw [List.append_assoc, hback, List.takeWhile_append_dropWhile]
  · intro c hc
    exact List.mem_takeWhile_imp hc
  · intro c hc
    exact List.mem_takeWhile_imp (List.mem_reverse.mp hc)

end

section

variable {α : Type} {pattern s : List α} {k : Nat}

structure FirstAt (pattern s : List α) (k : Nat) : Prop where
  here : pattern <+: s.drop k
  first : ∀ j < k, ¬pattern <+: s.drop j

theorem FirstAt.unique {j : Nat} (hj : FirstAt pattern s j) (hk : FirstAt pattern s k) :
    j = k := by
  rcases Nat.lt_trichotomy j k with h | h | h
  · exact absurd hj.here (hk.first j h)
  · exact h
  · exact absurd hk.here (hj.first k h)

theorem FirstAt.append (h : FirstAt pattern s k) (hle : k ≤ s.length) (r : List α) :
    FirstAt pattern (s ++ r) k := by
  have hlength := h.here.length_le
  rw [List.length_drop] at hlength
  refine ⟨?_, fun j hj hbefore => h.first j hj ?_⟩
  · rw [List.drop_append_of_le_length hle]
    exact h.here.trans (List.prefix_append _ _)
  · rw [List.drop_append_of_le_length (hj.le.trans hle)] at hbefore
    refine (List.isPrefix_append_of_length ?_).mp hbefore
    rw [List.length_drop]
    omega

theorem FirstAt.of_notMem {c : α} {l q : List α} (h : c ∉ l) (r : List α) :
    FirstAt (c :: q) (l ++ (c :: q) ++ r) l.length := by
  refine ⟨?_, fun j hj hbefore => ?_⟩
  · rw [List.append_assoc, List.drop_left' rfl]
    exact List.prefix_append _ _
  · rw [List.append_assoc, List.drop_append_of_le_length hj.le, List.drop_eq_getElem_cons hj,
      List.cons_append] at hbefore
    exact h ((List.cons_prefix_cons.mp hbefore).1 ▸ List.getElem_mem hj)

theorem FirstAt.lt (h : FirstAt pattern s k) (hne : pattern ≠ []) : k < s.length := by
  have hlength := h.here.length_le
  have hpos := List.length_pos_iff.mpr hne
  rw [List.length_drop] at hlength
  omega

end

section

variable {pattern s : List Char} {k : Nat}

theorem indexOf?_eq_some_iff (hne : pattern ≠ []) :
    indexOf? pattern s = some k ↔ FirstAt pattern s k := by
  induction s generalizing k with
  | nil =>
    simp only [indexOf?, List.isEmpty_eq_false_iff.mpr hne, Bool.false_eq_true, if_false,
      reduceCtorEq, false_iff]
    intro h
    exact absurd (h.lt hne) (Nat.not_lt_zero _)
  | cons c r ih =>
    rw [indexOf?]
    by_cases hhere : pattern <+: c :: r
    · rw [if_pos (List.isPrefixOf_iff_prefix.mpr hhere)]
      have hfirst : FirstAt pattern (c :: r) 0 := ⟨hhere, fun _ h => absurd h (Nat.not_lt_zero _)⟩
      rw [Option.some.injEq]
      exact ⟨fun h => h ▸ hfirst, hfirst.unique⟩
    · rw [if_neg (mt List.isPrefixOf_iff_prefix.mp hhere), Option.map_eq_some_iff]
      constructor
      · rintro ⟨j, hj, rfl⟩
        obtain ⟨here, first⟩ := ih.mp hj
        refine ⟨here, fun i hi => ?_⟩
        cases i with
        | zero => exact hhere
        | succ i => exact first i (Nat.lt_of_succ_lt_succ hi)
      · rintro ⟨here, first⟩
        cases k with
        | zero => exact absurd here hhere
        | succ j => exact ⟨j, ih.mpr ⟨here, fun i hi => first (i + 1) (Nat.succ_lt_succ hi)⟩, rfl⟩

end

section

variable {c d : Char}

theorem isUpper_iff_toNat : c.isUpper ↔ 65 ≤ c.val.toNat ∧ c.val.toNat ≤ 90 :=
  decide_eq_true_iff.trans (and_congr UInt32.le_iff_toNat_le UInt32.le_iff_toNat_le)

theorem isLower_iff_toNat : c.isLower ↔ 97 ≤ c.val.toNat ∧ c.val.toNat ≤ 122 :=
  Bool.and_eq_true_iff.trans <| and_congr
    (decide_eq_true_iff.trans UInt32.le_iff_toNat_le)
    (decide_eq_true_iff.trans UInt32.le_iff_toNat_le)

theorem isUpper_toUpper (h : c.isLower) : c.toUpper.isUpper := by
  obtain ⟨hlow, hhigh⟩ := isLower_iff_toNat.mp h
  have hval : c.toUpper.val = c.val + ('A'.val - 'a'.val) := by
    delta Char.toUpper
    rw [dif_pos ⟨UInt32.le_iff_toNat_le.mpr hlow, UInt32.le_iff_toNat_le.mpr hhigh⟩]
  have hoffset : ('A'.val - 'a'.val).toNat = 4294967264 := by decide
  rw [isUpper_iff_toNat, hval, UInt32.toNat_add, hoffset]
  omega

theorem asciiUpper_eq (hc : c.isUpper = false) (h : asciiUpper d = c) : d = c := by
  unfold asciiUpper at h
  split at h
  next hlower =>
    subst h
    exact absurd (isUpper_toUpper hlower) (Bool.eq_false_iff.mp hc)
  next => exact h

theorem mem_asciiUppercase {s : List Char} (hc : c.isUpper = false)
    (h : c ∈ asciiUppercase s) : c ∈ s := by
  obtain ⟨d, hd, heq⟩ := List.mem_map.mp h
  exact asciiUpper_eq hc heq ▸ hd

end

section

variable {sep : Char} {s : List Char}

theorem splitAll_eq_splitOn (sep : Char) (s : List Char) : splitAll sep s = s.splitOn sep := by
  induction s with
  | nil => rfl
  | cons c r ih =>
    rw [splitAll, List.splitOn_cons_eq_if_modifyHead, ih]
    by_cases hc : c = sep
    · rw [if_pos hc, if_pos (beq_iff_eq.mpr hc)]
    · rw [if_neg hc, if_neg (mt beq_iff_eq.mp hc)]
      cases h : r.splitOn sep with
      | nil => exact absurd (ih.trans h) (splitAll_ne_nil sep r)
      | cons p ps => rfl

theorem notMem_of_mem_splitAll {p : List Char} (h : p ∈ splitAll sep s) : sep ∉ p := by
  induction s generalizing p with
  | nil =>
    rw [splitAll, List.mem_singleton] at h
    exact h ▸ List.not_mem_nil
  | cons c r ih =>
    rw [splitAll] at h
    split at h
    · rcases List.mem_cons.mp h with rfl | h
      · exact List.not_mem_nil
      · exact ih h
    next hc =>
      split at h
      next hr => exact absurd hr (splitAll_ne_nil sep r)
      next q qs hr =>
        rw [hr] at ih
        rcases List.mem_cons.mp h with rfl | h
        · rw [List.mem_cons, not_or]
          exact ⟨Ne.symm hc, ih (List.mem_cons_self ..)⟩
        · exact ih (List.mem_cons_of_mem _ h)

end

end ChainIndexer.Text
