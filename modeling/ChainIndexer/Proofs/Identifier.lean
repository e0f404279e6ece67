import ChainIndexer.Identifier
import ChainIndexer.Proofs.Text

namespace ChainIndexer.Identifier

variable {s name part rest : List Char}

/-- Behind the opening quote; the rest of the text is what follows the closing one. -/
def delimited? : List Char → Option (List Char × List Char)
  | [] => none
  | '"' :: '"' :: r => (delimited? r).map fun (name, rest) => ('"' :: name, rest)
  | '"' :: r => some ([], r)
  | c :: r => (delimited? r).map fun (name, rest) => (c :: name, rest)

def readQuoted? : List Char → Option (List Char × List Char)
  | '"' :: r => delimited? r
  | _ => none

theorem delimited?_close (h : rest.head? ≠ some '"') : delimited? ('"' :: rest) = some ([], rest) := by
  cases rest with
  | nil => rfl
  | cons c r =>
    have hc : c ≠ '"' := fun hc => h (congrArg some hc)
    rw [delimited?]
    simpa using hc

theorem delimited?_other {c : Char} (hc : c ≠ '"') (r : List Char) :
    delimited? (c :: r) = (delimited? r).map fun (name, rest) => (c :: name, rest) := by
  rw [delimited?]
  · intro _ h
    exact absurd h hc
  · exact hc

theorem delimited?_doubleQuotes (name : List Char) (h : rest.head? ≠ some '"') :
    delimited? (doubleQuotes name ++ '"' :: rest) = some (name, rest) := by
  induction name with
  | nil => exact delimited?_close h
  | cons c r ih =>
    rw [doubleQuotes]
    split
    next hc => rw [List.cons_append, List.cons_append, delimited?, ih, hc]; rfl
    next hc => rw [List.cons_append, delimited?_other hc, ih]; rfl

theorem readQuoted?_quoteChars (name : List Char) (h : rest.head? ≠ some '"') :
    readQuoted? (quoteChars name ++ rest) = some (name, rest) := by
  rw [quoteChars, List.append_assoc, List.singleton_append]
  exact delimited?_doubleQuotes name h

theorem length_of_delimited? (h : delimited? s = some (name, rest)) :
    name.length + rest.length < s.length := by
  fun_induction delimited? s generalizing name rest with
  | case1 => simp at h
  | case2 r ih =>
    obtain ⟨⟨read, left⟩, hr, heq⟩ := Option.map_eq_some_iff.mp h
    cases heq
    have := ih hr
    simp only [List.length_cons]
    omega
  | case3 r => cases h; simp
  | case4 c r _ _ ih =>
    obtain ⟨⟨read, left⟩, hr, heq⟩ := Option.map_eq_some_iff.mp h
    cases heq
    have := ih hr
    simp only [List.length_cons]
    omega

theorem joinWith_eq_intercalate (sep : List Char) (ps : List (List Char)) :
    joinWith sep ps = sep.intercalate ps := by
  fun_induction joinWith sep ps with
  | case1 => rfl
  | case2 p => rw [List.intercalate_singleton]
  | case3 p q r ih => rw [List.intercalate_cons_cons, ih]

theorem joinWith_parts (name : List Char) : joinWith ['.'] (parts name) = name := by
  rw [joinWith_eq_intercalate, parts, Text.splitAll_eq_splitOn, List.intercalate_splitOn]

theorem parts_joinWith {ps : List (List Char)} (hdots : ∀ p ∈ ps, '.' ∉ p) (hne : ps ≠ []) :
    parts (joinWith ['.'] ps) = ps := by
  rw [joinWith_eq_intercalate, parts, Text.splitAll_eq_splitOn, List.splitOn_intercalate _ hdots hne]

theorem length_joinWith {ps : List (List Char)} (hne : ps ≠ []) :
    (joinWith ['.'] ps).length + 1 = ps.flatten.length + ps.length := by
  fun_induction joinWith ['.'] ps with
  | case1 => exact absurd rfl hne
  | case2 p => simp
  | case3 p q r ih =>
    have := ih (List.cons_ne_nil q r)
    simp only [List.flatten_cons, List.length_append, List.length_cons, List.length_nil] at this ⊢
    omega

theorem parts_ne_nil (name : List Char) : parts name ≠ [] := Text.splitAll_ne_nil '.' name

theorem dot_notMem_of_mem_parts (h : part ∈ parts name) : '.' ∉ part :=
  Text.notMem_of_mem_splitAll h

theorem joinWith_concat (sep : List Char) {ps : List (List Char)} (hne : ps ≠ []) (p : List Char) :
    joinWith sep (ps ++ [p]) = joinWith sep ps ++ sep ++ p := by
  induction ps with
  | nil => exact absurd rfl hne
  | cons q rest ih =>
    cases rest with
    | nil => rfl
    | cons q' rest =>
      have hrest := ih (List.cons_ne_nil _ _)
      rw [List.cons_append] at hrest ⊢
      rw [List.cons_append, joinWith, ← List.cons_append, List.cons_append, hrest, joinWith]
      simp only [List.append_assoc]

theorem parts_append {ps : List (List Char)} {p r : List Char} (h : parts name = ps ++ [p])
    (hdot : '.' ∉ r) : parts (name ++ r) = ps ++ [p ++ r] := by
  have hdots : ∀ q ∈ ps ++ [p ++ r], '.' ∉ q := by
    have hparts : ∀ q ∈ ps ++ [p], '.' ∉ q := fun q hq => dot_notMem_of_mem_parts (h ▸ hq)
    rw [List.forall_mem_append, List.forall_mem_singleton] at hparts ⊢
    rw [List.mem_append, not_or]
    exact ⟨hparts.1, hparts.2, hdot⟩
  have hjoin : name ++ r = joinWith ['.'] (ps ++ [p ++ r]) := by
    rw [← joinWith_parts name, h]
    by_cases hne : ps = []
    · subst hne
      rfl
    · rw [joinWith_concat _ hne, joinWith_concat _ hne, List.append_assoc]
  rw [hjoin, parts_joinWith hdots (List.append_ne_nil_of_right_ne_nil _ (List.cons_ne_nil _ _))]

end ChainIndexer.Identifier
