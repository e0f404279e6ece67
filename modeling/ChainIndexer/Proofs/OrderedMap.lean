import ChainIndexer.OrderedMap
import Mathlib.Data.List.Basic

namespace ChainIndexer.OrderedMap

variable {κ ν μ : Type} [Ord κ]

theorem findIn_map (k : κ) (f : ν → μ) (l : List (κ × ν)) :
    findIn k (l.map fun e => (e.1, f e.2)) = (findIn k l).map f := by
  induction l with
  | nil => rfl
  | cons e rest ih =>
    obtain ⟨j, w⟩ := e
    simp only [List.map_cons, findIn]
    cases compare k j with
    | lt => rfl
    | eq => rfl
    | gt => exact ih

theorem find?_map (m : OrderedMap κ ν) (f : ν → μ) (k : κ) :
    (m.map f).find? k = (m.find? k).map f := findIn_map k f m.entries

theorem contains_eq_false_iff {m : OrderedMap κ ν} {k : κ} :
    m.contains k = false ↔ m.find? k = none := by
  simp [contains]

theorem contains_eq_true_iff {m : OrderedMap κ ν} {k : κ} :
    m.contains k = true ↔ ∃ v, m.find? k = some v := by
  simp [contains, Option.isSome_iff_exists]

theorem putIn_perm {k : κ} {l : List (κ × ν)} (v : ν) (h : findIn k l = none) :
    (putIn k v l).Perm ((k, v) :: l) := by
  induction l with
  | nil => exact .refl _
  | cons e rest ih =>
    obtain ⟨j, w⟩ := e
    simp only [findIn] at h
    simp only [putIn]
    cases hc : compare k j with
    | lt => exact .refl _
    | eq => rw [hc] at h; cases h
    | gt =>
      rw [hc] at h
      exact ((ih h).cons _).trans (.swap ..)

theorem findIn_putIn_self [Std.LawfulEqOrd κ] (k : κ) (v : ν) (l : List (κ × ν)) :
    findIn k (putIn k v l) = some v := by
  induction l with
  | nil => simp [putIn, findIn]
  | cons e rest ih =>
    obtain ⟨j, w⟩ := e
    simp only [putIn]
    cases hc : compare k j with
    | lt => simp [findIn]
    | eq => simp [findIn]
    | gt => simp only [findIn, hc]; exact ih

variable [Std.TransOrd κ] [Std.LawfulEqOrd κ]

theorem findIn_putIn_of_ne {j k : κ} (h : j ≠ k) (v : ν) (l : List (κ × ν)) :
    findIn j (putIn k v l) = findIn j l := by
  have hjk : compare j k ≠ .eq := fun e => h (Std.LawfulEqOrd.eq_of_compare e)
  induction l with
  | nil =>
    simp only [putIn, findIn]
    cases hc : compare j k with
    | lt => rfl
    | eq => exact absurd hc hjk
    | gt => rfl
  | cons e rest ih =>
    obtain ⟨i, w⟩ := e
    simp only [putIn]
    cases hc : compare k i with
    | lt =>
      simp only [findIn]
      cases hj : compare j k with
      | lt => rw [Std.TransCmp.lt_trans hj hc]
      | eq => exact absurd hj hjk
      | gt => rfl
    | eq =>
      obtain rfl := Std.LawfulEqOrd.eq_of_compare hc
      simp only [findIn]
      cases hj : compare j k with
      | lt => rfl
      | eq => exact absurd hj hjk
      | gt => rfl
    | gt =>
      simp only [findIn]
      cases compare j i with
      | lt => rfl
      | eq => rfl
      | gt => exact ih

@[simp] theorem find?_insert_self (m : OrderedMap κ ν) (k : κ) (v : ν) :
    (m.insert k v).find? k = some v := findIn_putIn_self k v m.entries

theorem find?_insert_of_ne (m : OrderedMap κ ν) {j k : κ} (h : j ≠ k) (v : ν) :
    (m.insert k v).find? j = m.find? j := findIn_putIn_of_ne h v m.entries

theorem find?_insert [DecidableEq κ] (m : OrderedMap κ ν) (j k : κ) (v : ν) :
    (m.insert k v).find? j = if j = k then some v else m.find? j := by
  split
  · next h => rw [h]; exact m.find?_insert_self k v
  · next h => exact m.find?_insert_of_ne h v

theorem findIn_eq_some_iff {k : κ} {v : ν} {l : List (κ × ν)}
    (hl : l.Pairwise fun a b => compare a.1 b.1 = .lt) : findIn k l = some v ↔ (k, v) ∈ l := by
  induction l with
  | nil => simp [findIn]
  | cons e rest ih =>
    obtain ⟨j, w⟩ := e
    obtain ⟨hj, hr⟩ := List.pairwise_cons.mp hl
    have apart {x : ν} (hx : (k, x) ∈ rest) : compare k j = .gt :=
      Std.OrientedCmp.gt_of_lt (hj _ hx)
    simp only [findIn, List.mem_cons, Prod.mk.injEq]
    cases hc : compare k j with
    | lt =>
      constructor
      · intro h; cases h
      · rintro (⟨rfl, -⟩ | h)
        · simp at hc
        · simp [apart h] at hc
    | eq =>
      obtain rfl := Std.LawfulEqOrd.eq_of_compare hc
      constructor
      · intro h; exact .inl ⟨rfl, (Option.some.inj h).symm⟩
      · rintro (⟨-, rfl⟩ | h)
        · rfl
        · exact absurd (apart h) (by simp)
    | gt =>
      rw [ih hr]
      constructor
      · exact .inr
      · rintro (⟨rfl, -⟩ | h)
        · simp at hc
        · exact h

theorem find?_eq_some_iff {m : OrderedMap κ ν} {k : κ} {v : ν} :
    m.find? k = some v ↔ (k, v) ∈ m.entries := findIn_eq_some_iff m.ordered

theorem ext_find? {m n : OrderedMap κ ν} (h : ∀ k, m.find? k = n.find? k) : m = n := by
  have apart {l : List (κ × ν)} (hl : l.Pairwise fun a b => compare a.1 b.1 = .lt) : l.Nodup :=
    hl.imp fun hlt he => by simp [he] at hlt
  have hperm : m.entries.Perm n.entries := by
    rw [List.perm_ext_iff_of_nodup (apart m.ordered) (apart n.ordered)]
    rintro ⟨k, v⟩
    rw [← find?_eq_some_iff, ← find?_eq_some_iff, h]
  have he : m.entries = n.entries := by
    refine hperm.eq_of_pairwise (fun a b _ _ hab hba => ?_) m.ordered n.ordered
    rw [Std.OrientedCmp.gt_of_lt hab] at hba
    cases hba
  cases m
  cases n
  cases he
  rfl

theorem insert_insert [DecidableEq κ] (m : OrderedMap κ ν) (k : κ) (v w : ν) :
    (m.insert k v).insert k w = m.insert k w := by
  refine ext_find? fun j => ?_
  simp only [find?_insert]
  split <;> rfl

theorem insert_of_find? [DecidableEq κ] {m : OrderedMap κ ν} {k : κ} {v : ν}
    (h : m.find? k = some v) : m.insert k v = m := by
  refine ext_find? fun j => ?_
  rw [find?_insert]
  split
  · next hj => rw [hj, h]
  · rfl

theorem contains_iff_mem_keys {m : OrderedMap κ ν} {k : κ} : m.contains k = true ↔ k ∈ m.keys := by
  rw [contains_eq_true_iff, keys, List.mem_map]
  constructor
  · rintro ⟨v, hv⟩
    exact ⟨(k, v), find?_eq_some_iff.mp hv, rfl⟩
  · rintro ⟨⟨j, v⟩, he, rfl⟩
    exact ⟨v, find?_eq_some_iff.mpr he⟩

omit [Std.TransOrd κ] in
theorem keys_nodup (m : OrderedMap κ ν) : m.keys.Nodup := by
  rw [keys, List.Nodup, List.pairwise_map]
  refine m.ordered.imp fun {a b} h he => ?_
  rw [he, Std.compare_self] at h
  cases h

theorem filter_keys [DecidableEq κ] (m : OrderedMap κ ν) (k : κ) :
    m.keys.filter (· == k) = if m.contains k then [k] else [] := by
  rw [List.filter_beq, m.keys_nodup.count]
  simp only [← contains_iff_mem_keys]
  split <;> rfl

theorem find?_erase_self (m : OrderedMap κ ν) (k : κ) : (m.erase k).find? k = none := by
  cases h : (m.erase k).find? k with
  | none => rfl
  | some v =>
    have hm := (List.mem_filter.mp (find?_eq_some_iff.mp h)).2
    simp at hm

theorem find?_erase_of_ne (m : OrderedMap κ ν) {j k : κ} (h : j ≠ k) :
    (m.erase k).find? j = m.find? j := by
  have hkj : (compare k j != .eq) = true := by
    simpa using fun e => h (Std.LawfulEqOrd.eq_of_compare e).symm
  refine Option.ext fun v => ?_
  rw [find?_eq_some_iff, find?_eq_some_iff]
  exact ⟨fun hm => (List.mem_filter.mp hm).1, fun hm => List.mem_filter.mpr ⟨hm, hkj⟩⟩

theorem size_pos_of_find? {m : OrderedMap κ ν} {k : κ} {v : ν} (h : m.find? k = some v) :
    0 < m.size := List.length_pos_of_mem (find?_eq_some_iff.mp h)

theorem size_insert_of_find? [DecidableEq κ] {m : OrderedMap κ ν} {k : κ} {v : ν}
    (h : m.find? k = some v) (w : ν) : (m.insert k w).size = m.size := by
  have hkeys : (m.insert k w).keys.Perm m.keys := by
    refine (List.perm_ext_iff_of_nodup (keys_nodup _) (keys_nodup _)).mpr fun j => ?_
    rw [← contains_iff_mem_keys, ← contains_iff_mem_keys, contains_eq_true_iff,
      contains_eq_true_iff, find?_insert]
    split
    · next hj => exact iff_of_true ⟨w, rfl⟩ ⟨v, hj ▸ h⟩
    · rfl
  simpa [keys, size] using hkeys.length_eq

theorem entries_insert_perm {m : OrderedMap κ ν} {k : κ} (v : ν) (h : m.find? k = none) :
    (m.insert k v).entries.Perm ((k, v) :: m.entries) := putIn_perm v h

theorem find?_foldl_insert (g : κ → Option ν) {l : List (κ × ν)} (hl : ∀ e ∈ l, g e.1 = some e.2)
    (m : OrderedMap κ ν) (k : κ) :
    (l.foldl (fun m e => m.insert e.1 e.2) m).find? k =
      open Classical in if k ∈ l.map (·.1) then g k else m.find? k := by
  classical
  induction l generalizing m with
  | nil => simp
  | cons e rest ih =>
    obtain ⟨he, hr⟩ := List.forall_mem_cons.mp hl
    rw [List.foldl_cons, ih hr, find?_insert]
    by_cases hk : k = e.1
    · subst hk; simp [he]
    · simp [hk]

theorem find?_ofList (g : κ → Option ν) {l : List (κ × ν)} (hl : ∀ e ∈ l, g e.1 = some e.2)
    {k : κ} (hk : g k ≠ none → k ∈ l.map (·.1)) : (ofList l).find? k = g k := by
  rw [ofList, find?_foldl_insert g hl]
  split
  · rfl
  · next hn => exact (not_not.mp (mt hk hn)).symm

end ChainIndexer.OrderedMap
