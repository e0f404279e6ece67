namespace ChainIndexer

/-- A finite map listed by increasing key, so that equal maps are equal values. -/
structure OrderedMap (κ ν : Type) [Ord κ] where
  entries : List (κ × ν)
  ordered : entries.Pairwise fun a b => compare a.1 b.1 = .lt

namespace OrderedMap

variable {κ ν μ : Type} [Ord κ]

instance [DecidableEq κ] [DecidableEq ν] : DecidableEq (OrderedMap κ ν) := fun a b =>
  match decEq a.entries b.entries with
  | isTrue h => isTrue (by cases a; cases b; cases h; rfl)
  | isFalse h => isFalse (fun e => h (e ▸ rfl))

instance [Repr κ] [Repr ν] : Repr (OrderedMap κ ν) := ⟨fun m n => reprPrec m.entries n⟩

def empty : OrderedMap κ ν := ⟨[], .nil⟩

instance : EmptyCollection (OrderedMap κ ν) := ⟨empty⟩

instance : Inhabited (OrderedMap κ ν) := ⟨empty⟩

def findIn (k : κ) : List (κ × ν) → Option ν
  | [] => none
  | (j, v) :: rest =>
    match compare k j with
    | .lt => none
    | .eq => some v
    | .gt => findIn k rest

def putIn (k : κ) (v : ν) : List (κ × ν) → List (κ × ν)
  | [] => [(k, v)]
  | (j, w) :: rest =>
    match compare k j with
    | .lt => (k, v) :: (j, w) :: rest
    | .eq => (k, v) :: rest
    | .gt => (j, w) :: putIn k v rest

def dropIn (k : κ) (l : List (κ × ν)) : List (κ × ν) :=
  l.filter fun e => compare k e.1 != .eq

theorem mem_putIn {k : κ} {v : ν} {e : κ × ν} :
    ∀ {l : List (κ × ν)}, e ∈ putIn k v l → e = (k, v) ∨ e ∈ l := by
  intro l
  induction l with
  | nil => simp [putIn]
  | cons x rest ih =>
    obtain ⟨j, w⟩ := x
    simp only [putIn]
    cases compare k j with
    | lt => intro h; simpa using h
    | eq =>
      intro h
      rcases List.mem_cons.mp h with h | h
      · exact .inl h
      · exact .inr (List.mem_cons_of_mem _ h)
    | gt =>
      intro h
      rcases List.mem_cons.mp h with h | h
      · exact .inr (h ▸ List.mem_cons_self ..)
      · exact (ih h).imp id (List.mem_cons_of_mem _)

theorem putIn_ordered [Std.TransOrd κ] [Std.LawfulEqOrd κ] (k : κ) (v : ν) :
    ∀ {l : List (κ × ν)}, l.Pairwise (fun a b => compare a.1 b.1 = .lt) →
      (putIn k v l).Pairwise (fun a b => compare a.1 b.1 = .lt) := by
  intro l
  induction l with
  | nil => intro _; simp [putIn]
  | cons x rest ih =>
    obtain ⟨j, w⟩ := x
    intro h
    obtain ⟨hx, hr⟩ := List.pairwise_cons.mp h
    simp only [putIn]
    cases hc : compare k j with
    | lt =>
      refine List.pairwise_cons.mpr ⟨fun e he => ?_, h⟩
      rcases List.mem_cons.mp he with rfl | he
      · exact hc
      · exact Std.TransCmp.lt_trans hc (hx e he)
    | eq =>
      have : k = j := Std.LawfulEqOrd.eq_of_compare hc
      subst this
      exact List.pairwise_cons.mpr ⟨hx, hr⟩
    | gt =>
      refine List.pairwise_cons.mpr ⟨fun e he => ?_, ih hr⟩
      rcases mem_putIn he with rfl | he
      · exact Std.OrientedCmp.lt_of_gt hc
      · exact hx e he

def find? (m : OrderedMap κ ν) (k : κ) : Option ν := findIn k m.entries

def contains (m : OrderedMap κ ν) (k : κ) : Bool := (m.find? k).isSome

def insert [Std.TransOrd κ] [Std.LawfulEqOrd κ] (m : OrderedMap κ ν) (k : κ) (v : ν) :
    OrderedMap κ ν :=
  ⟨putIn k v m.entries, putIn_ordered k v m.ordered⟩

def erase (m : OrderedMap κ ν) (k : κ) : OrderedMap κ ν :=
  ⟨dropIn k m.entries, m.ordered.filter _⟩

def keys (m : OrderedMap κ ν) : List κ := m.entries.map (·.1)

def values (m : OrderedMap κ ν) : List ν := m.entries.map (·.2)

def size (m : OrderedMap κ ν) : Nat := m.entries.length

def map (m : OrderedMap κ ν) (f : ν → μ) : OrderedMap κ μ :=
  ⟨m.entries.map fun e => (e.1, f e.2), by
    simpa [List.pairwise_map] using m.ordered⟩

def ofList [Std.TransOrd κ] [Std.LawfulEqOrd κ] (l : List (κ × ν)) : OrderedMap κ ν :=
  l.foldl (fun m e => m.insert e.1 e.2) empty

end OrderedMap

end ChainIndexer
