import ChainIndexer.Window

namespace ChainIndexer

namespace WindowPlan

theorem resolve_start {p : WindowPlan} {job : String} {w : Window}
    (h : p.resolve job = .ok w) : w.start = p.start := by
  simp only [resolve] at h
  split at h
  · split at h
    · cases h
    · cases h; rfl
  · cases h; rfl
  · cases h

theorem resolve_stop_le {p : WindowPlan} {job : String} {w : Window} {floor : Int}
    (h : p.resolve job = .ok w) (hf : p.effectiveFloor = some floor) : w.stop ≤ floor := by
  simp only [resolve, hf] at h
  cases hb : p.batch with
  | none =>
    rw [hb] at h
    cases h
    exact Int.le_refl _
  | some b =>
    rw [hb] at h
    dsimp only at h
    split at h
    · cases h
    · cases h
      exact Int.min_le_right ..

theorem min_map_le {ds : List Dependency} (f : Dependency → Int) {d : Dependency} (hd : d ∈ ds) :
    ∃ floor, (ds.map f).min? = some floor ∧ floor ≤ f d := by
  have hm : f d ∈ ds.map f := List.mem_map_of_mem hd
  cases h : (ds.map f).min? with
  | none => rw [List.min?_eq_none_iff.mp h] at hm; cases hm
  | some floor => exact ⟨floor, rfl, (List.min?_eq_some_iff.mp h).2 _ hm⟩

theorem effectiveFloor_le (p : WindowPlan) {d : Dependency} (hd : d ∈ p.dependencies) :
    ∃ floor, p.effectiveFloor = some floor ∧ (floor ≤ d.contribution ∨
      ∃ fallback, p.bootstrapFloor = some fallback ∧ p.needsBootstrap = true ∧
        floor ≤ d.contributionWith fallback) := by
  obtain ⟨floor, hf, hle⟩ := min_map_le Dependency.contribution hd
  simp only [effectiveFloor]
  split
  · next fallback hb =>
    split
    · next hn =>
      obtain ⟨floor', hf', hle'⟩ := min_map_le (Dependency.contributionWith fallback) hd
      exact ⟨floor', hf', .inr ⟨fallback, hb, hn, hle'⟩⟩
    · exact ⟨floor, hf, .inl hle⟩
  · exact ⟨floor, hf, .inl hle⟩

theorem exists_resolve {p : WindowPlan} (job : String) (hb : ∀ n, p.batch = some n → 1 ≤ n)
    (hd : p.batch = none → p.dependencies ≠ []) : ∃ w, p.resolve job = .ok w := by
  cases hbatch : p.batch with
  | none =>
    obtain ⟨d, hmem⟩ := List.exists_mem_of_ne_nil _ (hd hbatch)
    obtain ⟨floor, hf, -⟩ := p.effectiveFloor_le hmem
    simp only [resolve, hbatch, hf]
    exact ⟨_, rfl⟩
  | some n =>
    have hn : ¬n ≤ 0 := by
      have := hb n hbatch
      omega
    simp only [resolve, hbatch, if_neg hn]
    exact ⟨_, rfl⟩

theorem resolve_below {p : WindowPlan} (job : String) {floor : Int}
    (hb : ∀ n, p.batch = some n → 0 < n) (hf : p.effectiveFloor = some floor)
    (hmax : floor ≤ Int64Range.highest) : ∃ w, p.resolve job = .ok w ∧ w.start = p.start ∧
      w.stop ≤ floor ∧ (p.start < floor → p.start < w.stop) := by
  have hne (hbatch : p.batch = none) : p.dependencies ≠ [] := by
    intro hnil
    simp only [effectiveFloor, dependencyFloor, hnil] at hf
    split at hf
    · split at hf <;> cases hf
    · cases hf
  obtain ⟨w, hw⟩ := p.exists_resolve job hb hne
  refine ⟨w, hw, resolve_start hw, resolve_stop_le hw hf, fun hlt => ?_⟩
  simp only [resolve, hf] at hw
  cases hbatch : p.batch with
  | none =>
    rw [hbatch] at hw
    cases hw
    exact hlt
  | some b =>
    have hpos := hb b hbatch
    rw [hbatch] at hw
    simp only [if_neg (by omega : ¬b ≤ 0)] at hw
    cases hw
    simp only [Int64Range.saturate, Int64Range.highest] at hmax ⊢
    omega

theorem needsBootstrap_positive {p : WindowPlan} (h : p.needsBootstrap = true) {height : Int}
    (hd : .reached height ∈ p.dependencies) : 0 < height := by
  simp only [needsBootstrap, Bool.and_eq_true, List.all_eq_true] at h
  simpa [Dependency.isMissing, Dependency.isPositive] using h.2 _ hd

theorem stop_le_reached {p : WindowPlan} {job : String} {w : Window} (h : p.resolve job = .ok w)
    {height : Int} (hd : .reached height ∈ p.dependencies) : w.stop ≤ height := by
  obtain ⟨floor, hf, hle | ⟨fallback, -, -, hle⟩⟩ := p.effectiveFloor_le hd
  · exact Int.le_trans (resolve_stop_le h hf) hle
  · exact Int.le_trans (resolve_stop_le h hf) hle

theorem stop_le_missing {p : WindowPlan} {job : String} {w : Window} (h : p.resolve job = .ok w)
    (hd : .missing ∈ p.dependencies) : w.stop ≤ 0 ∨
      ∃ fallback, p.bootstrapFloor = some fallback ∧ w.stop ≤ fallback ∧
        ∀ height, .reached height ∈ p.dependencies → 0 < height := by
  obtain ⟨floor, hf, hle | ⟨fallback, hb, hn, hle⟩⟩ := p.effectiveFloor_le hd
  · exact .inl (Int.le_trans (resolve_stop_le h hf) hle)
  · exact .inr ⟨fallback, hb, Int.le_trans (resolve_stop_le h hf) hle,
      fun _ hr => needsBootstrap_positive hn hr⟩

end WindowPlan

end ChainIndexer
