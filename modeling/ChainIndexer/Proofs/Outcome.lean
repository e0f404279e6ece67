import ChainIndexer.Job.World
import ChainIndexer.Proofs.Program

namespace ChainIndexer

variable {σ α β : Type} {b : Backend σ} {now : Nat}

namespace Stop

def FromStore (s : Stop) : Prop := ∃ e, s = .error (.storage e)

end Stop

namespace Work

def Ends (b : Backend σ) (now : Nat) (x : Work α) (r : Except Stop α) : Prop :=
  ∃ w, (World.perform b now x w).1 = r

theorem ends_program {p : Program α} {f : α → Program (Except Stop β)} {r : Except Stop β}
    {w : World σ} (h : ((p.bind f).run (World.answer b now) w).1 = r) :
    ∃ a w', (p.run (World.answer b now) w).1 = a ∧ ((f a).run (World.answer b now) w').1 = r := by
  rw [Program.run_bind] at h
  exact ⟨_, _, rfl, h⟩

theorem Ends.bind {x : Work α} {f : α → Work β} {r : Except Stop β} (h : Ends b now (x >>= f) r) :
    (∃ a, Ends b now x (.ok a) ∧ Ends b now (f a) r) ∨
      ∃ stop, Ends b now x (.error stop) ∧ r = .error stop := by
  obtain ⟨w, hw⟩ := h
  rw [World.perform, run_bind] at hw
  obtain ⟨a, w', ha, hr⟩ := ends_program hw
  cases a with
  | ok a => exact .inl ⟨a, ⟨w, ha⟩, w', hr⟩
  | error stop => exact .inr ⟨stop, ⟨w, ha⟩, hr.symm⟩

theorem ends_pure {a : α} {r : Except Stop α} (h : Ends b now (pure a : Work α) r) : r = .ok a := by
  obtain ⟨w, hw⟩ := h
  exact hw.symm

theorem ends_throw {stop : Stop} {r : Except Stop α} (h : Ends b now (throw stop : Work α) r) :
    r = .error stop := by
  obtain ⟨w, hw⟩ := h
  exact hw.symm

theorem ends_lift {p : Program α} {r : Except Stop α} (h : Ends b now (lift p) r) :
    ∃ a w, r = .ok a ∧ (p.run (World.answer b now) w).1 = a := by
  obtain ⟨w, hw⟩ := h
  obtain ⟨a, w', ha, hr⟩ := ends_program hw
  exact ⟨a, w, hr.symm, ha⟩

theorem ends_access {a : Store.Access} {stop : Stop} (h : Ends b now (access a) (.error stop)) :
    stop.FromStore := by
  obtain ⟨w, hw⟩ := h
  change Except.mapError _ (World.answer b now (.access a) w).1 = _ at hw
  cases hx : (World.answer b now (.access a) w).1 with
  | ok x => rw [hx] at hw; cases hw
  | error e => rw [hx] at hw; cases hw; exact ⟨e, rfl⟩

theorem not_ends_lift {p : Program α} {stop : Stop} : ¬Ends b now (lift p) (.error stop) := by
  intro h
  obtain ⟨a, w, ha, -⟩ := ends_lift h
  cases ha

theorem ends_unitOfWork {body : Work (Store.Ending × α)} {stop : Stop}
    (h : Ends b now (unitOfWork body) (.error stop)) :
    stop.FromStore ∨ Ends b now body (.error stop) := by
  obtain ⟨u, -, h⟩ | ⟨s, h, hs⟩ := h.bind
  · obtain ⟨r, hr, h⟩ | ⟨s, h, -⟩ := h.bind
    · obtain ⟨result, w, hresult, hbody⟩ := ends_lift hr
      cases hresult
      cases r with
      | ok ending =>
        obtain ⟨x, -, h⟩ | ⟨s, h, hs⟩ := h.bind
        · cases ends_pure h
        · cases hs
          exact .inl (ends_access h)
      | error s =>
        obtain ⟨x, -, h⟩ | ⟨s', h, hs⟩ := h.bind
        · cases ends_throw h
          exact .inr ⟨w, hbody⟩
        · cases hs
          exact .inl (ends_access h)
    · exact (not_ends_lift h).elim
  · cases hs
    exact .inl (ends_access h)

end Work

end ChainIndexer
