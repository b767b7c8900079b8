import SqliteComposite.Base.Run

/-!
# Traces and forward simulation

A machine answers the requests made of it. The trace of a run is what was asked and what was
answered. A relation between the states of two machines is a simulation when the second can
take every step of the first with the same answer; every trace of the first is then one of the
second, with the requests as the second sees them.
-/

namespace SqliteComposite.Base

variable {σ τ α β ρ : Type}

/-- Initial states, and the answers and steps each request allows. -/
structure Machine (σ α ρ : Type) where
  init : σ → Prop
  step : σ → α → ρ → σ → Prop

namespace Machine

/-- The runs whose every request meets `ok` where it is made, with their traces. -/
inductive Run (M : Machine σ α ρ) (ok : σ → α → Prop) : List (α × ρ) → σ → Prop
  | start {s : σ} : M.init s → Run M ok [] s
  | next {s s' : σ} {a : α} {r : ρ} {tr : List (α × ρ)} : Run M ok tr s → ok s a →
      M.step s a r s' → Run M ok (tr ++ [(a, r)]) s'

/-- The second machine takes every step of the first between related states, with the request
as it sees it and the same answer. -/
structure Simulation (M : Machine σ α ρ) (N : Machine τ β ρ) (ok : σ → α → Prop) (see : α → β)
    (R : σ → τ → Prop) : Prop where
  init : ∀ s, M.init s → ∃ t, N.init t ∧ R s t
  step : ∀ s t a r s', R s t → ok s a → M.step s a r s' → ∃ t', N.step t (see a) r t' ∧ R s' t'

/-- Every trace of a machine is one of each machine that simulates it. -/
theorem Simulation.run {M : Machine σ α ρ} {N : Machine τ β ρ} {ok : σ → α → Prop}
    {see : α → β} {R : σ → τ → Prop} (h : Simulation M N ok see R) {tr : List (α × ρ)} {s : σ}
    (hr : M.Run ok tr s) :
    ∃ t, N.Run (fun _ _ ↦ True) (tr.map (Prod.map see id)) t ∧ R s t := by
  induction hr with
  | start hi =>
    obtain ⟨t, ht, hst⟩ := h.init _ hi
    exact ⟨t, .start ht, hst⟩
  | @next s s' a r tr _ ho hs ih =>
    obtain ⟨t, ht, hst⟩ := ih
    obtain ⟨t', ht', hst'⟩ := h.step s t a r s' hst ho hs
    refine ⟨t', ?_, hst'⟩
    rw [List.map_append]
    exact .next ht trivial ht'

end Machine
end SqliteComposite.Base
