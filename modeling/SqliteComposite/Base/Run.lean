import Mathlib.Tactic

/-!
# Runs of a transition system

A system steps under requests from its environment. A run is restricted to the requests
that satisfy a condition in the state they are made in; a property of every state of every
such run follows from what one step preserves. A run can carry a record of its past.
-/

namespace SqliteComposite.Base

variable {σ α γ : Type}

/-- Initial states, and the steps each request allows. -/
structure System (σ α : Type) where
  init : σ → Prop
  step : σ → α → σ → Prop

namespace System

/-- The states of the runs whose every request meets `ok` where it is made. -/
inductive Reach (S : System σ α) (ok : σ → α → Prop) : σ → Prop
  | start {s : σ} : S.init s → Reach S ok s
  | next {s s' : σ} {a : α} : Reach S ok s → ok s a → S.step s a s' → Reach S ok s'

/-- What holds initially and is preserved by every step holds in every state of every run. -/
theorem Reach.invariant {S : System σ α} {ok : σ → α → Prop} {P : σ → Prop}
    (hi : ∀ s, S.init s → P s)
    (hs : ∀ s a s', P s → ok s a → S.step s a s' → P s') {s : σ} (h : S.Reach ok s) :
    P s := by
  induction h with
  | start h => exact hi _ h
  | next _ ho hst ih => exact hs _ _ _ ih ho hst

/-- A weaker condition on the requests allows every state a stronger one does. -/
theorem Reach.mono {S : System σ α} {ok ok' : σ → α → Prop}
    (hw : ∀ s a, ok s a → ok' s a) {s : σ} (h : S.Reach ok s) : S.Reach ok' s := by
  induction h with
  | start h => exact .start h
  | next _ ho hst ih => exact .next ih (hw _ _ ho) hst

/-- The system with a record of the past, updated at each step. -/
def withPast (S : System σ α) (g₀ : γ) (upd : σ → α → σ → γ → γ) : System (σ × γ) α where
  init x := S.init x.1 ∧ x.2 = g₀
  step x a y := S.step x.1 a y.1 ∧ y.2 = upd x.1 a y.1 x.2

/-- Forgetting the past leaves a run of the system. -/
theorem Reach.forget {S : System σ α} {g₀ : γ} {upd : σ → α → σ → γ → γ}
    {ok : σ → α → Prop} {x : σ × γ} (h : (S.withPast g₀ upd).Reach (fun x a ↦ ok x.1 a) x) :
    S.Reach ok x.1 := by
  induction h with
  | start h => exact .start h.1
  | next _ ho hst ih => exact .next ih ho hst.1

/-- Every run can be recorded. -/
theorem Reach.record {S : System σ α} {ok : σ → α → Prop} {s : σ} (h : S.Reach ok s) (g₀ : γ)
    (upd : σ → α → σ → γ → γ) :
    ∃ g, (S.withPast g₀ upd).Reach (fun x a ↦ ok x.1 a) (s, g) := by
  induction h with
  | start h => exact ⟨g₀, .start ⟨h, rfl⟩⟩
  | @next s s' a _ ho hst ih =>
    obtain ⟨g, hg⟩ := ih
    exact ⟨upd s a s' g, .next hg ho ⟨hst, rfl⟩⟩

/-- The system started in a given state. -/
def startingAt (S : System σ α) (s₀ : σ) : System σ α where
  init s := s = s₀
  step := S.step

/-- A run that goes on from where another ended continues it. -/
theorem Reach.append {S : System σ α} {ok ok' : σ → α → Prop} {s s' : σ} (h : S.Reach ok s)
    (hw : ∀ s a, ok' s a → ok s a) (h' : (S.startingAt s).Reach ok' s') : S.Reach ok s' := by
  induction h' with
  | start h' => exact h' ▸ h
  | next _ ho hst ih => exact .next ih (hw _ _ ho) hst

/-- Requests that meet a condition wherever they are made, followed by a function that takes
steps of the system, lead along a run. -/
theorem Reach.follow {S : System σ α} {ok : σ → α → Prop} {f : σ → α → Option σ}
    (hf : ∀ s a s', f s a = some s' → S.step s a s') {as : List α} :
    ∀ {s s' : σ}, S.Reach ok s → as.foldlM f s = some s' → (∀ a ∈ as, ∀ s, ok s a) →
      S.Reach ok s' := by
  induction as with
  | nil =>
    intro s s' h he _
    cases he
    exact h
  | cons a as ih =>
    intro s s' h he hok
    rw [List.foldlM_cons, Option.bind_eq_bind, Option.bind_eq_some_iff] at he
    obtain ⟨t, ht, he⟩ := he
    apply ih _ he
    · exact fun a' ha ↦ hok a' (List.mem_cons_of_mem _ ha)
    · exact .next h (hok a List.mem_cons_self s) (hf s a t ht)

end System
end SqliteComposite.Base
