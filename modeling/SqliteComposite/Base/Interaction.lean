import Mathlib.Tactic

/-!
# Programs that make calls

A program makes calls to its environment and goes on with what they answer. It runs in any
environment, which may answer by everything that was called before. A protocol says which calls
are allowed after which; what a program obeys whatever it is answered holds of each of its runs.
A program that does not always obey may be excused for some calls, and it is kept in mind whether
it needed that.
-/

namespace SqliteComposite.Base

variable {C ε α β τ : Type} {Ans : C → Type}

/-- A result, a failure, or a call with what is done with its answer. -/
inductive Prog (C : Type) (Ans : C → Type) (ε α : Type) where
  | ret (a : α)
  | fail (e : ε)
  | call (c : C) (k : Ans c → Prog C Ans ε α)

/-- A call and its answer. -/
abbrev Event (C : Type) (Ans : C → Type) := (c : C) × Ans c

/-- What answers the calls, by the calls and answers before. -/
abbrev Env (C : Type) (Ans : C → Type) := List (Event C Ans) → (c : C) → Ans c

namespace Prog

/-- One program after the other. -/
protected def bind : Prog C Ans ε α → (α → Prog C Ans ε β) → Prog C Ans ε β
  | ret a, f => f a
  | fail e, _ => fail e
  | call c k, f => call c fun r ↦ (k r).bind f

instance : Monad (Prog C Ans ε) where
  pure := ret
  bind := Prog.bind

/-- A call whose answer is the result. -/
def ask (c : C) : Prog C Ans ε (Ans c) := call c ret

/-- The result of a run, and all calls so far with their answers. -/
def run (env : Env C Ans) : Prog C Ans ε α → List (Event C Ans) → Except ε α × List (Event C Ans)
  | ret a, h => (.ok a, h)
  | fail e, h => (.error e, h)
  | call c k, h => (k (env h c)).run env (h ++ [⟨c, env h c⟩])

end Prog

/-- Which calls are allowed in a state, and the state each answer leads to. -/
structure Protocol (C : Type) (Ans : C → Type) (τ : Type) where
  allows : τ → C → Prop
  next : τ → (c : C) → Ans c → τ

namespace Protocol

variable (P : Protocol C Ans τ)

/-- The state that calls lead to. -/
def after (s : τ) (h : List (Event C Ans)) : τ := h.foldl (fun s e ↦ P.next s e.1 e.2) s

/-- Each of the calls is allowed where it is made. -/
def Accepts (s : τ) : List (Event C Ans) → Prop
  | [] => True
  | e :: h => P.allows s e.1 ∧ Accepts (P.next s e.1 e.2) h

/-- Whatever its calls are answered, the program makes allowed ones only, and ends with `Q`. -/
def Meets : Prog C Ans ε α → τ → (Except ε α → τ → Prop) → Prop
  | .ret a, s, Q => Q (.ok a) s
  | .fail e, s, Q => Q (.error e) s
  | .call c k, s, Q => P.allows s c ∧ ∀ r, Meets (k r) (P.next s c r) Q

/-- The program makes allowed calls only, and if it returns it does so with `Q`. -/
def Obeys (p : Prog C Ans ε α) (s : τ) (Q : α → τ → Prop) : Prop :=
  P.Meets p s fun r s ↦ ∀ a, r = .ok a → Q a s

section

variable {P} {s : τ}

/-- The end may be described more weakly. -/
theorem Meets.mono {p : Prog C Ans ε α} {Q R : Except ε α → τ → Prop} (hQ : ∀ r s, Q r s → R r s) :
    ∀ {s : τ}, P.Meets p s Q → P.Meets p s R := by
  induction p with
  | ret a => exact fun h ↦ hQ _ _ h
  | fail e => exact fun h ↦ hQ _ _ h
  | call c k ih => exact fun h ↦ ⟨h.1, fun r ↦ ih r (h.2 r)⟩

/-- One program after the other: the second is met from where the first returned. -/
theorem Meets.bind {Q : Except ε α → τ → Prop} {S : Except ε β → τ → Prop}
    {p : Prog C Ans ε α} {f : α → Prog C Ans ε β}
    (hf : ∀ a s, Q (.ok a) s → P.Meets (f a) s S) (he : ∀ e s, Q (.error e) s → S (.error e) s) :
    ∀ {s : τ}, P.Meets p s Q → P.Meets (p >>= f) s S := by
  induction p with
  | ret a => exact fun h ↦ hf _ _ h
  | fail e => exact fun h ↦ he _ _ h
  | call c k ih => exact fun h ↦ ⟨h.1, fun r ↦ ih r (h.2 r)⟩

/-- A call, and what is done with its answer. -/
theorem Meets.ask_bind {c : C} {f : Ans c → Prog C Ans ε β} {S : Except ε β → τ → Prop}
    (ha : P.allows s c) (hf : ∀ r, P.Meets (f r) (P.next s c r) S) :
    P.Meets (Prog.ask c >>= f) s S := ⟨ha, hf⟩

variable {Q R : α → τ → Prop}

/-- The end may be described more weakly. -/
theorem Obeys.mono {p : Prog C Ans ε α} (hQ : ∀ a s, Q a s → R a s) (h : P.Obeys p s Q) :
    P.Obeys p s R := Meets.mono (fun _ _ h a ha ↦ hQ a _ (h a ha)) h

/-- One program after the other obeys when the first does and the second does from where the
first returned. -/
theorem Obeys.bind {S : β → τ → Prop} {p : Prog C Ans ε α} {f : α → Prog C Ans ε β}
    (hf : ∀ a s, Q a s → P.Obeys (f a) s S) (h : P.Obeys p s Q) : P.Obeys (p >>= f) s S :=
  Meets.bind (fun a _ h ↦ hf a _ (h a rfl)) (fun _ _ _ _ he ↦ by cases he) h

/-- A call obeys when it is allowed. -/
theorem Obeys.ask {c : C} {S : Ans c → τ → Prop} (ha : P.allows s c)
    (hS : ∀ r, S r (P.next s c r)) : P.Obeys (Prog.ask c : Prog C Ans ε (Ans c)) s S := by
  refine ⟨ha, fun r a hr ↦ ?_⟩
  cases hr
  exact hS _

/-- A call, and what is done with its answer. -/
theorem Obeys.ask_bind {c : C} {f : Ans c → Prog C Ans ε β} {S : β → τ → Prop}
    (ha : P.allows s c) (hf : ∀ r, P.Obeys (f r) (P.next s c r) S) :
    P.Obeys (Prog.ask c >>= f) s S := ⟨ha, hf⟩

/-- A result obeys. -/
theorem Obeys.pure {a : α} (h : Q a s) : P.Obeys (Pure.pure a : Prog C Ans ε α) s Q := by
  intro _ ha
  cases ha
  exact h

/-- A failure obeys. -/
theorem Obeys.fail {e : ε} : P.Obeys (.fail e : Prog C Ans ε α) s Q := by
  intro _ ha
  cases ha

end

variable {P}

/-- Acceptance of calls in two parts. -/
theorem accepts_append (h h' : List (Event C Ans)) :
    ∀ s, P.Accepts s (h ++ h') ↔ P.Accepts s h ∧ P.Accepts (P.after s h) h' := by
  induction h with
  | nil => exact fun s ↦ (iff_of_eq (true_and _)).symm
  | cons e h ih =>
    intro s
    rw [List.cons_append, Accepts, Accepts, ih, and_assoc]
    rfl

/-- The state after calls in two parts. -/
theorem after_append (h h' : List (Event C Ans)) (s : τ) :
    P.after s (h ++ h') = P.after (P.after s h) h' := List.foldl_append

/-- The same protocol, but some calls are excused when they are not allowed. The state says
whether all calls so far were allowed. -/
def excusing (P : Protocol C Ans τ) (E : τ → C → Prop) : Protocol C Ans (τ × Prop) where
  allows t c := P.allows t.1 c ∨ E t.1 c
  next t c r := (P.next t.1 c r, t.2 ∧ P.allows t.1 c)

section Excusing

variable {E : τ → C → Prop}

/-- A program that makes allowed calls only needs no excuse. -/
theorem Meets.excusing {p : Prog C Ans ε α} {Q : Except ε α → τ → Prop} :
    ∀ {s : τ} {ok : Prop}, P.Meets p s Q →
      (P.excusing E).Meets p (s, ok) fun r t ↦ Q r t.1 ∧ (t.2 ↔ ok) := by
  induction p with
  | ret a => exact fun h ↦ ⟨h, Iff.rfl⟩
  | fail e => exact fun h ↦ ⟨h, Iff.rfl⟩
  | call c k ih =>
    intro s ok h
    refine ⟨.inl h.1, fun r ↦ (ih r (h.2 r)).mono ?_⟩
    rintro _ _ ⟨hq, hok⟩
    exact ⟨hq, hok.trans (and_iff_left h.1)⟩

/-- A program that obeys needs no excuse. -/
theorem Obeys.excusing {p : Prog C Ans ε α} {s : τ} {ok : Prop} {Q : α → τ → Prop}
    (h : P.Obeys p s Q) : (P.excusing E).Obeys p (s, ok) fun a t ↦ Q a t.1 ∧ (t.2 ↔ ok) :=
  (Meets.excusing h).mono fun _ _ hq a ha ↦ ⟨hq.1 a ha, hq.2⟩

end Excusing

/-- Every run of a program is accepted and ends as the program does. -/
theorem Meets.run (env : Env C Ans) {p : Prog C Ans ε α} {Q : Except ε α → τ → Prop} (s₀ : τ) :
    ∀ {h : List (Event C Ans)}, P.Accepts s₀ h → P.Meets p (P.after s₀ h) Q →
      P.Accepts s₀ (p.run env h).2 ∧ Q (p.run env h).1 (P.after s₀ (p.run env h).2) := by
  induction p with
  | ret a => exact fun hacc hp ↦ ⟨hacc, hp⟩
  | fail e => exact fun hacc hp ↦ ⟨hacc, hp⟩
  | call c k ih =>
    intro h hacc hp
    apply ih (env h c)
    · rw [accepts_append]
      exact ⟨hacc, hp.1, trivial⟩
    · rw [after_append]
      exact hp.2 (env h c)

/-- Every run of a program that obeys is accepted, and ends as described if it returns. -/
theorem Obeys.run (env : Env C Ans) {p : Prog C Ans ε α} {Q : α → τ → Prop} {s : τ}
    (hp : P.Obeys p s Q) :
    P.Accepts s (p.run env []).2 ∧
      ∀ a, (p.run env []).1 = .ok a → Q a (P.after s (p.run env []).2) := by
  have hnone : P.Accepts s ([] : List (Event C Ans)) := trivial
  exact Meets.run env s hnone hp

end Protocol
end SqliteComposite.Base
