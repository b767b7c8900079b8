import SqliteComposite.Shell.Protocol

/-!
# What a statement comes to

The codes that the calls for a statement answer, and what `execute_statement` makes of them. The
loop ends at three codes only; at any other one it steps the statement again, for ever if need
be.
-/

namespace SqliteComposite.Shell

open Base
open Library (sqliteOk sqliteMisuse)

/-- The codes answered so far. -/
structure Codes where
  prepared : List Int32
  steps : List Int32
  finalized : List Int32

/-- No code yet. -/
def Codes.none : Codes := ⟨[], [], []⟩

/-- Every call is allowed, and the codes are kept. -/
def watch : Protocol ShellCall ShellCall.Answer Codes where
  allows _ _ := True
  next a
    | .prepare _ _, (rc, _) => { a with prepared := a.prepared ++ [rc] }
    | .step _, rc => { a with steps := a.steps ++ ([rc] : List Int32) }
    | .finalize _, rc => { a with finalized := a.finalized ++ ([rc] : List Int32) }
    | _, _ => a

/-- A program that answers no code, and does not run out of rounds. -/
def Quiet {α : Type} (p : Program α) : Prop :=
  ∀ a, watch.Meets p a fun r a' ↦ a' = a ∧ r ≠ .error .unfinished

/-- What the loop makes of the codes of its steps. -/
inductive StepsTo (rounds : Nat) : List Int32 → Except Halt Bool → Prop
  | ended {codes : List Int32} {code : Int32} : (∀ c ∈ codes, ¬ Ends c) → Ends code →
      StepsTo rounds (codes ++ [code]) (.ok (code = sqliteDone))
  | halted {codes : List Int32} {e : Halt} : (∀ c ∈ codes, ¬ Ends c) → e ≠ .unfinished →
      StepsTo rounds codes (.error e)
  | unfinished {codes : List Int32} : (∀ c ∈ codes, ¬ Ends c) → codes.length = rounds →
      StepsTo rounds codes (.error .unfinished)

/-- What `execute_statement` makes of the codes answered. -/
inductive Outcome (rounds : Nat) : Codes → Except Halt Int32 → Prop
  | refused {rc : Int32} : rc ≠ sqliteOk → Outcome rounds ⟨[rc], [], []⟩ (.ok sqliteError)
  | finalized {codes : List Int32} {rc : Int32} : StepsTo rounds codes (.ok true) →
      Outcome rounds ⟨[sqliteOk], codes, [rc]⟩
        (.ok (if rc = sqliteOk then sqliteOk else sqliteError))
  | failed {codes : List Int32} : StepsTo rounds codes (.ok false) →
      Outcome rounds ⟨[sqliteOk], codes, []⟩ (.ok sqliteError)
  | halted {codes : List Int32} {e : Halt} : StepsTo rounds codes (.error e) →
      Outcome rounds ⟨[sqliteOk], codes, []⟩ (.error e)

section

variable {α β : Type} {p : Program α}

/-- A result is quiet. -/
theorem Quiet.pure (a : α) : Quiet (Pure.pure a : Program α) := fun _ ↦ ⟨rfl, nofun⟩

/-- One quiet program after the other. -/
theorem Quiet.bind {f : α → Program β} (hp : Quiet p) (hf : ∀ a, Quiet (f a)) :
    Quiet (p >>= f) := by
  intro a
  apply Protocol.Meets.bind _ _ (hp a)
  · rintro x _ ⟨rfl, _⟩
    exact hf x _
  · rintro e _ ⟨rfl, he⟩
    exact ⟨rfl, fun h ↦ he (congrArg Except.error (Except.error.inj h))⟩

/-- A call that answers no code. -/
theorem Quiet.ask {c : ShellCall} (h : ∀ a r, watch.next a c r = a) : Quiet (Shell.ask c) :=
  fun a ↦ ⟨trivial, fun r ↦ ⟨h a r, nofun⟩⟩

/-- A text is printed. -/
theorem Quiet.print (out : Text) : Quiet (Shell.ask (.printf out)) := .ask fun _ _ ↦ rfl

/-- An `if` without `else`. -/
theorem Quiet.doIf {c : Prop} [Decidable c] {p : Program Unit} (hp : Quiet p) :
    Quiet (Shell.doIf c p) := by
  unfold Shell.doIf
  split
  · exact hp
  · exact .pure _

/-- A text that may be null is printed. -/
theorem quiet_printPadded (str : Option Text) : Quiet (printPadded str) := by
  cases str with
  | none => exact fun _ ↦ ⟨rfl, nofun⟩
  | some str => exact .print _

/-- The texts of all columns are printed. -/
theorem quiet_printLoop {str : Int32 → Program (Option Text)} (hstr : ∀ i, Quiet (str i))
    (colCount : Int32) (rounds : Nat) : ∀ i, Quiet (printLoop str colCount i rounds) := by
  induction rounds with
  | zero => exact fun _ ↦ .pure _
  | succ rounds ih =>
    intro i
    apply Quiet.bind (hstr _)
    intro s
    apply Quiet.bind (.doIf (.print _))
    intro _
    apply Quiet.bind (quiet_printPadded s)
    intro _
    apply Quiet.bind (.doIf (.print _))
    intro _
    exact ih _

/-- The columns are counted, and a text of each is printed. -/
theorem quiet_columns {stmt : Nat} {str : Int32 → Program (Option Text)}
    (hstr : ∀ i, Quiet (str i)) :
    Quiet (ask (.columnCount stmt) >>= fun colCount : Int32 ↦
      printLoop str colCount 0 colCount.toNatClampNeg) :=
  .bind (.ask fun _ _ ↦ rfl) fun colCount : Int32 ↦ quiet_printLoop hstr colCount _ _

/-- A row is printed. -/
theorem quiet_printRow (stmt : Nat) (rowCount : Int32) : Quiet (printRow stmt rowCount) := by
  have hheader : Quiet (printHeader stmt) :=
    .bind (.print _) fun _ ↦ .bind (quiet_columns fun _ ↦ .ask fun _ _ ↦ rfl) fun _ ↦ .print _
  apply Quiet.bind (.doIf hheader)
  intro _
  apply Quiet.bind (.print _)
  intro _
  apply Quiet.bind (quiet_columns fun _ ↦ .ask fun _ _ ↦ rfl)
  intro _
  apply Quiet.bind (.print _)
  intro _
  split
  · exact .pure _
  · exact fun _ ↦ ⟨rfl, nofun⟩

end

/-- What the loop makes of the codes after one at which it goes on. -/
theorem StepsTo.again {rounds : Nat} {codes : List Int32} {r : Except Halt Bool} {code : Int32}
    (h : StepsTo rounds codes r) (hcode : ¬ Ends code) :
    StepsTo (rounds + 1) (code :: codes) r := by
  have hcons {codes : List Int32} (hs : ∀ c ∈ codes, ¬ Ends c) : ∀ c ∈ code :: codes, ¬ Ends c :=
    List.forall_mem_cons.mpr ⟨hcode, hs⟩
  cases h with
  | ended hs he =>
    rw [← List.cons_append]
    exact .ended (hcons hs) he
  | halted hs he => exact .halted (hcons hs) he
  | unfinished hs hlen => exact .unfinished (hcons hs) (congrArg (· + 1) hlen)

/-- A code at which the loop ends. -/
theorem StepsTo.one {rounds : Nat} {code : Int32} (he : Ends code) :
    StepsTo rounds [code] (.ok (code = sqliteDone)) := by
  rw [← List.nil_append [code]]
  exact .ended (fun _ h ↦ nomatch h) he

/-- The loop makes of the codes what it should. -/
theorem stepLoop_meets (stmt rounds : Nat) : ∀ (rowCount : Int32) (a : Codes),
    watch.Meets (stepLoop stmt rounds rowCount) a fun r a' ↦
      ∃ codes, a' = { a with steps := a.steps ++ codes } ∧ StepsTo rounds codes r := by
  induction rounds with
  | zero =>
    intro rowCount a
    exact ⟨[], by rw [List.append_nil], .unfinished (by simp) rfl⟩
  | succ rounds ih =>
    intro rowCount a
    apply Protocol.Meets.ask_bind trivial
    intro (rc : Int32)
    have hagain (hends : ¬ Ends rc) (rowCount : Int32) :
        watch.Meets (stepLoop stmt rounds rowCount) { a with steps := a.steps ++ [rc] }
          fun r a' ↦ ∃ codes, a' = { a with steps := a.steps ++ codes } ∧
            StepsTo (rounds + 1) codes r := by
      apply (ih rowCount _).mono
      rintro r _ ⟨codes, rfl, h⟩
      exact ⟨rc :: codes, by simp, h.again hends⟩
    by_cases hbusy : rc = sqliteBusy
    · rw [if_pos hbusy]
      exact hagain (by rw [hbusy]; decide) rowCount
    by_cases hrow : rc = sqliteRow
    · rw [if_neg hbusy, if_pos hrow]
      have hends : ¬ Ends rc := by rw [hrow]; decide
      apply Protocol.Meets.bind _ _ (quiet_printRow stmt rowCount _)
      · rintro rowCount _ ⟨rfl, _⟩
        exact hagain hends rowCount
      · rintro e _ ⟨rfl, he⟩
        refine ⟨[rc], rfl, .halted (by simpa using hends) fun h ↦ he ?_⟩
        rw [h]
    by_cases hdone : rc = sqliteDone
    · rw [if_neg hbusy, if_neg hrow, if_pos hdone]
      refine ⟨[rc], rfl, ?_⟩
      have h : StepsTo (rounds + 1) [rc] _ := .one (.inl hdone)
      rwa [decide_eq_true hdone] at h
    by_cases herror : rc = sqliteError ∨ rc = sqliteMisuse
    · rw [if_neg hbusy, if_neg hrow, if_neg hdone, if_pos herror]
      refine ⟨[rc], rfl, ?_⟩
      have h : StepsTo (rounds + 1) [rc] _ := .one (.inr herror)
      rwa [decide_eq_false hdone] at h
    · rw [if_neg hbusy, if_neg hrow, if_neg hdone, if_neg herror]
      exact hagain (not_or.mpr ⟨hdone, herror⟩) rowCount

/-- A statement comes to what its codes say. -/
theorem executeStatement_meets (rounds db : Nat) (zSql : Text) :
    watch.Meets (executeStatement rounds db zSql) .none fun r a ↦ Outcome rounds a r := by
  apply Protocol.Meets.ask_bind trivial
  intro _
  apply Protocol.Meets.ask_bind trivial
  rintro ⟨rc, stmt⟩
  dsimp only
  by_cases hrc : rc = sqliteOk
  · subst hrc
    rw [if_neg (not_not.mpr rfl)]
    apply Protocol.Meets.bind _ _ (stepLoop_meets stmt rounds 0 _)
    · rintro isDone _ ⟨codes, rfl, h⟩
      cases isDone with
      | true =>
        apply Protocol.Meets.ask_bind trivial
        intro (rc : Int32)
        have hend : Outcome rounds ⟨[sqliteOk], codes, [rc]⟩ _ := .finalized h
        by_cases hrc : rc = sqliteOk
        · rw [if_neg (not_not.mpr hrc)]
          rwa [if_pos hrc] at hend
        · rw [if_pos hrc]
          rwa [if_neg hrc] at hend
      | false => exact Outcome.failed h
    · rintro e _ ⟨codes, rfl, h⟩
      exact Outcome.halted h
  · rw [if_pos hrc]
    exact Outcome.refused hrc

section

variable {rounds : Nat} {a : Codes} {codes : List Int32} {r : Except Halt Int32} {isDone : Bool}

/-- The loop ends with the last code. -/
theorem StepsTo.last (h : StepsTo rounds codes (.ok isDone)) :
    ∃ code, codes.getLast? = some code ∧ Ends code ∧ isDone = decide (code = sqliteDone) := by
  cases h with
  | ended _ he => exact ⟨_, List.getLast?_concat, he, rfl⟩

/-- A loop that does not return has met no code that ends it. -/
theorem StepsTo.goesOn {e : Halt} (h : StepsTo rounds codes (.error e)) :
    ∀ c ∈ codes, ¬ Ends c := by
  cases h with
  | halted hs _ => exact hs
  | unfinished hs _ => exact hs

/-- `execute_statement` returns `SQLITE_OK` when each step of the way is without an error. -/
theorem Outcome.ok_iff (h : Outcome rounds a r) : r = .ok sqliteOk ↔
    a.prepared = [sqliteOk] ∧ a.steps.getLast? = some sqliteDone ∧ a.finalized = [sqliteOk] := by
  have hne : sqliteError ≠ sqliteOk := by decide
  cases h with
  | refused hrc => simp [hne, hrc]
  | @finalized codes rc hs =>
    obtain ⟨code, hlast, _, hdone⟩ := hs.last
    obtain rfl : code = sqliteDone := by simpa using hdone.symm
    by_cases hrc : rc = sqliteOk <;> simp [hlast, hrc, hne]
  | failed hs => simp [hne]
  | halted hs => simp

/-- `execute_statement` returns when the statement is refused, or a step ends it. -/
theorem Outcome.returns_iff (h : Outcome rounds a r) : (∃ rc, r = .ok rc) ↔
    a.prepared ≠ [sqliteOk] ∨ ∃ code ∈ a.steps, Ends code := by
  cases h with
  | refused hrc => simp [hrc]
  | finalized hs =>
    obtain ⟨code, hlast, he, _⟩ := hs.last
    exact iff_of_true ⟨_, rfl⟩ (.inr ⟨code, List.mem_of_getLast? hlast, he⟩)
  | failed hs =>
    obtain ⟨code, hlast, he, _⟩ := hs.last
    exact iff_of_true ⟨_, rfl⟩ (.inr ⟨code, List.mem_of_getLast? hlast, he⟩)
  | halted hs =>
    have hnone := hs.goesOn
    refine iff_of_false (by simp) ?_
    rintro (hne | ⟨code, hmem, he⟩)
    · exact hne rfl
    · exact hnone code hmem he

/-- A loop that used up its rounds has stepped the statement in each. -/
theorem Outcome.rounds_eq (h : Outcome rounds a (.error .unfinished)) :
    a.steps.length = rounds := by
  cases h with
  | halted hs =>
    cases hs with
    | halted _ hne => exact absurd rfl hne
    | unfinished _ hlen => exact hlen

end

/-- In every environment `execute_statement` returns `SQLITE_OK` when the statement is prepared,
stepped to `SQLITE_DONE` and finalized without an error. It returns at all when the statement is
refused or a step answers one of three codes; whatever else the steps answer, there is a step in
each round. -/
theorem executeStatement_outcome (env : Env ShellCall ShellCall.Answer) (rounds db : Nat)
    (zSql : Text) : ∃ r h, (executeStatement rounds db zSql).run env [] = (r, h) ∧
      (r = .ok sqliteOk ↔ (watch.after .none h).prepared = [sqliteOk] ∧
        (watch.after .none h).steps.getLast? = some sqliteDone ∧
        (watch.after .none h).finalized = [sqliteOk]) ∧
      ((∃ rc, r = .ok rc) ↔ (watch.after .none h).prepared ≠ [sqliteOk] ∨
        ∃ code ∈ (watch.after .none h).steps, Ends code) ∧
      (r = .error .unfinished → (watch.after .none h).steps.length = rounds) := by
  have hnone : watch.Accepts .none [] := trivial
  have h := (Protocol.Meets.run env Codes.none hnone (executeStatement_meets rounds db zSql)).2
  exact ⟨_, _, rfl, h.ok_iff, h.returns_iff, fun he ↦ (he ▸ h).rounds_eq⟩

end SqliteComposite.Shell
