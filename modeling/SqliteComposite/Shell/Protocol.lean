import SqliteComposite.Shell.Functions

/-!
# The calls of the shell

The rules of the interface for connections and statements, as a protocol, and how far the shell
follows them whatever it is answered. It does not look at the code that opening the connection
answers, and goes on to prepare statements. A statement whose last step answered an error is left
behind; the connection cannot be closed over it, and the library is shut down all the same.
-/

namespace SqliteComposite.Shell

open Base
open Library (sqliteOk sqliteMisuse)

/-- A statement that was prepared: its text, the code it was stepped to last, and the number of
its columns as asked for last. -/
structure Statement where
  sql : Text
  code : Option Int32
  columns : Int32

/-- A connection: the pointer that was set, the code that opening it answered, and whether closing
it has answered `SQLITE_OK`. -/
structure Connection where
  handle : Nat
  code : Int32
  closed : Bool

/-- Where the calls so far lead: whether the library was initialized and not shut down, the
connection, the statements not yet finalized, the texts prepared, those that were stepped to
`SQLITE_DONE` and finalized without an error, and what was printed. -/
structure Usage where
  started : Bool
  db : Option Connection
  live : Nat → Option Statement
  prepared : List Text
  finished : List Text
  out : Text

/-- Before the first call. -/
def Usage.idle : Usage := ⟨false, none, fun _ ↦ none, [], [], []⟩

/-- A statement is not to be stepped again after this code. -/
def Ends (code : Int32) : Prop := code = sqliteDone ∨ code = sqliteError ∨ code = sqliteMisuse

instance (code : Int32) : Decidable (Ends code) := inferInstanceAs (Decidable (_ ∨ _ ∨ _))

/-- A statement that is finalized counts as finished if it was done and there is no error. -/
def Usage.finalized (u : Usage) (stmt : Nat) (rc : Int32) : Usage :=
  { u with
    live := Function.update u.live stmt none
    finished := u.finished ++ ((u.live stmt).filter fun st ↦
      st.code = some sqliteDone ∧ rc = sqliteOk).toList.map Statement.sql }

/-- A change of a statement. -/
def Usage.change (u : Usage) (stmt : Nat) (f : Statement → Statement) : Usage :=
  { u with live := Function.update u.live stmt ((u.live stmt).map f) }

/-- Only this statement is live. -/
def only (stmt : Nat) (st : Statement) : Nat → Option Statement :=
  Function.update (fun _ ↦ none) stmt (some st)

/-- The first line of the output. -/
def hello : Text := text "Hello whirled!\n"

/-- On the connection some texts were prepared, and some of them are finished. -/
structure Working (c : Connection) (prepared finished : List Text) (u : Usage) : Prop where
  started : u.started = true
  db : u.db = some c
  prepared : u.prepared = prepared
  finished : u.finished = finished
  out : hello <+: u.out

/-- A statement is executed: it is the last one prepared, and no other one is live. -/
structure During (c : Connection) (done : List Text) (stmt : Nat) (st : Statement) (u : Usage) :
    Prop where
  working : Working c (done ++ [st.sql]) done u
  live : u.live = only stmt st

variable {u : Usage} {c : Connection} {stmt : Nat} {done : List Text} {zSql : Text} {st : Statement}
  {kept : Prop}

/-- The statement that is executed. -/
theorem During.find (h : During c done stmt st u) : u.live stmt = some st := by
  rw [h.live, only, Function.update_self]

/-- A change of the statement that is executed. -/
theorem During.change (h : During c done stmt st u) {f : Statement → Statement}
    (hf : (f st).sql = st.sql) : During c done stmt (f st) (u.change stmt f) where
  working := hf ▸ { h.working with }
  live := by
    rw [Usage.change, h.find, h.live, only, Function.update_idem]
    rfl

end SqliteComposite.Shell
