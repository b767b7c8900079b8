import SqliteComposite.Base.Interaction
import SqliteComposite.Library.Initialize

/-!
# The shell

Models `shell.c`. The functions of SQLite that it calls are calls to its environment, and so is
`printf`, with the text it writes. A connection and a statement are pointers. The loop that steps
a statement is given a number of rounds.
-/

namespace SqliteComposite.Shell

open Base
open Library (sqliteOk sqliteMisuse)

/-- `SQLITE_ERROR`; `sqlite3.h:416`. -/
def sqliteError : Int32 := 1

/-- `SQLITE_BUSY`; `sqlite3.h:420`. -/
def sqliteBusy : Int32 := 5

/-- `SQLITE_ROW`; `sqlite3.h:444`. -/
def sqliteRow : Int32 := 100

/-- `SQLITE_DONE`; `sqlite3.h:445`. -/
def sqliteDone : Int32 := 101

/-- The characters of a text. -/
abbrev Text := List UInt8

/-- The characters of a literal. -/
def text (s : String) : Text := s.toList.map fun c ↦ UInt8.ofNat c.toNat

/-- The calls of the shell. -/
inductive ShellCall where
  | printf (out : Text)
  | libInit
  | openDb (zFilename : Text)
  | prepare (db : Nat) (zSql : Text)
  | step (stmt : Nat)
  | columnCount (stmt : Nat)
  | columnName (stmt : Nat) (i : Int32)
  | columnText (stmt : Nat) (i : Int32)
  | finalize (stmt : Nat)
  | close (db : Nat)
  | shutdown

/-- What the calls answer: a code, the pointer set, a number, or a text that may be null. -/
def ShellCall.Answer : ShellCall → Type
  | .printf _ => Unit
  | .openDb _ | .prepare _ _ => Int32 × Nat
  | .columnName _ _ | .columnText _ _ => Option Text
  | _ => Int32

/-- Why a function does not return: a null pointer for `%s`, a sum that no `int` holds, or no
rounds that are left. -/
inductive Halt where
  | nullString
  | overflow
  | unfinished
  deriving DecidableEq

/-- A part of the shell. -/
abbrev Program (α : Type) := Prog ShellCall ShellCall.Answer Halt α

/-- A call. -/
def ask (c : ShellCall) : Program c.Answer := Prog.ask c

/-- An `if` without `else`. -/
def doIf (c : Prop) [Decidable c] (p : Program Unit) : Program Unit := if c then p else pure ()

/-- `printf` of a literal. -/
def printf (s : String) : Program Unit := ask (.printf (text s))

/-- `printf("%-15s", str)`. -/
def printPadded : Option Text → Program Unit
  | none => .fail .nullString
  | some str => ask (.printf (str ++ List.replicate (15 - str.length) 32))

/-- The loop of `print_column_names` and `print_statement_columns` from index `i` on. -/
def printLoop (str : Int32 → Program (Option Text)) (colCount : Int32) (i : Nat) :
    Nat → Program Unit
  | 0 => pure ()
  | rounds + 1 => do
    let s ← str (Int32.ofNat i)
    doIf (0 < i) (printf "| ")
    printPadded s
    doIf (Int32.ofNat i < colCount) (printf " |")
    printLoop str colCount (i + 1) rounds

/-- `print_column_names`; `shell.c:5`. -/
def printColumnNames (stmt : Nat) : Program Unit := do
  let colCount : Int32 ← ask (.columnCount stmt)
  printLoop (fun i ↦ ask (.columnName stmt i)) colCount 0 colCount.toNatClampNeg

/-- `print_statement_columns`; `shell.c:17`. -/
def printStatementColumns (stmt : Nat) : Program Unit := do
  let colCount : Int32 ← ask (.columnCount stmt)
  printLoop (fun i ↦ ask (.columnText stmt i)) colCount 0 colCount.toNatClampNeg

/-- What `execute_statement` prints before the first row. -/
def printHeader (stmt : Nat) : Program Unit := do
  printf "\t"
  printColumnNames stmt
  printf "\n\t==\n"

/-- What `execute_statement` does at `SQLITE_ROW`. -/
def printRow (stmt : Nat) (rowCount : Int32) : Program Int32 := do
  doIf (rowCount = 0) (printHeader stmt)
  printf "\t"
  printStatementColumns stmt
  printf "\n"
  if rowCount.toInt + 1 < 2 ^ 31 then pure (rowCount + 1) else .fail .overflow

/-- The loop of `execute_statement`: whether it ends with `done`, or returns `SQLITE_ERROR`. The
`switch` has no default. -/
def stepLoop (stmt : Nat) : Nat → Int32 → Program Bool
  | 0, _ => .fail .unfinished
  | rounds + 1, rowCount => do
    let rc : Int32 ← ask (.step stmt)
    if rc = sqliteBusy then stepLoop stmt rounds rowCount
    else if rc = sqliteRow then
      let rowCount ← printRow stmt rowCount
      stepLoop stmt rounds rowCount
    else if rc = sqliteDone then pure true
    else if rc = sqliteError ∨ rc = sqliteMisuse then pure false
    else stepLoop stmt rounds rowCount

/-- `execute_statement`; `shell.c:29`. -/
def executeStatement (rounds : Nat) (db : Nat) (zSql : Text) : Program Int32 := do
  ask (.printf (text "> " ++ zSql ++ text "\n"))
  let (rc, stmt) ← (ask (.prepare db zSql) : Program (Int32 × Nat))
  if rc ≠ sqliteOk then pure sqliteError
  else
    let done ← stepLoop stmt rounds 0
    if done then
      let rc : Int32 ← ask (.finalize stmt)
      if rc ≠ sqliteOk then pure sqliteError else pure sqliteOk
    else pure sqliteError

end SqliteComposite.Shell
