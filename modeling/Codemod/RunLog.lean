import Codemod.Store.Edit

/-!
# The Log of a Run

What a run says goes to the console, and to a log file as well if there is one.
The log file is an ordinary file of the store that the run works on: it is
created before the search starts, and the search may find it. The log writes at
a position of its own, which is the number of bytes it has written so far; when
the run writes to the log file in between, the log goes on at that position and
overwrites what has come to stand there.

The console keeps the two streams apart. A line to the log is written at once,
so that the order of lines in the file is the order in which they were said.

## Main definitions

* `Moment`: A reading of the clock.
* `LogFile`: An open log file.
* `Session`: A store together with the log and the console.
* `Session.note`, `Session.print`, `Session.warn`: Saying a line.
* `Session.openLog`: Creating the log file.
* `Session.closeLog`: The summary at the end of a log.
-/

namespace Codemod

/-! ## The clock -/

/-- A reading of the clock. -/
structure Moment where
  year : Nat
  month : Nat
  day : Nat
  hour : Nat
  minute : Nat
  second : Nat
deriving DecidableEq, Repr

namespace Moment

/-- A number with zeros in front to make up a width. -/
def padded (width n : Nat) : String :=
  let digits := toString n
  String.join (List.replicate (width - digits.length) "0") ++ digits

def date (m : Moment) : String :=
  s!"{padded 4 m.year}-{padded 2 m.month}-{padded 2 m.day}"

/-- The time of day, its parts set apart by `sep`. -/
def time (m : Moment) (sep : String) : String :=
  s!"{padded 2 m.hour}{sep}{padded 2 m.minute}{sep}{padded 2 m.second}"

/-- The date and the time of day, as lines of a log show them. -/
def stamp (m : Moment) : String := m.date ++ " " ++ m.time ":"

end Moment

/-! ## Log files -/

/-- An open log file. -/
structure LogFile where
  path : Path
  id : FileId
  /-- The number of bytes written so far. -/
  position : Nat
deriving DecidableEq

/-- The directory of the logs of a day. -/
def logDirectory (root : Path) (tool : String) (started : Moment) : Path :=
  ((root.join (.ofString "logs")).join (.ofString tool)).join (.ofString started.date)

/-- The path of the log of a run. -/
def logPath (root : Path) (tool : String) (started : Moment) : Path :=
  (logDirectory root tool started).join (.ofString ("run-" ++ started.time "-" ++ ".log"))

/-! ## Sessions -/

/-- A store together with the log and the console. -/
structure Session where
  store : Store
  log : Option LogFile := none
  /-- The lines on standard output so far. -/
  out : List String := []
  /-- The lines on standard error so far. -/
  err : List String := []

namespace Session

/-- Says a line to the log only. -/
def note (s : Session) (line : String) : Session :=
  match s.log with
  | none => s
  | some log =>
    let bytes := (line ++ "\n").toUTF8
    { s with
      store := s.store.setBytes log.id (overwriteAt (s.store.bytes log.id) log.position bytes)
      log := some { log with position := log.position + bytes.size } }

/-- Says a line to standard output and to the log. -/
def print (s : Session) (line : String) : Session :=
  { s with out := s.out ++ [line] }.note line

/-- Says a line to standard error and to the log. -/
def warn (s : Session) (line : String) : Session :=
  { s with err := s.err ++ [line] }.note line

/-- Creates the log file of a run. Failing that, the run goes on without a log
    and says so. -/
def openLog (s : Session) (root : Path) (tool : String) (started : Moment) : Session :=
  let path := logPath root tool started
  let (store, failure) := s.store.makeDirectories (logDirectory root tool started)
  let s := { s with store := store }
  let unlogged (e : OsError) : Session :=
    (s.warn ("Warning: Could not create log file: " ++ e.message)).warn
      "Continuing without logging..."
  match failure with
  | some e => unlogged e
  | none =>
    match store.create path with
    | .error e => unlogged e
    | .ok (id, store) => { s with store := store, log := some ⟨path, id, 0⟩ }

/-- Writes the end of a log: the summary, the clock, and where the log is. -/
def closeLog (s : Session) (summary : String) (started ended : Moment) (milliseconds : Int) :
    Session :=
  match s.log with
  | none => s
  | some log =>
    ["", "=== Run Summary ===", summary,
      s!"Started: {started.stamp}",
      s!"Ended: {ended.stamp}",
      s!"Duration: {milliseconds}ms",
      s!"Log saved to: {log.path}"].foldl note s

end Session

end Codemod
