import Codemod.Options.Parser
import Codemod.Visit

/-!
# Runs

A run as a plan asks for it: the log file is opened, the source tree is gone
through, the report is printed, and the log is closed with a summary. A command
is a run whose plan comes from the words of a command line.

The clock is read by whoever starts a run and handed in, so that a run depends
on nothing but its arguments.

## Main definitions

* `Timing`: The readings of the clock that a log mentions.
* `Plan.carryOut`: A run up to the printed report.
* `Plan.run`: A whole run.
* `CommandResult`, `Store.command`: A command.
-/

namespace Codemod

/-- The readings of the clock that a log mentions. -/
structure Timing where
  started : Moment
  ended : Moment
  milliseconds : Int
deriving DecidableEq, Repr

namespace Plan

/-- The session that a run starts with. -/
def begin (plan : Plan) (store : Store) (started : Moment) : Session :=
  let s : Session := { store := store }
  let s := if plan.logging then s.openLog plan.logRoot plan.tool started else s
  let s := s.note s!"Entering directory '{plan.config.root}'"
  if plan.config.dryRun then s.note "DRY RUN MODE: Will not modify files" else s

/-- Runs up to the printed report. -/
def carryOut (plan : Plan) (store : Store) (started : Moment) : Report × Session :=
  let (report, s) := (plan.begin store started).process plan.config
  (report, (report.printed plan.format).foldl Session.print s)

def run (plan : Plan) (store : Store) (t : Timing) : Report × Session :=
  let (report, s) := plan.carryOut store t.started
  (report, s.closeLog report.summary t.started t.ended t.milliseconds)

end Plan

/-- The text of lines, each with its line feed. -/
def unlines (lines : List String) : String := String.join (lines.map (· ++ "\n"))

/-- What a command leaves behind. -/
structure CommandResult where
  exitCode : Nat
  out : String
  err : String
  store : Store

namespace CommandResult

/-- The result of a command line that gives no settings. -/
def ofError (s : Store) (e : OptionError) : CommandResult :=
  match e with
  | .helpRequested => ⟨e.exitCode, e.message .stream, "", s⟩
  | _ => ⟨e.exitCode, "", e.message .stream ++ "\n", s⟩

def ofSession (s : Session) : CommandResult := ⟨0, unlines s.out, unlines s.err, s.store⟩

end CommandResult

/-- Runs a command in the working directory of the store. -/
def Store.command (s : Store) (argv : List String) (t : Timing) : CommandResult :=
  match Options.ofWords argv with
  | .error e => .ofError s e
  | .ok o => .ofSession ((o.plan s.workingDirectory).run s t).2

end Codemod
