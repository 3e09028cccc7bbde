/-!
# Reports

What a run over a source tree has to tell: how many files it looked at, which
of them it changed or had to leave half done, and which it could not process.
Counts of the report are derived from its records, so they cannot disagree with
them.

## Main definitions

* `FileRecord`: A file that a pass changed, or did not get through.
* `FileError`: A file or directory that could not be processed.
* `Report`: The outcome of a run.
* `Report.isCountable`: Whether the counts of a report fit in a counter.
* `Report.summary`: The report in one line.
* `Report.lines`: The report as text.
-/

namespace Codemod

/-- A file that a pass changed, or did not get through. -/
structure FileRecord where
  /-- The path as reported, relative to the root of the project. -/
  path : String
  changed : Bool
  replacements : Nat
  /-- The line of a call head without a closer. -/
  unbalancedLine : Option Nat
deriving DecidableEq, Repr

/-- A file or directory that could not be processed. -/
structure FileError where
  /-- The path as reported, relative to the root of the project. -/
  path : String
  message : String
deriving DecidableEq, Repr

/-- The outcome of a run over a source tree. -/
structure Report where
  filesScanned : Nat
  records : List FileRecord
  errors : List FileError
  dryRun : Bool
deriving DecidableEq, Repr

namespace Report

/-- The paths of the changed files, in the order of the visit. -/
def changedPaths (r : Report) : List String :=
  (r.records.filter (·.changed)).map (·.path)

/-- The number of calls replaced in all files. -/
def totalReplacements (r : Report) : Nat := r.records.foldl (fun n x => n + x.replacements) 0

/-- Whether the total fits in the 64 bits of a counter. Every run over files
    that a machine can hold has such a report. A report that is read back may
    be another one, and then it has neither a total nor a summary. -/
def isCountable (r : Report) : Bool := r.totalReplacements < UInt64.size

/-- The report in one line. Only the word for the modified files agrees in
    number. -/
def summary (r : Report) : String :=
  let changed := r.changedPaths.length
  let word := if changed = 1 then "file" else "files"
  s!"Summary: {r.filesScanned} files scanned, {changed} {word} modified, " ++
    s!"{r.totalReplacements} replacements, {r.errors.length} errors"

/-- The report as text: a headline, the changed paths and a closing mark. -/
def lines (r : Report) : List String :=
  (if r.dryRun then "Would modify files:" else "Modified files:") :: r.changedPaths ++ ["Done."]

end Report

end Codemod
