import Codemod.Pass
import Codemod.RunLog
import Codemod.Search
import Codemod.Text.Encoding

/-!
# Visiting the Files of a Tree

A run visits the found files one by one. A visit reads a file, passes over its
text and writes the result back if the pass changed anything and writing is
wanted. It is written before the next file is visited, so that a file with two
paths is visited a second time as the first visit left it.

A file that cannot be read, is not text or cannot be written is reported and
skipped. The report of a run is made up from its visits alone.

## Main definitions

* `FileFault`: What can go wrong with a file.
* `Store.updateFile`: One file.
* `Visit`: What came of the visit to a file.
* `Session.visit`, `Session.visitAll`: Visits.
* `Session.process`: A run over a source tree.
-/

namespace Codemod

/-- Why a file is not brought up to date. -/
inductive FileFault
  | unread (p : Path) (e : OsError)
  | notText (p : Path)
  | unwritten (p : Path) (e : OsError)
deriving DecidableEq

def FileFault.message : FileFault → String
  | .unread p e => s!"Failed to read {p}: {e.message}"
  | .notText p => s!"Failed to read {p}: stream did not contain valid UTF-8"
  | .unwritten p e => s!"Failed to write {p}: {e.message}"

/-- Why the text of a file cannot be had. -/
abbrev ReadError := FileFault

namespace Store

/-- The text of the file that a path leads to, with the number of the file. -/
def readText (s : Store) (p : Path) : Except ReadError (FileId × Text) :=
  match s.fileAt p with
  | .error e => .error (.unread p e)
  | .ok id =>
    match (s.access id).read with
    | some e => .error (.unread p e)
    | none =>
      match decodeText? (s.bytes id) with
      | none => .error (.notText p)
      | some text => .ok (id, text)

/-- Passes over the text of a file. The file is written only if the pass
    changed it and this is no dry run. -/
def updateFile (s : Store) (p : Path) (dryRun : Bool) : Except FileFault Outcome × Store :=
  match s.readText p with
  | .error e => (.error e, s)
  | .ok (id, text) =>
    let o := replaceCalls .withOpacity text
    if o.changed ∧ dryRun = false then
      match (s.access id).write with
      | some e => (.error (.unwritten p e), s)
      | none => (.ok o, s.setBytes id (encodeText o.text))
    else (.ok o, s)

end Store

/-- What came of the visit to a file. -/
structure Visit where
  /-- The path of the file as reported. -/
  path : String
  result : Except FileFault Outcome

namespace Visit

/-- The record of a visit, if the pass changed the file or did not get through
    it. -/
def record? (v : Visit) : Option FileRecord :=
  match v.result with
  | .error _ => none
  | .ok o =>
    if o.changed ∨ o.unbalancedLine?.isSome then
      some ⟨v.path, o.changed, o.replacements, o.unbalancedLine?⟩
    else none

/-- The error of a visit, if the file could not be read or written. -/
def error? (v : Visit) : Option FileError :=
  match v.result with
  | .error e => some ⟨v.path, e.message⟩
  | .ok _ => none

/-- What a visit has to say to the user, if anything. -/
def warning? (v : Visit) : Option String :=
  match v.result with
  | .error e => some s!"ERROR processing {v.path}: {e.message}"
  | .ok o =>
    match o.ending with
    | .done => none
    | .aborted _ line reason =>
      some (s!"{v.path}:{line}: {reason.message}; " ++
        ".withOpacity( call and rest of file left unchanged")

end Visit

namespace Session

def visit (s : Session) (c : Config) (p : Path) : Visit × Session :=
  let (result, store) := s.store.updateFile p c.dryRun
  let v : Visit := ⟨c.reported p, result⟩
  let s := { s with store := store }
  (v, match v.warning? with
    | none => s
    | some line => s.warn line)

def visitAll (s : Session) (c : Config) : List Path → List Visit × Session
  | [] => ([], s)
  | p :: ps =>
    let (v, s) := s.visit c p
    let (vs, s) := s.visitAll c ps
    (v :: vs, s)

/-- Runs over a source tree. -/
def process (s : Session) (c : Config) : Report × Session :=
  if s.store.isDirectory c.searchDir then
    let (files, errors) := s.store.sourceFiles c
    let s := errors.foldl (fun s e => s.warn s!"ERROR processing {e.path}: {e.message}") s
    let (visits, s) := s.visitAll c files
    (⟨visits.length, visits.filterMap Visit.record?, errors ++ visits.filterMap Visit.error?,
      c.dryRun⟩, s)
  else
    (⟨0, [], [], c.dryRun⟩, s.warn s!"Warning: Source directory not found: {c.searchDir}")

end Session

end Codemod
