import Codemod.Run
import Codemod.Store.Listing
import Std.Time.Zoned

/-!
# The Command

The outer layer of the command: it copies what a run can look at from disk into
a store, lets the library run on that store, writes the differences back to
disk, and prints what the run had to say. It decides nothing itself.

What a run can look at is the tree that is searched, the files that links in it
lead to, and the directories on the way to the log file.
-/

namespace Codemod

namespace Disk

/-- An entry on disk, by the path of its directory and its name. -/
def entry (dir name : String) : IO.FS.DirEntry := ⟨⟨dir⟩, name⟩

/-- What is on disk under a name, links not followed. -/
def kind? (dir name : String) : IO (Option IO.FS.FileType) := do
  try
    return some (← (entry dir name).path.symlinkMetadata).type
  catch _ => return none

def pathOf (dir name : String) : Path := (Path.ofString dir).join (.ofString name)

/-- A store with one more change, or as it was if the change fails. -/
def changed (s : Store) (change : Store → Except OsError Store) : Store :=
  (change s).toOption.getD s

def copyFile (s : Store) (path : String) : IO Store := do
  let bytes ← IO.FS.readBinFile path
  return changed s fun s => s.save (.ofString path) bytes

/-- Where a link leads in the end, if it leads anywhere. -/
def destination? (dir name : String) : IO (Option String) := do
  try
    return some (← IO.FS.realPath (entry dir name).path).toString
  catch _ => return none

/-- A target for a link that leads nowhere, which tells an absent target from
    links in a circle. -/
def brokenTarget (dir name : String) : IO Path := do
  try
    let _ ← IO.FS.readBinFile (entry dir name).path
    return .ofString name
  catch
    | .noFileOrDirectory .. => return .ofString (name ++ ".absent")
    | _ => return .ofString name

/-- Copies an entry, and the file that it leads to if it is a link. The result
    has the path of the directory that the entry is or leads to. -/
def copyEntry (s : Store) (dir name : String) : IO (Store × Option String) := do
  let path := pathOf dir name
  match ← kind? dir name with
  | some .file => return (← copyFile s (toString path), none)
  | some .dir => return ((s.makeDirectories path).1, some (toString path))
  | some .symlink =>
    match ← destination? dir name with
    | none =>
      let target ← brokenTarget dir name
      return (changed s fun s => s.makeLink path target, none)
    | some target =>
      let s := changed s fun s => s.makeLink path (.ofString target)
      if ← (entry target "").path.isDir then
        return ((s.makeDirectories (.ofString target)).1, some target)
      else
        let parent := ((Path.ofString target).parent?).getD (.ofString "/")
        return (← copyFile (s.makeDirectories parent).1 target, none)
  | _ => return (s, none)

/-- Copies what lies on the way of some steps that start from a directory. The
    result has the directory that they lead to, if they lead to one. -/
def copySteps (s : Store) (dir : String) : List Step → IO (Store × Option String)
  | [] => return (s, some dir)
  | .stay :: steps => copySteps s dir steps
  | .up :: steps =>
    copySteps s (toString (((Path.ofString dir).parent?).getD (.ofString "/"))) steps
  | .down n :: steps => do
    match ← copyEntry s dir (toString (Path.mk n.bytes)) with
    | (s, none) => return (s, none)
    | (s, some dir) => copySteps s dir steps

/-- Copies what lies on the way of a path. -/
def copyPath (s : Store) (p : Path) : IO (Store × Option String) :=
  copySteps s (if p.isAbsolute then "/" else toString s.workingDirectory) p.steps

/-- Copies a directory with all it holds. Links are not entered. -/
partial def copyTree (s : Store) (dir : String) : IO Store := do
  let mut s := s
  for e in ← (entry dir "").path.readDir do
    let (more, _) ← copyEntry s dir e.fileName
    s := more
    if (← kind? dir e.fileName) == some .dir then
      s ← copyTree s (toString (pathOf dir e.fileName))
  return s

/-- The working directory, and nothing else yet. -/
def start : IO Store := do
  let here := Path.ofString (← IO.FS.realPath (← IO.currentDir)).toString
  let s := (Store.empty.makeDirectories here).1
  return { s with
    here := here.components.filterMap fun
      | .name n => some n
      | _ => none }

/-- The number of a file that a store has under a path without links. -/
def fileUnder? (s : Store) (p : Path) : Option FileId :=
  match s.locate false p with
  | .ok (.file _ _ id) => some id
  | _ => none

/-- Writes to disk what differs between two stores. -/
def writeBack (before after : Store) : IO Unit := do
  for (p, e) in after.listing [] do
    let p : Path := ⟨slashByte :: p.bytes⟩
    match e with
    | .directory _ =>
      unless before.isDirectory p do IO.FS.createDirAll (toString p)
    | .file id =>
      let bytes := after.bytes id
      unless (fileUnder? before p).any fun i => (before.bytes i).data == bytes.data do
        IO.FS.writeBinFile (toString p) bytes
    | .link _ => pure ()

end Disk

def Moment.now : IO Moment := do
  let t ← Std.Time.PlainDateTime.now
  return ⟨t.date.year.toNat, t.date.month.val.toNat, t.date.day.val.toNat, t.time.hour.val.toNat,
    t.time.minute.val.toNat, t.time.second.val.toNat⟩

/-- Prints what a command has to say, and gives its status. -/
def CommandResult.report (r : CommandResult) : IO UInt32 := do
  IO.print r.out
  IO.eprint r.err
  return r.exitCode.toUInt32

/-- Runs on a copy of the disk, and writes the changes back. -/
def Plan.runOnDisk (plan : Plan) (s : Store) (started : Moment) (clock : Nat) : IO UInt32 := do
  let (s, searched) ← Disk.copyPath s plan.config.searchDir
  let s ← match searched with
    | some dir => Disk.copyTree s dir
    | none => pure s
  let s ← if plan.logging then
      (·.1) <$> Disk.copyPath s (logDirectory plan.logRoot plan.tool started)
    else pure s
  let (report, session) := plan.carryOut s started
  let lasted : Int := (← IO.monoMsNow) - clock
  let session := session.closeLog report.summary started (← Moment.now) lasted
  Disk.writeBack s session.store
  (CommandResult.ofSession session).report

end Codemod

open Codemod in
def main (argv : List String) : IO UInt32 := do
  let started ← Moment.now
  let clock ← IO.monoMsNow
  let s ← Disk.start
  match Options.ofWords argv with
  | .error e => (CommandResult.ofError s e).report
  | .ok o => (o.plan s.workingDirectory).runOnDisk s started clock
