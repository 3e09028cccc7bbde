import Codemod.Config
import Codemod.Report.Basic
import Codemod.Store.Locate

/-!
# Searching a Source Tree

The search goes depth first through the directory it starts from. In each
directory the entries come in the order of their names, files and directories
together. A regular file is found, and so is a link that leads to one; a link
to a directory is not entered, so the search follows the tree of real
directories and needs no guard against cycles. The start itself may be a link.

What is found has the path of the start with names appended, and is given in
that form, not simplified.

## Main definitions

* `Found`: A file, or a directory that could not be opened.
* `Store.search`: All that a search finds.
* `Store.sourceFiles`: The files that a run goes through, and what went wrong.
-/

namespace Codemod

/-- What a search comes upon. -/
inductive Found
  | file (p : Path)
  | unreadable (p : Path) (e : OsError)

def Found.file? : Found → Option Path
  | .file p => some p
  | .unreadable _ _ => none

/-- The report of a directory that could not be opened. Its path is named in full
    in the message. -/
def Found.error? (c : Config) : Found → Option FileError
  | .file _ => none
  | .unreadable p e =>
    some ⟨c.reported p, s!"IO error for operation on {p}: {e.message}"⟩

namespace Store

/-- Searches the entries of the directory `dir`. -/
def searchFolder (s : Store) (dir : Path) : Folder → List Found
  | .empty => []
  | .file n _ rest => .file (dir.child n) :: s.searchFolder dir rest
  | .link n _ rest =>
    if s.isFile (dir.child n) then .file (dir.child n) :: s.searchFolder dir rest
    else s.searchFolder dir rest
  | .directory n entries rest =>
    (if maxPathBytes < (dir.child n).byteLength then [.unreadable (dir.child n) .nameTooLong]
      else s.searchFolder (dir.child n) entries) ++ s.searchFolder dir rest

/-- Searches from a path that leads to `spot`. -/
def searchSpot (s : Store) (p : Path) : Except OsError Spot → List Found
  | .error e => [.unreadable p e]
  | .ok (.directory place) => s.searchFolder p ((s.top.at? place).getD .empty)
  | .ok (.file _ _ _) => [.file p]
  | .ok _ => [.unreadable p .notFound]

/-- All that a search from a path finds. -/
def search (s : Store) (p : Path) : List Found := s.searchSpot p (s.locate true p)

/-- The files that a run goes through, in the order of the search, and the
    errors of the search. -/
def sourceFiles (s : Store) (c : Config) : List Path × List FileError :=
  let found := s.search c.searchDir
  ((found.filterMap Found.file?).filter c.matchesExtension,
    found.filterMap (Found.error? c))

end Store

end Codemod
