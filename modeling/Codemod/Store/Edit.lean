import Codemod.Store.Locate

/-!
# Changing a Store

Creating files, directories and links, and removing them. An operation either
succeeds or leaves the store as it was, with one exception: creating a
directory with all its parents keeps the parents that it created before it
failed, so it returns a store in any case.

## Main definitions

* `Store.create`: An empty file under a path.
* `Store.save`: Bytes under a path.
* `Store.makeDirectory`, `Store.makeDirectories`: Directories.
* `Store.makeLink`: Symbolic links.
* `Store.remove`: A file, a link or a directory with all it holds.
-/

namespace Codemod

namespace Store

/-- Makes an empty file under a path, or empties the file that is there if it
    allows that. A link is followed, also to a file that is still missing. -/
def create (s : Store) (p : Path) : Except OsError (FileId × Store) :=
  match s.locate true p with
  | .error e => .error e
  | .ok (.file _ _ id) =>
    match (s.access id).write with
    | some e => .error e
    | none => .ok (id, s.setBytes id .empty)
  | .ok (.missing place n) =>
    let id := s.top.freshId
    .ok (id, ((s.enter place n (.file id) trivial).setAccess id {}).setBytes id .empty)
  | .ok _ => .error .isDirectory

/-- Keeps bytes under a path. -/
def save (s : Store) (p : Path) (b : ByteArray) : Except OsError Store :=
  (s.create p).map fun (id, s) => s.setBytes id b

/-- Makes a directory in one that exists. -/
def makeDirectory (s : Store) (p : Path) : Except OsError Store :=
  let bare : Path := ⟨(p.bytes.reverse.dropWhile (· = slashByte)).reverse⟩
  match s.locate false (if bare.bytes = [] then p else bare) with
  | .error e => .error e
  | .ok (.missing place n) => .ok (s.enter place n (.directory .empty) trivial)
  | .ok _ => .error .exists

/-- Makes a directory and the parents that are missing, with the reason where
    that fails. A directory that exists already will do. -/
def makeDirectories (s : Store) (p : Path) : Store × Option OsError :=
  if p.bytes = [] then (s, none)
  else
    match s.makeDirectory p with
    | .ok made => (made, none)
    | .error .notFound =>
      match _parent : p.parent? with
      | none => (s, some .notFound)
      | some q =>
        match s.makeDirectories q with
        | (under, some e) => (under, some e)
        | (under, none) =>
          match under.makeDirectory p with
          | .ok made => (made, none)
          | .error e => (under, if under.isDirectory p then none else some e)
    | .error e => (s, if s.isDirectory p then none else some e)
termination_by p.bytes.length
decreasing_by exact Path.length_lt_of_parent? _parent

/-- Makes a link with a given target, which need not lead anywhere. -/
def makeLink (s : Store) (p target : Path) : Except OsError Store :=
  match target.defect? with
  | some e => .error e
  | none =>
    match s.locate false p with
    | .error e => .error e
    | .ok (.missing place n) => .ok (s.enter place n (.link target) trivial)
    | .ok _ => .error .exists

/-- Removes what is under a path: a file, a link, or a directory with all it
    holds. -/
def remove (s : Store) (p : Path) : Except OsError Store :=
  match s.locate false p with
  | .error e => .error e
  | .ok (.file place n _) | .ok (.link place n _ _) => .ok (s.takeOut place n)
  | .ok (.missing _ _) => .error .notFound
  | .ok (.directory place) =>
    match place.getLast? with
    | none => .error .isDirectory
    | some n => .ok (s.takeOut place.dropLast n)

end Store

end Codemod
