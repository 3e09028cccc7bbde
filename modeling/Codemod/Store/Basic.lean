import Codemod.Store.Folder

/-!
# File Stores

A tree of directories, regular files and symbolic links, with the bytes of each
file and a working directory, which relative paths start from. Its shape is in
order by construction: the proof travels with the store, so a search of it
needs no assumption.

Bytes are a function on all file numbers. Changing them changes nothing else,
and that is what most of the facts about a run come down to. What a file does
not allow is a function on file numbers as well. It is asked when a file is
opened, and not when a path is looked up.

## Main definitions

* `OsError`: Why a store refuses an operation.
* `Access`: What a file does not allow.
* `Store`: A file store.
* `Store.setBytes`: A store with other bytes in one file.
* `Store.reshape`: A store with another shape.
* `overwriteAt`: Writing into the middle of a file.

## Theorems

* `overwriteAt_size`: Writing at the end of a file appends to it.
-/

namespace Codemod

/-- Why a file store refuses an operation. -/
inductive OsError
  | notFound
  | permissionDenied
  | exists
  | notDirectory
  | isDirectory
  | nameTooLong
  | readOnlyFileSystem
  | tooManyLinks
  /-- A path holds the character that ends a path for the system. -/
  | nulInPath
deriving DecidableEq, Repr

/-- The wording of an error, with its number where it has one. -/
def OsError.message : OsError → String
  | .notFound => "No such file or directory (os error 2)"
  | .permissionDenied => "Permission denied (os error 13)"
  | .exists => "File exists (os error 17)"
  | .notDirectory => "Not a directory (os error 20)"
  | .isDirectory => "Is a directory (os error 21)"
  | .readOnlyFileSystem => "Read-only file system (os error 30)"
  | .nameTooLong => "File name too long (os error 36)"
  | .tooManyLinks => "Too many levels of symbolic links (os error 40)"
  | .nulInPath => "file name contained an unexpected NUL byte"

/-- Why a file does not let itself be opened, for reading and for writing, where it
    does not. -/
structure Access where
  read : Option OsError := none
  write : Option OsError := none
deriving DecidableEq, Repr

/-- The names that lead from the top of a store down to a directory. -/
abbrev Place := List Name

/-- A file store. -/
structure Store where
  /-- The entries of the directory at the top. -/
  top : Folder
  /-- The entries of every directory are in the order of their names. -/
  ordered : top.Ordered
  /-- The bytes of the file with a number. -/
  bytes : FileId → ByteArray
  /-- The directory that relative paths start from. -/
  here : Place
  /-- What the file with a number does not allow. -/
  access : FileId → Access := fun _ => {}

namespace Store

def empty : Store where
  top := .empty
  ordered := Folder.ordered_empty
  bytes := fun _ => .empty
  here := []

def setBytes (s : Store) (id : FileId) (b : ByteArray) : Store :=
  { s with bytes := fun i => if i = id then b else s.bytes i }

/-- A store in which one file allows all but what `a` names. -/
def setAccess (s : Store) (id : FileId) (a : Access) : Store :=
  { s with access := fun i => if i = id then a else s.access i }

/-- A store with the entries of one directory changed. -/
def reshape (s : Store) (place : Place) (f : Folder → Folder)
    (hf : ∀ d : Folder, d.Ordered → (f d).Ordered) : Store :=
  { s with top := s.top.modifyAt f place, ordered := Folder.ordered_modifyAt hf s.ordered }

/-- A store with a name entered in a directory. -/
def enter (s : Store) (place : Place) (n : Name) (e : Entry) (he : e.Ordered) : Store :=
  s.reshape place (Folder.put n e) fun _ hd => Folder.ordered_put he hd

/-- A store with a name taken out of a directory. -/
def takeOut (s : Store) (place : Place) (n : Name) : Store :=
  s.reshape place (Folder.erase n) fun _ hd => Folder.ordered_erase hd

/-- The absolute path of the working directory. -/
def workingDirectory (s : Store) : Path :=
  ⟨if s.here = [] then [slashByte] else s.here.flatMap fun n => slashByte :: n.bytes⟩

end Store

/-- Bytes with others written over them from a position on. Where the position
    lies beyond the end, zeros fill the gap. -/
def overwriteAt (old : ByteArray) (position : Nat) (new : ByteArray) : ByteArray :=
  old.extract 0 position ++ ⟨Array.replicate (position - old.size) 0⟩ ++ new ++
    old.extract (position + new.size) old.size

/-- Writing at the end of a file appends to it. -/
theorem overwriteAt_size (old new : ByteArray) : overwriteAt old old.size new = old ++ new := by
  -- There is no gap to fill, and nothing behind what is written.
  have hgap : (⟨Array.replicate (old.size - old.size) 0⟩ : ByteArray) = .empty := by
    rw [Nat.sub_self]
    rfl
  have hrest : old.extract (old.size + new.size) old.size = .empty := by
    ext
    · simp
    · simp_all
  rw [overwriteAt, hgap, hrest]
  simp

end Codemod
