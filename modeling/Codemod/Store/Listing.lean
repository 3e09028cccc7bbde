import Codemod.Store.Locate

/-!
# Listing a Store

Everything below a directory, each entry with its path from there, in the order
of the bytes of the whole path. That order differs from the order of a search:
a slash sorts among the characters of the names around it.

## Main definitions

* `Folder.entriesBelow`: The entries of a folder and of those below it.
* `Store.listing`: The entries below a directory, sorted by path.
* `Store.filesBelow`: The regular files among them.
-/

namespace Codemod

/-- The entries of a folder and of those below it. Their paths start with
    `before`, which is empty or ends in a slash. -/
def Folder.entriesBelow (before : List UInt8) : Folder → List (Path × Entry)
  | .empty => []
  | .file n id rest => (⟨before ++ n.bytes⟩, .file id) :: rest.entriesBelow before
  | .link n target rest => (⟨before ++ n.bytes⟩, .link target) :: rest.entriesBelow before
  | .directory n entries rest =>
    (⟨before ++ n.bytes⟩, .directory entries) ::
      (entries.entriesBelow (before ++ n.bytes ++ [slashByte]) ++ rest.entriesBelow before)

namespace Store

/-- The entries below a directory, sorted by path. -/
def listing (s : Store) (place : Place) : List (Path × Entry) :=
  (((s.top.at? place).getD .empty).entriesBelow []).mergeSort
    fun a b => decide ¬b.1.bytes < a.1.bytes

/-- The regular files below a directory, sorted by path. -/
def filesBelow (s : Store) (place : Place) : List (Path × FileId) :=
  (s.listing place).filterMap fun (p, e) =>
    match e with
    | .file id => some (p, id)
    | _ => none

end Store

end Codemod
