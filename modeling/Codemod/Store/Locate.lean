import Codemod.Store.Basic

/-!
# Locating a Path in a Store

A path is walked step by step. The walk stops at its end, or at a symbolic
link; the link's target then takes the place of the link in the steps to come,
and a new walk starts. Each walk is a recursion on the steps, and the number of
links that may be met is limited, so locating a path always comes to an end,
also among links that point at each other.

The last step is special. Its name may be missing, which is where an entry can
be created, and a link under its name is followed or not as the caller asks.

## Main definitions

* `Spot`: Where a path leads.
* `Folder.walk`: A walk up to the first link.
* `Folder.trace`: Walks, each from the link that ended the one before.
* `Store.locate`: Where a path leads in a store.
* `Store.isDirectory`, `Store.fileAt`, `Store.isFile`: What is there.
-/

namespace Codemod

/-- Where a path leads. -/
inductive Spot
  | directory (place : Place)
  | file (place : Place) (name : Name) (id : FileId)
  /-- A link, with the steps that remain behind it. -/
  | link (place : Place) (name : Name) (target : Path) (rest : List Step)
  /-- No entry, in a directory where there could be one. -/
  | missing (place : Place) (name : Name)

def maxNameBytes : Nat := 255

def maxPathBytes : Nat := 4095

/-- The number of links that locating a path may follow. -/
def maxLinks : Nat := 40

/-- Walks to the end of the steps or to the first link. -/
def Folder.walk (top : Folder) (place : Place) : List Step → Except OsError Spot
  | [] => .ok (.directory place)
  | .stay :: rest => top.walk place rest
  | .up :: rest => top.walk place.dropLast rest
  | .down n :: rest =>
    if maxNameBytes < n.bytes.length then .error .nameTooLong
    else
      match (top.at? place).bind (Folder.find? n) with
      | none => if rest = [] then .ok (.missing place n) else .error .notFound
      | some (.file id) => if rest = [] then .ok (.file place n id) else .error .notDirectory
      | some (.link target) => .ok (.link place n target rest)
      | some (.directory _) => top.walk (place ++ [n]) rest

/-- The place that a path starts from. -/
def Path.origin (p : Path) (here : Place) : Place := if p.isAbsolute then [] else here

/-- Walks on through links, `links` of them at most. Unless `followLast` is
    set, a link at the very end is where the path leads. -/
def Folder.trace (top : Folder) (followLast : Bool) (links : Nat) (place : Place)
    (steps : List Step) : Except OsError Spot :=
  match top.walk place steps with
  | .ok (.link place n target rest) =>
    if rest = [] ∧ followLast = false then .ok (.link place n target rest)
    else
      match links with
      | 0 => .error .tooManyLinks
      | k + 1 => top.trace followLast k (target.origin place) (target.steps ++ rest)
  | result => result

/-- Why a path cannot even be looked up, if it cannot. -/
def Path.defect? (p : Path) : Option OsError :=
  if 0x00 ∈ p.bytes then some .nulInPath
  else if p.bytes = [] then some .notFound
  else if maxPathBytes < p.byteLength then some .nameTooLong
  else none

namespace Store

/-- Where a path leads. -/
def locate (s : Store) (followLast : Bool) (p : Path) : Except OsError Spot :=
  match p.defect? with
  | some e => .error e
  | none => s.top.trace followLast maxLinks (p.origin s.here) p.steps

def isDirectory (s : Store) (p : Path) : Bool :=
  match s.locate true p with
  | .ok (.directory _) => true
  | _ => false

/-- The regular file that a path leads to. -/
def fileAt (s : Store) (p : Path) : Except OsError FileId :=
  match s.locate true p with
  | .error e => .error e
  | .ok (.file _ _ id) => .ok id
  | .ok (.directory _) => .error .isDirectory
  | .ok _ => .error .notFound

def isFile (s : Store) (p : Path) : Bool := (s.fileAt p).isOk

end Store

end Codemod
