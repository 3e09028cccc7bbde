import Codemod.Path

/-!
# Folders

The shape of a file store: what directories, files and symbolic links there
are, and how they are called. The bytes of a file are not part of the shape. A
file is known by a number, and whoever keeps the bytes keeps them by that
number, so that writing to a file cannot disturb the shape.

A folder lists the entries of one directory in the order of their names, and a
subdirectory has its own folder in its place in the list. One type serves for
both directions, down into a subdirectory and on to the next entry, which lets
every walk of a tree be a plain recursion.

## Main definitions

* `Folder`: The entries of a directory.
* `Entry`: What a name stands for.
* `Folder.find?`, `Folder.at?`: Looking up names.
* `Folder.put`, `Folder.erase`: Changing the entries of a directory.
* `Folder.modifyAt`: Changing a directory further down.
* `Folder.Ordered`: The order of the entries, all the way down.
* `Folder.freshId`: A number that no file has.

## Theorems

* `Folder.ordered_put`, `Folder.ordered_erase`, `Folder.ordered_modifyAt`:
  Changing entries keeps them in order.
-/

namespace Codemod

/-- The number that a regular file is known by. -/
abbrev FileId := Nat

/-- The entries of a directory, in the order of their names. -/
inductive Folder
  | empty
  | file (name : Name) (id : FileId) (rest : Folder)
  | link (name : Name) (target : Path) (rest : Folder)
  | directory (name : Name) (entries : Folder) (rest : Folder)

/-- What a name in a directory stands for. -/
inductive Entry
  | file (id : FileId)
  | link (target : Path)
  | directory (entries : Folder)

namespace Folder

def cons (name : Name) : Entry → Folder → Folder
  | .file id, rest => .file name id rest
  | .link target, rest => .link name target rest
  | .directory entries, rest => .directory name entries rest

def names : Folder → List Name
  | .empty => []
  | .file n _ rest | .link n _ rest | .directory n _ rest => n :: names rest

def find? (name : Name) : Folder → Option Entry
  | .empty => none
  | .file n id rest => if n = name then some (.file id) else find? name rest
  | .link n target rest => if n = name then some (.link target) else find? name rest
  | .directory n entries rest =>
    if n = name then some (.directory entries) else find? name rest

/-- The folder of a subdirectory, given the names that lead down to it. -/
def at? : List Name → Folder → Option Folder
  | [], d => some d
  | n :: ns, d =>
    match d.find? n with
    | some (.directory entries) => at? ns entries
    | _ => none

/-- Enters a name, in place of the entry that it had. -/
def put (name : Name) (e : Entry) : Folder → Folder
  | .empty => cons name e .empty
  | .file n id rest =>
    if name < n then cons name e (.file n id rest)
    else if name = n then cons name e rest
    else .file n id (put name e rest)
  | .link n target rest =>
    if name < n then cons name e (.link n target rest)
    else if name = n then cons name e rest
    else .link n target (put name e rest)
  | .directory n entries rest =>
    if name < n then cons name e (.directory n entries rest)
    else if name = n then cons name e rest
    else .directory n entries (put name e rest)

def erase (name : Name) : Folder → Folder
  | .empty => .empty
  | .file n id rest => if n = name then rest else .file n id (erase name rest)
  | .link n target rest => if n = name then rest else .link n target (erase name rest)
  | .directory n entries rest =>
    if n = name then rest else .directory n entries (erase name rest)

/-- Changes the folder of a subdirectory, given the names that lead down to
    it. -/
def modifyAt (f : Folder → Folder) : List Name → Folder → Folder
  | [], d => f d
  | _ :: _, .empty => .empty
  | n :: ns, .file m id rest => .file m id (modifyAt f (n :: ns) rest)
  | n :: ns, .link m target rest => .link m target (modifyAt f (n :: ns) rest)
  | n :: ns, .directory m entries rest =>
    if m = n then .directory m (modifyAt f ns entries) rest
    else .directory m entries (modifyAt f (n :: ns) rest)

/-- A number greater than that of any file in the folder or below it. -/
def freshId : Folder → FileId
  | .empty => 0
  | .file _ id rest => max (id + 1) (freshId rest)
  | .link _ _ rest => freshId rest
  | .directory _ entries rest => max (freshId entries) (freshId rest)

/-- The entries have increasing names, in the folder and in every folder below
    it. -/
def Ordered : Folder → Prop
  | .empty => True
  | .file n _ rest | .link n _ rest => (∀ m ∈ rest.names, n < m) ∧ Ordered rest
  | .directory n entries rest =>
    (∀ m ∈ rest.names, n < m) ∧ Ordered entries ∧ Ordered rest

end Folder

/-- The folder that an entry holds, if it holds one, is in order. -/
def Entry.Ordered : Entry → Prop
  | .directory entries => entries.Ordered
  | _ => True

namespace Folder

theorem ordered_empty : Ordered .empty := trivial

theorem names_cons (n : Name) (e : Entry) (d : Folder) : (cons n e d).names = n :: d.names := by
  cases e <;> rfl

theorem ordered_cons {n : Name} {e : Entry} {d : Folder} (he : e.Ordered)
    (hn : ∀ m ∈ d.names, n < m) (hd : d.Ordered) : (cons n e d).Ordered := by
  cases e with
  | file id => exact ⟨hn, hd⟩
  | link target => exact ⟨hn, hd⟩
  | directory entries => exact ⟨hn, he, hd⟩

theorem mem_names_put {n m : Name} {e : Entry} {d : Folder} (h : m ∈ (put n e d).names) :
    m = n ∨ m ∈ d.names := by
  induction d with
  | empty => simpa [put, names_cons, names] using h
  | file k id rest ih | link k target rest ih | directory k entries rest _ ih =>
      simp only [put] at h
      split at h
      · simpa [names_cons] using h
      · split at h
        · simp only [names_cons, names, List.mem_cons] at h ⊢
          exact h.imp_right Or.inr
        · simp only [names, List.mem_cons] at h ⊢
          rcases h with h | h
          · exact Or.inr (Or.inl h)
          · exact (ih h).imp_right Or.inr

/-- A name smaller than the first of an ordered folder is smaller than all of
    them. -/
theorem lt_of_mem_names_front {n k : Name} {d : Folder} (hlt : n < k)
    (hd : ∀ m ∈ d.names, k < m) : ∀ m ∈ k :: d.names, n < m := by
  intro m hm
  rcases List.mem_cons.1 hm with rfl | hm
  · exact hlt
  · exact Name.lt_trans hlt (hd m hm)

/-- An entry put into a folder in order goes between smaller and greater
    names. -/
theorem lt_of_mem_names_put {n k : Name} {e : Entry} {d : Folder} (hlt : ¬n < k) (hne : ¬n = k)
    (hd : ∀ m ∈ d.names, k < m) : ∀ m ∈ (put n e d).names, k < m := by
  intro m hm
  rcases mem_names_put hm with rfl | hm
  · exact (Name.lt_trichotomy k m).resolve_right (fun h => h.elim (hne ·.symm) hlt)
  · exact hd m hm

theorem ordered_put {n : Name} {e : Entry} {d : Folder} (he : e.Ordered) (hd : d.Ordered) :
    (put n e d).Ordered := by
  induction d with
  | empty => exact ordered_cons he (by simp [names]) trivial
  | file k id rest ih | link k target rest ih =>
      simp only [put]
      split
      · exact ordered_cons he (lt_of_mem_names_front ‹_› hd.1) hd
      · split
        -- The new entry takes the place of the old one, so its successors stay.
        · rename_i h
          exact ordered_cons he (h ▸ hd.1) hd.2
        · exact ⟨lt_of_mem_names_put ‹_› ‹_› hd.1, ih hd.2⟩
  | directory k entries rest _ ih =>
      simp only [put]
      split
      · exact ordered_cons he (lt_of_mem_names_front ‹_› hd.1) hd
      · split
        · rename_i h
          exact ordered_cons he (h ▸ hd.1) hd.2.2
        · exact ⟨lt_of_mem_names_put ‹_› ‹_› hd.1, hd.2.1, ih hd.2.2⟩

theorem mem_of_mem_names_erase {n m : Name} {d : Folder} (h : m ∈ (erase n d).names) :
    m ∈ d.names := by
  induction d with
  | empty => exact h
  | file k id rest ih | link k target rest ih | directory k entries rest _ ih =>
      simp only [erase] at h
      split at h
      · exact List.mem_cons_of_mem k h
      · exact (List.mem_cons.1 h).elim (fun e => e ▸ List.mem_cons_self)
          (fun h => List.mem_cons_of_mem k (ih h))

theorem ordered_erase {n : Name} {d : Folder} (hd : d.Ordered) : (erase n d).Ordered := by
  induction d with
  | empty => trivial
  | file k id rest ih | link k target rest ih =>
      simp only [erase]
      split
      · exact hd.2
      · exact ⟨fun m hm => hd.1 m (mem_of_mem_names_erase hm), ih hd.2⟩
  | directory k entries rest _ ih =>
      simp only [erase]
      split
      · exact hd.2.2
      · exact ⟨fun m hm => hd.1 m (mem_of_mem_names_erase hm), hd.2.1, ih hd.2.2⟩

theorem names_modifyAt (f : Folder → Folder) (n : Name) (ns : List Name) (d : Folder) :
    (modifyAt f (n :: ns) d).names = d.names := by
  induction d with
  | empty => rfl
  | file k id rest ih | link k target rest ih => simp only [modifyAt, names, ih]
  | directory k entries rest _ ih =>
      simp only [modifyAt]
      split
      · rfl
      · simp only [names, ih]

theorem ordered_modifyAt {f : Folder → Folder} (hf : ∀ d : Folder, d.Ordered → (f d).Ordered)
    {ns : List Name} {d : Folder} (hd : d.Ordered) : (modifyAt f ns d).Ordered := by
  induction d generalizing ns with
  | empty =>
      cases ns with
      | nil => exact hf _ hd
      | cons n ns => trivial
  | file k id rest ih | link k target rest ih =>
      cases ns with
      | nil => exact hf _ hd
      | cons n ns => exact ⟨names_modifyAt f n ns rest ▸ hd.1, ih hd.2⟩
  | directory k entries rest ihe ih =>
      cases ns with
      | nil => exact hf _ hd
      | cons n ns =>
          simp only [modifyAt]
          split
          -- The change happens inside this subdirectory, which keeps its name.
          · exact ⟨hd.1, ihe hd.2.1, hd.2.2⟩
          · exact ⟨names_modifyAt f n ns rest ▸ hd.1, hd.2.1, ih hd.2.2⟩

end Folder

end Codemod
