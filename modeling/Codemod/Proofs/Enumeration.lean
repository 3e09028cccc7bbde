import Codemod.Proofs.Components
import Codemod.Search

/-!
# What a Search Lists

The files that a search finds, read off the tree it searches.

A search goes down through real directories and lists what it meets under the
names of their entries, so a listed path is the search directory with names
behind it. All of these names but the last lead through directories of the tree
itself. What the last one names is a regular file, or a link that leads to one.
Nothing else is listed, nothing is listed twice, and links play no part in where
the search goes, whatever they point at.

In each directory the entries come in the order of their names, so the list is
in the order in which its paths compare component by component. Both facts rest
on the order of the folders: a name that a folder holds is held once, and all
names behind it are greater.

A directory is opened by its path, which the system refuses when it is too long.
What lies below such a directory is not listed, and the search reports an error.

## Main definitions

* `Found.path`: The path of what a search comes upon.
* `Store.CountsAsFile`: Which entries are listed.
* `Store.ListedBelow`: Which paths are listed below a directory.
* `Store.folderBelow?`: The folders below the search directory.
* `Store.IsSource`: Which paths a search is after.

## Theorems

* `Store.mem_searchFolder_iff`: What a search of a folder finds.
* `Store.exists_unreadable_iff`: When it comes upon a directory that it cannot
  open.
* `Store.pairwise_path_searchFolder`, `Store.pairwise_searchFolder`: The order of
  what it finds.
* `sourceFiles_exact`: What a search lists.
* `sourceFiles_among_links`: A search among links.
-/

namespace Codemod

/-! ## Names in a folder -/

namespace Folder

variable {k : Name} {e : Entry} {rest : Folder}

theorem find?_cons (n : Name) :
    (cons k e rest).find? n = if k = n then some e else rest.find? n := by
  cases e <;> rfl

theorem mem_names_of_find? {n : Name} {d : Folder} (h : d.find? n = some e) : n ∈ d.names := by
  induction d with
  | empty => cases h
  | file m id rest ih | link m target rest ih | directory m entries rest _ ih =>
      rw [find?] at h
      split at h
      · rename_i hm
        rw [hm]
        exact List.mem_cons_self
      · exact List.mem_cons_of_mem m (ih h)

theorem mem_names_of_at? {n : Name} {ns : List Name} {d f : Folder}
    (h : d.at? (n :: ns) = some f) : n ∈ d.names := by
  rw [at?] at h
  split at h
  · rename_i hfind
    exact mem_names_of_find? hfind
  · cases h

-- A name is held once, since all names behind it are greater.
theorem find?_cons_eq_some_iff (hk : ∀ m ∈ rest.names, k < m) {n : Name} {x : Entry} :
    (cons k e rest).find? n = some x ↔ (n = k ∧ x = e) ∨ rest.find? n = some x := by
  rw [find?_cons]
  split
  · rename_i hn
    have hnone : ¬rest.find? n = some x := fun h =>
      Name.lt_irrefl k (hk k (hn ▸ mem_names_of_find? h))
    rw [Option.some.injEq, or_iff_left hnone, and_iff_right hn.symm]
    exact eq_comm
  · rename_i hn
    rw [or_iff_right fun h => hn h.1.symm]

theorem at?_cons_eq_some_iff (hk : ∀ m ∈ rest.names, k < m) {n : Name} {ns : List Name}
    {f : Folder} :
    (cons k e rest).at? (n :: ns) = some f ↔
      (n = k ∧ ∃ entries, e = .directory entries ∧ entries.at? ns = some f) ∨
        rest.at? (n :: ns) = some f := by
  by_cases hn : k = n
  · have hnone : ¬rest.at? (n :: ns) = some f := fun h =>
      Name.lt_irrefl k (hk k (hn ▸ mem_names_of_at? h))
    rw [or_iff_left hnone, and_iff_right hn.symm, at?, find?_cons, if_pos hn]
    cases e <;> simp
  · rw [or_iff_right fun h => hn h.1.symm, at?, at?, find?_cons, if_neg hn]

theorem at?_append (ns ms : List Name) (d : Folder) :
    d.at? (ns ++ ms) = (d.at? ns).bind (at? ms) := by
  induction ns generalizing d with
  | nil => rfl
  | cons n ns ih =>
      rw [List.cons_append, at?, at?]
      split
      · exact ih _
      · rfl

theorem ordered_of_find? {n : Name} {d entries : Folder} (hd : d.Ordered)
    (h : d.find? n = some (.directory entries)) : entries.Ordered := by
  induction d with
  | empty => cases h
  | file m id rest ih | link m target rest ih =>
      rw [find?] at h
      split at h
      · cases h
      · exact ih hd.2 h
  | directory m below rest _ ih =>
      rw [find?] at h
      split at h
      · cases h
        exact hd.2.1
      · exact ih hd.2.2 h

theorem ordered_of_at? {ns : List Name} {d f : Folder} (hd : d.Ordered)
    (h : d.at? ns = some f) : f.Ordered := by
  induction ns generalizing d with
  | nil =>
      cases h
      exact hd
  | cons n ns ih =>
      rw [at?] at h
      split at h
      · rename_i hfind
        exact ih (ordered_of_find? hd hfind) h
      · cases h

/-- Names lead down through directories to the folder that holds an entry. -/
def Holds (d : Folder) (dirs : List Name) (n : Name) (e : Entry) : Prop :=
  ∃ f, d.at? dirs = some f ∧ f.find? n = some e

theorem not_holds_empty (dirs : List Name) (n : Name) (x : Entry) : ¬empty.Holds dirs n x := by
  rintro ⟨f, hf, hn⟩
  cases dirs <;> cases hf
  cases hn

theorem holds_cons_iff (hk : ∀ m ∈ rest.names, k < m) {dirs : List Name} {n : Name} {x : Entry} :
    (cons k e rest).Holds dirs n x ↔
      (dirs = [] ∧ n = k ∧ x = e) ∨
        (∃ entries ms, dirs = k :: ms ∧ e = .directory entries ∧ entries.Holds ms n x) ∨
          rest.Holds dirs n x := by
  unfold Holds
  cases dirs with
  | nil => simp [at?, find?_cons_eq_some_iff hk]
  | cons m ms =>
      simp only [at?_cons_eq_some_iff hk, reduceCtorEq, false_and, false_or, List.cons.injEq]
      constructor
      · rintro ⟨f, ⟨hm, entries, he, hf⟩ | hf, hx⟩
        · exact Or.inl ⟨entries, ms, ⟨hm, rfl⟩, he, f, hf, hx⟩
        · exact Or.inr ⟨f, hf, hx⟩
      · rintro (⟨entries, _, ⟨hm, rfl⟩, he, f, hf, hx⟩ | ⟨f, hf, hx⟩)
        · exact ⟨f, Or.inl ⟨hm, entries, he, hf⟩, hx⟩
        · exact ⟨f, Or.inr hf, hx⟩

end Folder

/-! ## Searching a folder -/

/-- The path of what a search comes upon. -/
def Found.path : Found → Path
  | .file p => p
  | .unreadable p _ => p

theorem Found.path_of_file? {x : Found} {p : Path} (h : x.file? = some p) : x.path = p := by
  cases x with
  | file q => exact Option.some.inj h
  | unreadable q e => cases h

namespace Store

/-- Whether an entry is listed: a regular file, or a link whose path leads to
    one. -/
def CountsAsFile (s : Store) (p : Path) : Entry → Prop
  | .file _ => True
  | .link _ => s.isFile p = true
  | .directory _ => False

/-- Whether a path is listed below the directory `dir` with the folder `d`. -/
def ListedBelow (s : Store) (dir : Path) (d : Folder) (p : Path) : Prop :=
  ∃ dirs n e, d.Holds dirs n e ∧ p = (dir.below dirs).child n ∧ s.CountsAsFile p e ∧
    (dir.below dirs).byteLength ≤ maxPathBytes

variable {s : Store} {dir p : Path}

theorem listedBelow_cons_iff {k : Name} {e : Entry} {rest : Folder}
    (hk : ∀ m ∈ rest.names, k < m) (hdir : dir.byteLength ≤ maxPathBytes) :
    s.ListedBelow dir (.cons k e rest) p ↔
      (p = dir.child k ∧ s.CountsAsFile p e) ∨
        (∃ entries, e = .directory entries ∧ s.ListedBelow (dir.child k) entries p) ∨
          s.ListedBelow dir rest p := by
  constructor
  · rintro ⟨dirs, n, x, hholds, hp, hfile, hopen⟩
    rcases (Folder.holds_cons_iff hk).1 hholds with
      ⟨rfl, rfl, rfl⟩ | ⟨entries, ms, rfl, he, hbelow⟩ | hrest
    · exact Or.inl ⟨hp, hfile⟩
    · exact Or.inr (Or.inl ⟨entries, he, ms, n, x, hbelow, hp, hfile, hopen⟩)
    · exact Or.inr (Or.inr ⟨dirs, n, x, hrest, hp, hfile, hopen⟩)
  · rintro (⟨hp, hfile⟩ | ⟨entries, he, ms, n, x, hbelow, hp, hfile, hopen⟩ |
      ⟨dirs, n, x, hrest, hp, hfile, hopen⟩)
    · exact ⟨[], k, e, (Folder.holds_cons_iff hk).2 (Or.inl ⟨rfl, rfl, rfl⟩), hp, hfile, hdir⟩
    · exact ⟨k :: ms, n, x, (Folder.holds_cons_iff hk).2
        (Or.inr (Or.inl ⟨entries, ms, rfl, he, hbelow⟩)), hp, hfile, hopen⟩
    · exact ⟨dirs, n, x, (Folder.holds_cons_iff hk).2 (Or.inr (Or.inr hrest)), hp, hfile, hopen⟩

/-- A search of a folder finds the files that are listed below it. -/
theorem mem_searchFolder_iff {d : Folder} (hd : d.Ordered)
    (hdir : dir.byteLength ≤ maxPathBytes) :
    Found.file p ∈ s.searchFolder dir d ↔ s.ListedBelow dir d p := by
  induction d generalizing dir with
  | empty =>
      simp only [searchFolder, List.not_mem_nil, false_iff]
      rintro ⟨dirs, n, e, hholds, -⟩
      exact Folder.not_holds_empty dirs n e hholds
  | file k id rest ih =>
      rw [searchFolder, List.mem_cons, ih hd.2 hdir]
      refine Iff.trans ?_ (listedBelow_cons_iff (e := .file id) hd.1 hdir).symm
      simp [CountsAsFile]
  | link k target rest ih =>
      refine Iff.trans ?_ (listedBelow_cons_iff (e := .link target) hd.1 hdir).symm
      have hlink : (p = dir.child k ∧ s.CountsAsFile p (.link target)) ↔
          s.isFile (dir.child k) = true ∧ p = dir.child k :=
        ⟨fun ⟨hp, hfile⟩ => ⟨hp ▸ hfile, hp⟩, fun ⟨hfile, hp⟩ => ⟨hp, hp ▸ hfile⟩⟩
      rw [searchFolder, hlink]
      split
      · rename_i hfile
        simp [ih hd.2 hdir, hfile]
      · rename_i hfile
        simp [ih hd.2 hdir, hfile]
  | directory k entries rest ihe ih =>
      refine Iff.trans ?_ (listedBelow_cons_iff (e := .directory entries) hd.1 hdir).symm
      rw [searchFolder, List.mem_append, ih hd.2.2 hdir]
      simp only [CountsAsFile, and_false, false_or, Entry.directory.injEq, exists_eq_left']
      refine or_congr_left ?_
      split
      · -- The paths of all directories further down are even longer.
        rename_i hlong
        simp only [List.mem_singleton, reduceCtorEq, false_iff]
        rintro ⟨dirs, n, e, -, -, -, hopen⟩
        exact absurd (Nat.le_trans (Path.byteLength_le_below _ dirs) hopen) (Nat.not_le_of_gt hlong)
      · rename_i hopen
        exact ihe hd.2.1 (Nat.le_of_not_gt hopen)

/-- A search of a folder comes upon a directory that cannot be opened exactly when
    the path of some directory below is too long. -/
theorem exists_unreadable_iff {d : Folder} (hd : d.Ordered) :
    (∃ q e, Found.unreadable q e ∈ s.searchFolder dir d) ↔
      ∃ n ns f, d.at? (n :: ns) = some f ∧ maxPathBytes < (dir.below (n :: ns)).byteLength := by
  induction d generalizing dir with
  | empty =>
      refine iff_of_false (fun ⟨_, _, h⟩ => absurd h List.not_mem_nil) ?_
      rintro ⟨n, ns, f, hf, -⟩
      cases hf
  | file k id rest ih =>
      simp only [searchFolder, List.mem_cons, reduceCtorEq, false_or, ih hd.2]
      refine exists₃_congr fun n ns f => and_congr_left fun _ => ?_
      refine Iff.trans ?_ (Folder.at?_cons_eq_some_iff (e := .file id) hd.1).symm
      simp only [reduceCtorEq, false_and, exists_false, and_false, false_or]
  | link k target rest ih =>
      have hfound : ∀ q e, Found.unreadable q e ∈ s.searchFolder dir (.link k target rest) ↔
          Found.unreadable q e ∈ s.searchFolder dir rest := fun q e => by
        rw [searchFolder]
        split
        · simp only [List.mem_cons, reduceCtorEq, false_or]
        · exact Iff.rfl
      simp only [hfound, ih hd.2]
      refine exists₃_congr fun n ns f => and_congr_left fun _ => ?_
      refine Iff.trans ?_ (Folder.at?_cons_eq_some_iff (e := .link target) hd.1).symm
      simp only [reduceCtorEq, false_and, exists_false, and_false, false_or]
  | directory k entries rest ihe ih =>
      have hat : ∀ n ns f, (Folder.directory k entries rest).at? (n :: ns) = some f ↔
          (n = k ∧ entries.at? ns = some f) ∨ rest.at? (n :: ns) = some f := fun n ns f => by
        refine (Folder.at?_cons_eq_some_iff (e := .directory entries) hd.1).trans ?_
        simp only [Entry.directory.injEq, exists_eq_left']
      simp only [searchFolder, List.mem_append, exists_or, ih hd.2.2, hat, or_and_right]
      refine or_congr_left ?_
      split
      · rename_i hlong
        exact iff_of_true ⟨_, _, List.mem_singleton.2 rfl⟩ ⟨k, [], entries, ⟨rfl, rfl⟩, hlong⟩
      · rename_i hopen
        rw [ihe hd.2.1]
        constructor
        · rintro ⟨n, ns, f, hf, hlong⟩
          exact ⟨k, n :: ns, f, ⟨rfl, hf⟩, hlong⟩
        · rintro ⟨n, _ | ⟨m, ns⟩, f, ⟨rfl, hf⟩, hlong⟩
          · exact absurd hlong hopen
          · exact ⟨m, ns, f, hf, hlong⟩

theorem mem_filterMap_file? {found : List Found} :
    p ∈ found.filterMap Found.file? ↔ Found.file p ∈ found := by
  rw [List.mem_filterMap]
  constructor
  · rintro ⟨x, hx, hp⟩
    cases x with
    | file q => exact Option.some.inj hp ▸ hx
    | unreadable q e => cases hp
  · exact fun h => ⟨_, h, rfl⟩

theorem exists_below_of_mem_searchFolder {d : Folder} {x : Found}
    (h : x ∈ s.searchFolder dir d) : ∃ n ∈ d.names, ∃ ns, x.path = (dir.child n).below ns := by
  induction d generalizing dir with
  | empty => cases h
  | file k id rest ih =>
      rcases List.mem_cons.1 h with rfl | h
      · exact ⟨k, List.mem_cons_self, [], rfl⟩
      · exact (ih h).imp fun n => And.imp_left (List.mem_cons_of_mem k)
  | link k target rest ih =>
      rw [searchFolder] at h
      split at h
      · rcases List.mem_cons.1 h with rfl | h
        · exact ⟨k, List.mem_cons_self, [], rfl⟩
        · exact (ih h).imp fun n => And.imp_left (List.mem_cons_of_mem k)
      · exact (ih h).imp fun n => And.imp_left (List.mem_cons_of_mem k)
  | directory k entries rest ihe ih =>
      rw [searchFolder, List.mem_append] at h
      rcases h with h | h
      · split at h
        · obtain rfl := List.mem_singleton.1 h
          exact ⟨k, List.mem_cons_self, [], rfl⟩
        · rcases ihe h with ⟨n, -, ns, hx⟩
          exact ⟨k, List.mem_cons_self, n :: ns, hx⟩
      · exact (ih h).imp fun n => And.imp_left (List.mem_cons_of_mem k)

-- What is found under one name comes before all that is found under greater ones.
theorem pairwise_append_searchFolder {k : Name} {rest : Folder} {xs : List Found}
    (hk : ∀ m ∈ rest.names, k < m)
    (hxs : xs.Pairwise fun x y => x.path.sortKey < y.path.sortKey)
    (hbelow : ∀ x ∈ xs, ∃ ns, x.path = (dir.child k).below ns)
    (hrest : (s.searchFolder dir rest).Pairwise fun x y => x.path.sortKey < y.path.sortKey) :
    (xs ++ s.searchFolder dir rest).Pairwise fun x y => x.path.sortKey < y.path.sortKey := by
  refine List.pairwise_append.2 ⟨hxs, hrest, fun x hx y hy => ?_⟩
  rcases hbelow x hx with ⟨ns, hns⟩
  rcases exists_below_of_mem_searchFolder hy with ⟨m, hm, ms, hms⟩
  rw [hns, hms]
  exact Path.sortKey_below_lt dir (hk m hm) ns ms

/-- A search of a folder comes upon things in the order of their paths. -/
theorem pairwise_path_searchFolder {d : Folder} (hd : d.Ordered) :
    (s.searchFolder dir d).Pairwise fun x y => x.path.sortKey < y.path.sortKey := by
  -- A single thing is in order, and it is below its own name.
  have hone : ∀ (dir : Path) (x : Found) (n : Name), x.path = dir.child n →
      ∀ y ∈ [x], ∃ ns, y.path = (dir.child n).below ns :=
    fun dir x n hx y hy => ⟨[], List.mem_singleton.1 hy ▸ hx⟩
  induction d generalizing dir with
  | empty => exact List.Pairwise.nil
  | file k id rest ih =>
      exact pairwise_append_searchFolder hd.1 (List.pairwise_singleton _ _) (hone dir _ k rfl)
        (ih hd.2)
  | link k target rest ih =>
      rw [searchFolder]
      split
      · exact pairwise_append_searchFolder hd.1 (List.pairwise_singleton _ _) (hone dir _ k rfl)
          (ih hd.2)
      · exact ih hd.2
  | directory k entries rest ihe ih =>
      rw [searchFolder]
      split
      · exact pairwise_append_searchFolder hd.1 (List.pairwise_singleton _ _) (hone dir _ k rfl)
          (ih hd.2.2)
      · refine pairwise_append_searchFolder hd.1 (ihe hd.2.1) (fun x hx => ?_) (ih hd.2.2)
        rcases exists_below_of_mem_searchFolder hx with ⟨n, -, ns, hns⟩
        exact ⟨n :: ns, hns⟩

/-- The order in which a search of a folder finds files is that of their paths. -/
theorem pairwise_searchFolder {d : Folder} (hd : d.Ordered) :
    ((s.searchFolder dir d).filterMap Found.file?).Pairwise
      fun p q => p.sortKey < q.sortKey := by
  refine (pairwise_path_searchFolder hd).filterMap _ fun x y hlt p hp q hq => ?_
  rw [← Found.path_of_file? hp, ← Found.path_of_file? hq]
  exact hlt

/-! ## Searching from the search directory -/

/-- The folder that names lead down to from the search directory, through real
    directories only. -/
def folderBelow? (s : Store) (c : Config) (dirs : List Name) : Option Folder :=
  match s.locate true c.searchDir with
  | .ok (.directory place) => s.top.at? (place ++ dirs)
  | _ => none

/-- Whether a search is after the entry `n` of the directory that `dirs` lead down
    to: it counts as a file, and its name has a stem, a dot and the extension. -/
def IsSource (s : Store) (c : Config) (dirs : List Name) (n : Name) : Prop :=
  ∃ d e, s.folderBelow? c dirs = some d ∧ d.find? n = some e ∧
    s.CountsAsFile ((c.searchDir.below dirs).child n) e ∧
    ∃ stem, stem ≠ [] ∧ n.bytes = stem ++ dotByte :: Text.bytes c.extension.toList ∧
      dotByte ∉ Text.bytes c.extension.toList

theorem isDirectory_iff {s : Store} {p : Path} :
    s.isDirectory p = true ↔ ∃ place, s.locate true p = .ok (.directory place) := by
  rw [isDirectory]
  split
  · rename_i place h
    exact iff_of_true rfl ⟨place, h⟩
  · rename_i h
    exact iff_of_false Bool.false_ne_true fun ⟨place, hp⟩ => h place hp

-- A path that leads anywhere is short enough to be looked up.
theorem byteLength_le_of_locate {s : Store} {followLast : Bool} {p : Path} {spot : Spot}
    (h : s.locate followLast p = .ok spot) : p.byteLength ≤ maxPathBytes := by
  rw [locate] at h
  split at h
  · cases h
  · rename_i hdefect
    refine Nat.le_of_not_gt fun hlong => ?_
    rw [Path.defect?] at hdefect
    split at hdefect
    · cases hdefect
    · split at hdefect <;> cases hdefect

section Located

variable {s : Store} {c : Config} {place : Place}

-- The folder that a search starts from. There is none only if the directory is
-- gone, and then there is nothing to find.
theorem ordered_located (s : Store) (place : Place) :
    ((s.top.at? place).getD .empty).Ordered := by
  cases h : s.top.at? place with
  | none => exact Folder.ordered_empty
  | some d => exact Folder.ordered_of_at? s.ordered h

theorem search_of_locate (hplace : s.locate true c.searchDir = .ok (.directory place)) :
    s.search c.searchDir = s.searchFolder c.searchDir ((s.top.at? place).getD .empty) := by
  rw [search, hplace, searchSpot]

theorem folderBelow?_of_locate (hplace : s.locate true c.searchDir = .ok (.directory place))
    (dirs : List Name) : s.folderBelow? c dirs = (s.top.at? place).bind (Folder.at? dirs) := by
  simp only [folderBelow?, hplace, Folder.at?_append]

theorem holds_located_iff (hplace : s.locate true c.searchDir = .ok (.directory place))
    {dirs : List Name} {n : Name} {e : Entry} :
    ((s.top.at? place).getD .empty).Holds dirs n e ↔
      ∃ d, s.folderBelow? c dirs = some d ∧ d.find? n = some e := by
  rw [folderBelow?_of_locate hplace]
  cases s.top.at? place with
  | none => exact iff_of_false (Folder.not_holds_empty dirs n e) fun ⟨_, h, _⟩ => by cases h
  | some d => exact Iff.rfl

/-- A search lists the paths of the entries that it is after, except below a
    directory that it cannot open. -/
theorem mem_sourceFiles_iff (hplace : s.locate true c.searchDir = .ok (.directory place))
    {p : Path} :
    p ∈ (s.sourceFiles c).1 ↔ ∃ dirs n, p = (c.searchDir.below dirs).child n ∧
      s.IsSource c dirs n ∧ (c.searchDir.below dirs).byteLength ≤ maxPathBytes := by
  rw [sourceFiles, List.mem_filter, mem_filterMap_file?, search_of_locate hplace,
    mem_searchFolder_iff (ordered_located s place) (byteLength_le_of_locate hplace)]
  simp only [ListedBelow, holds_located_iff hplace]
  constructor
  · rintro ⟨⟨dirs, n, e, ⟨d, hd, hn⟩, rfl, hfile, hopen⟩, hext⟩
    exact ⟨dirs, n, rfl, ⟨d, e, hd, hn, hfile,
      Path.extension?_child_eq_some_iff.1 (of_decide_eq_true hext)⟩, hopen⟩
  · rintro ⟨dirs, n, rfl, ⟨d, e, hd, hn, hfile, hext⟩, hopen⟩
    exact ⟨⟨dirs, n, e, ⟨d, hd, hn⟩, rfl, hfile, hopen⟩,
      decide_eq_true (Path.extension?_child_eq_some_iff.2 hext)⟩

/-- A search reports no error exactly when it can open all directories. -/
theorem sourceFiles_errors_eq_nil_iff
    (hplace : s.locate true c.searchDir = .ok (.directory place)) :
    (s.sourceFiles c).2 = [] ↔ ∀ dirs d, s.folderBelow? c dirs = some d →
      (c.searchDir.below dirs).byteLength ≤ maxPathBytes := by
  have hopen := byteLength_le_of_locate hplace
  have hunreadable := @exists_unreadable_iff s c.searchDir _ (ordered_located s place)
  have hnone : (s.sourceFiles c).2 = [] ↔
      ¬∃ q e, Found.unreadable q e ∈ s.search c.searchDir := by
    rw [sourceFiles, List.filterMap_eq_nil_iff]
    constructor
    · rintro h ⟨q, e, hq⟩
      cases h _ hq
    · rintro h (q | ⟨q, e⟩) hq
      · rfl
      · exact absurd ⟨q, e, hq⟩ h
  have hfolder : ∀ n ns, ((s.top.at? place).getD .empty).at? (n :: ns) =
      s.folderBelow? c (n :: ns) := fun n ns => by
    rw [folderBelow?_of_locate hplace]
    cases s.top.at? place <;> rfl
  simp only [hnone, search_of_locate hplace, hunreadable, hfolder]
  constructor
  · intro h dirs d hd
    cases dirs with
    | nil => exact hopen
    | cons n ns => exact Nat.le_of_not_gt fun hlong => h ⟨n, ns, d, hd, hlong⟩
  · rintro h ⟨n, ns, d, hd, hlong⟩
    exact absurd (h (n :: ns) d hd) (Nat.not_le_of_gt hlong)

end Located

end Store

/-- The search lists a path exactly when it is the search directory with names
    behind it, of which all but the last lead through real directories, which can
    be opened, and the last is that of a regular file or of a link to one, and has
    the extension. It lists no path twice, and lists them in the order of their
    components. It reports no error exactly when all directories can be opened. -/
theorem sourceFiles_exact (s : Store) (c : Config) (hdir : s.isDirectory c.searchDir = true) :
    let files := (s.sourceFiles c).1
    (∀ p, p ∈ files ↔ ∃ dirs n, p = (c.searchDir.below dirs).child n ∧ s.IsSource c dirs n ∧
      (c.searchDir.below dirs).byteLength ≤ maxPathBytes) ∧
    files.Nodup ∧ files.Pairwise (fun p q => p.sortKey < q.sortKey) ∧
    ((s.sourceFiles c).2 = [] ↔ ∀ dirs d, s.folderBelow? c dirs = some d →
      (c.searchDir.below dirs).byteLength ≤ maxPathBytes) := by
  rcases Store.isDirectory_iff.1 hdir with ⟨place, hplace⟩
  intro files
  have hpairwise : files.Pairwise fun p q => p.sortKey < q.sortKey := by
    have hfound := @Store.pairwise_searchFolder s c.searchDir _ (s.ordered_located place)
    rw [← Store.search_of_locate hplace] at hfound
    exact hfound.filter _
  have hnodup : files.Nodup := hpairwise.imp fun {p q} hlt e => by
    rw [e] at hlt
    exact List.lt_irrefl _ hlt
  exact ⟨fun p => Store.mem_sourceFiles_iff hplace, hnodup, hpairwise,
    Store.sourceFiles_errors_eq_nil_iff hplace⟩

/-- A directory in which names share beginnings, a directory is called like a
    file, and links lead to a file, to themselves, nowhere and to a directory. -/
def amongLinks : Store where
  top :=
    .directory (.ofString "src" (by decide))
      (.directory (.ofString "m" (by decide))
        (.file (.ofString "z.dart" (by decide)) 1 .empty)
        (.file (.ofString "m.dart" (by decide)) 0
          (.directory (.ofString "n.dart" (by decide))
            (.file (.ofString ".dart" (by decide)) 2
              (.link (.ofString "o.dart" (by decide)) (.ofString "../m.dart") .empty))
            (.link (.ofString "p.dart" (by decide)) (.ofString "p.dart")
              (.link (.ofString "q.dart" (by decide)) (.ofString "nowhere")
                (.link (.ofString "r.dart" (by decide)) (.ofString "m") .empty))))))
      .empty
  ordered := by
    simp [Folder.Ordered, Folder.names]
    decide
  bytes := fun _ => .empty
  here := []

/-- Of all these entries three are listed, the one behind a name that is the
    beginning of another before that other. -/
theorem sourceFiles_among_links :
    let c : Config := ⟨.ofString "/", .ofString "src", "dart", false⟩
    let files := ["/src/m/z.dart", "/src/m.dart", "/src/n.dart/o.dart"].map Path.ofString
    amongLinks.isDirectory c.searchDir = true ∧
      (∀ p, p ∈ files ↔ ∃ dirs n, p = (c.searchDir.below dirs).child n ∧
        amongLinks.IsSource c dirs n ∧ (c.searchDir.below dirs).byteLength ≤ maxPathBytes) ∧
      files.Nodup ∧ files.Pairwise fun p q => p.sortKey < q.sortKey := by
  intro c files
  have hdir : amongLinks.isDirectory c.searchDir = true := by decide +kernel
  have hfiles : (amongLinks.sourceFiles c).1 = files := by decide +kernel
  rcases sourceFiles_exact amongLinks c hdir with ⟨hmem, hnodup, hpairwise, -⟩
  rw [hfiles] at hmem hnodup hpairwise
  exact ⟨hdir, hmem, hnodup, hpairwise⟩

end Codemod
