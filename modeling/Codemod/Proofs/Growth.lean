import Codemod.Proofs.ListedPaths
import Codemod.Store.Edit

/-!
# Stores that Grow

What a store shows of itself after files and directories were added to it.

Nothing that a store has is moved or taken away when something is added, so a
path that leads somewhere goes on leading there. Only a path that came to
nothing may lead somewhere afterwards, and it need not lead to what was added:
a link through a directory that did not exist comes to life with the directory.

A search therefore finds all that it found before, in the same order, and what
it finds in addition stands in between. How much that is can be told from the
numbers of what it finds.

Directories that are made with their parents are made one by one, and whether
the last of them can be made or not, those before it stay. Files and directories
are the only things that a run adds.

## Main definitions

* `Folder.Grows`, `Entry.Grows`: Files and directories were added.
* `Store.GrowsTo`: The same of a store.

## Theorems

* `Store.GrowsTo.fileAt`, `Store.GrowsTo.isDirectory`: Paths that lead
  somewhere.
* `Store.GrowsTo.sourceFiles`: What a search finds.
* `Store.growsTo_makeDirectories`, `Store.growsTo_create`: Making directories and
  files.
-/

namespace Codemod

/-- Files and directories were added to a folder or further down in it. -/
inductive Folder.Grows : Folder → Folder → Prop
  | empty : Grows .empty .empty
  | file (n : Name) (id : FileId) {d d' : Folder} (h : Grows d d') :
    Grows (.file n id d) (.file n id d')
  | link (n : Name) (target : Path) {d d' : Folder} (h : Grows d d') :
    Grows (.link n target d) (.link n target d')
  | directory (n : Name) {e e' d d' : Folder} (he : Grows e e') (h : Grows d d') :
    Grows (.directory n e d) (.directory n e' d')
  | newFile (n : Name) (id : FileId) {d d' : Folder} (h : Grows d d') : Grows d (.file n id d')
  | newDirectory (n : Name) (e : Folder) {d d' : Folder} (h : Grows d d') :
    Grows d (.directory n e d')

/-- What a name stands for is the same kind of entry, perhaps with more in it. -/
inductive Entry.Grows : Entry → Entry → Prop
  | file (id : FileId) : Grows (.file id) (.file id)
  | link (target : Path) : Grows (.link target) (.link target)
  | directory {d d' : Folder} (h : d.Grows d') : Grows (.directory d) (.directory d')

namespace Folder

theorem Grows.refl (d : Folder) : d.Grows d := by
  induction d with
  | empty => exact .empty
  | file n id _ ih => exact .file n id ih
  | link n target _ ih => exact .link n target ih
  | directory n _ _ ihe ih => exact .directory n ihe ih

theorem Grows.trans {d d' d'' : Folder} (h : d.Grows d') (h' : d'.Grows d'') : d.Grows d'' := by
  induction h' generalizing d with
  | empty => exact h
  | file n id _ ih =>
      cases h with
      | file _ _ h => exact .file n id (ih h)
      | newFile _ _ h => exact .newFile n id (ih h)
  | link n target _ ih =>
      cases h with
      | link _ _ h => exact .link n target (ih h)
  | directory n _ _ ihe ih =>
      cases h with
      | directory _ he h => exact .directory n (ihe he) (ih h)
      | newDirectory _ _ h => exact .newDirectory n _ (ih h)
  | newFile n id _ ih => exact .newFile n id (ih h)
  | newDirectory n e _ ih => exact .newDirectory n e (ih h)

/-! ## Looking up names -/

theorem Grows.find? {d d' : Folder} (h : d.Grows d') (hd' : d'.Ordered) {n : Name} {e : Entry}
    (hn : d.find? n = some e) : ∃ e', d'.find? n = some e' ∧ e.Grows e' := by
  induction h with
  | empty => cases hn
  | file m id _ ih =>
      rw [Folder.find?] at hn ⊢
      split at hn
      · cases hn
        exact ⟨_, if_pos ‹_›, .file id⟩
      · rw [if_neg ‹_›]
        exact ih hd'.2 hn
  | link m target _ ih =>
      rw [Folder.find?] at hn ⊢
      split at hn
      · cases hn
        exact ⟨_, if_pos ‹_›, .link target⟩
      · rw [if_neg ‹_›]
        exact ih hd'.2 hn
  | directory m he _ _ ih =>
      rw [Folder.find?] at hn ⊢
      split at hn
      · cases hn
        exact ⟨_, if_pos ‹_›, .directory he⟩
      · rw [if_neg ‹_›]
        exact ih hd'.2.2 hn
  -- A new name is not one that was there, since names are held once.
  | newFile m id _ ih =>
      rcases ih hd'.2 hn with ⟨e', he', hgrows⟩
      exact ⟨e', (find?_cons_eq_some_iff (e := .file id) hd'.1).2 (.inr he'), hgrows⟩
  | newDirectory m f _ ih =>
      rcases ih hd'.2.2 hn with ⟨e', he', hgrows⟩
      exact ⟨e', (find?_cons_eq_some_iff (e := .directory f) hd'.1).2 (.inr he'), hgrows⟩

theorem Grows.at? {d d' : Folder} (h : d.Grows d') (hd' : d'.Ordered) {ns : List Name}
    {f : Folder} (hf : d.at? ns = some f) : ∃ f', d'.at? ns = some f' ∧ f.Grows f' := by
  induction ns generalizing d d' with
  | nil =>
      cases hf
      exact ⟨d', rfl, h⟩
  | cons n ns ih =>
      rw [Folder.at?] at hf
      split at hf
      · rename_i hn
        rcases h.find? hd' hn with ⟨e', hn', hgrows⟩
        cases hgrows with
        | directory hentries =>
            rw [Folder.at?, hn']
            exact ih hentries (ordered_of_find? hd' hn') hf
      · cases hf

/-! ## Adding an entry -/

theorem Grows.new {e : Entry} (he : ∀ target, e ≠ .link target) (n : Name) {d d' : Folder}
    (h : d.Grows d') : d.Grows (cons n e d') := by
  cases e with
  | file id => exact .newFile n id h
  | link target => exact absurd rfl (he target)
  | directory entries => exact .newDirectory n entries h

theorem grows_put {e : Entry} (he : ∀ target, e ≠ .link target) {n : Name} {d : Folder}
    (hn : d.find? n = none) : d.Grows (d.put n e) := by
  induction d with
  | empty => exact .new he n .empty
  | file m id rest ih =>
      rw [Folder.find?] at hn
      split at hn
      · cases hn
      · rw [put]
        split
        · exact .new he n (.refl _)
        · rw [if_neg (Ne.symm ‹_›)]
          exact .file m id (ih hn)
  | link m target rest ih =>
      rw [Folder.find?] at hn
      split at hn
      · cases hn
      · rw [put]
        split
        · exact .new he n (.refl _)
        · rw [if_neg (Ne.symm ‹_›)]
          exact .link m target (ih hn)
  | directory m entries rest _ ih =>
      rw [Folder.find?] at hn
      split at hn
      · cases hn
      · rw [put]
        split
        · exact .new he n (.refl _)
        · rw [if_neg (Ne.symm ‹_›)]
          exact .directory m (.refl entries) (ih hn)

theorem grows_modifyAt {f : Folder → Folder} {ns : List Name} {d : Folder} (hd : d.Ordered)
    (hf : ∀ x, d.at? ns = some x → x.Grows (f x)) : d.Grows (d.modifyAt f ns) := by
  induction d generalizing ns with
  | empty =>
      cases ns with
      | nil => exact hf _ rfl
      | cons n ns => exact .empty
  | file m id rest ih =>
      cases ns with
      | nil => exact hf _ rfl
      | cons n ns =>
          refine .file m id (ih hd.2 fun x hx => hf x ?_)
          exact (at?_cons_eq_some_iff (e := .file id) hd.1).2 (.inr hx)
  | link m target rest ih =>
      cases ns with
      | nil => exact hf _ rfl
      | cons n ns =>
          refine .link m target (ih hd.2 fun x hx => hf x ?_)
          exact (at?_cons_eq_some_iff (e := .link target) hd.1).2 (.inr hx)
  | directory m entries rest ihe ih =>
      cases ns with
      | nil => exact hf _ rfl
      | cons n ns =>
          rw [modifyAt]
          split
          · rename_i hm
            refine .directory m (ihe hd.2.1 fun x hx => hf x ?_) (.refl rest)
            exact (at?_cons_eq_some_iff (e := .directory entries) hd.1).2
              (.inl ⟨hm.symm, entries, rfl, hx⟩)
          · refine .directory m (.refl entries) (ih hd.2.2 fun x hx => hf x ?_)
            exact (at?_cons_eq_some_iff (e := .directory entries) hd.1).2 (.inr hx)

end Folder

/-! ## Walking -/

/-- A path comes to nothing: there is no entry under its last name, or none to
    go on from. -/
def ComesToNothing : Except OsError Spot → Prop
  | .ok (.missing _ _) => True
  | .error .notFound => True
  | _ => False

namespace Folder

variable {top top' : Folder}

theorem Grows.lookup (h : top.Grows top') (ht : top'.Ordered) {place : Place} {n : Name}
    {e : Entry} (he : (top.at? place).bind (Folder.find? n) = some e) :
    ∃ e', (top'.at? place).bind (Folder.find? n) = some e' ∧ e.Grows e' := by
  rcases Option.bind_eq_some_iff.1 he with ⟨d, hat, hn⟩
  rcases h.at? ht hat with ⟨d', hat', hd⟩
  rcases hd.find? (ordered_of_at? ht hat') hn with ⟨e', hn', hgrows⟩
  exact ⟨e', Option.bind_eq_some_iff.2 ⟨d', hat', hn'⟩, hgrows⟩

theorem Grows.walk (h : top.Grows top') (ht : top'.Ordered) {place : Place} {steps : List Step}
    (hsome : ¬ComesToNothing (top.walk place steps)) :
    top'.walk place steps = top.walk place steps := by
  induction steps generalizing place with
  | nil => rfl
  | cons step rest ih =>
      cases step with
      | stay => exact ih hsome
      | up => exact ih hsome
      | down n =>
          rw [Folder.walk] at hsome ⊢
          rw [Folder.walk]
          split
          · rfl
          · rename_i hlong
            rw [if_neg hlong] at hsome
            cases he : (top.at? place).bind (Folder.find? n) with
            | none =>
                rw [he] at hsome
                simp only [] at hsome
                split at hsome <;> exact absurd trivial hsome
            | some e =>
                rcases h.lookup ht he with ⟨e', he', hgrows⟩
                rw [he] at hsome
                rw [he']
                cases hgrows with
                | file id => rfl
                | link target => rfl
                | directory hd => exact ih hsome

theorem comesToNothing_trace {followLast : Bool} {links : Nat} {place : Place}
    {steps : List Step} (h : ComesToNothing (top.walk place steps)) :
    ComesToNothing (top.trace followLast links place steps) := by
  rw [trace_of_no_link top followLast links fun p n t r e => by rw [e] at h; cases h]
  exact h

theorem Grows.trace (h : top.Grows top') (ht : top'.Ordered) {followLast : Bool} {links : Nat}
    {place : Place} {steps : List Step}
    (hsome : ¬ComesToNothing (top.trace followLast links place steps)) :
    top'.trace followLast links place steps = top.trace followLast links place steps := by
  induction links generalizing place steps with
  | zero =>
      have hwalk := h.walk ht (mt comesToNothing_trace hsome)
      rw [Folder.trace.eq_def, Folder.trace.eq_def top, hwalk]
  | succ k ih =>
      have hwalk := h.walk ht (mt comesToNothing_trace hsome)
      rw [Folder.trace.eq_def] at hsome ⊢
      rw [Folder.trace.eq_def, hwalk]
      split
      · rename_i hw
        simp only [hw] at hsome
        split
        · rfl
        · rename_i hend
          rw [if_neg hend] at hsome
          exact ih hsome
      · rfl

end Folder

/-! ## Stores -/

/-- Files and directories were added to a store. -/
structure Store.GrowsTo (s s' : Store) : Prop where
  top : s.top.Grows s'.top
  here : s'.here = s.here

namespace Store

variable {s s' s'' : Store}

theorem GrowsTo.refl (s : Store) : s.GrowsTo s := ⟨.refl s.top, rfl⟩

theorem GrowsTo.trans (h : s.GrowsTo s') (h' : s'.GrowsTo s'') : s.GrowsTo s'' :=
  ⟨h.top.trans h'.top, h'.here.trans h.here⟩

theorem GrowsTo.locate (h : s.GrowsTo s') {followLast : Bool} {p : Path}
    (hsome : ¬ComesToNothing (s.locate followLast p)) :
    s'.locate followLast p = s.locate followLast p := by
  rw [Store.locate] at hsome ⊢
  rw [Store.locate, h.here]
  split
  · rfl
  · rename_i hdefect
    simp only [hdefect] at hsome
    exact h.top.trace s'.ordered hsome

theorem fileAt_of_comesToNothing {p : Path} (h : ComesToNothing (s.locate true p)) :
    s.fileAt p = .error .notFound := by
  rw [Store.fileAt]
  revert h
  rcases s.locate true p with e | spot
  · cases e <;> simp [ComesToNothing]
  · cases spot <;> simp [ComesToNothing]

/-- Where a path leads to a file or to an obstacle, it goes on doing so. -/
theorem GrowsTo.fileAt (h : s.GrowsTo s') {p : Path} (hsome : s.fileAt p ≠ .error .notFound) :
    s'.fileAt p = s.fileAt p := by
  rw [Store.fileAt, Store.fileAt, h.locate (mt fileAt_of_comesToNothing hsome)]

theorem GrowsTo.isFile (h : s.GrowsTo s') {p : Path} (hp : s.isFile p = true) :
    s'.isFile p = true := by
  rw [Store.isFile] at hp ⊢
  rw [h.fileAt fun e => by rw [e] at hp; cases hp]
  exact hp

theorem GrowsTo.locate_directory (h : s.GrowsTo s') {p : Path} {place : Place}
    (hp : s.locate true p = .ok (.directory place)) :
    s'.locate true p = .ok (.directory place) := by
  rw [h.locate fun hnothing => by rw [hp] at hnothing; cases hnothing]
  exact hp

theorem GrowsTo.isDirectory (h : s.GrowsTo s') {p : Path} (hp : s.isDirectory p = true) :
    s'.isDirectory p = true := by
  rcases isDirectory_iff.1 hp with ⟨place, hplace⟩
  exact isDirectory_iff.2 ⟨place, h.locate_directory hplace⟩

/-! ## Searching -/

-- The induction is on how the folder grew: what is new is found in between.
theorem GrowsTo.searchFolder (h : s.GrowsTo s') {dir : Path} {d d' : Folder} (hd : d.Grows d') :
    (s.searchFolder dir d).Sublist (s'.searchFolder dir d') := by
  induction hd generalizing dir with
  | empty => exact .refl _
  | file n id _ ih => exact ih.cons_cons _
  | link n target _ ih =>
      rw [Store.searchFolder, Store.searchFolder]
      split
      · rw [if_pos (h.isFile ‹_›)]
        exact ih.cons_cons _
      · split
        · exact ih.cons _
        · exact ih
  | directory n _ _ ihe ih =>
      rw [Store.searchFolder, Store.searchFolder]
      split
      · exact (List.Sublist.refl _).append ih
      · exact ihe.append ih
  | newFile n id _ ih => exact ih.cons _
  | newDirectory n e _ ih => exact ih.trans (List.sublist_append_right _ _)

/-- A search finds what it found before, in the same order. -/
theorem GrowsTo.search (h : s.GrowsTo s') {c : Config} (hdir : s.isDirectory c.searchDir = true) :
    (s.search c.searchDir).Sublist (s'.search c.searchDir) := by
  rcases isDirectory_iff.1 hdir with ⟨place, hplace⟩
  rw [search_of_locate hplace, search_of_locate (h.locate_directory hplace)]
  cases hat : s.top.at? place with
  | none => exact List.nil_sublist _
  | some d =>
      rcases h.top.at? s'.ordered hat with ⟨d', hat', hd⟩
      rw [hat', Option.getD_some, Option.getD_some]
      exact h.searchFolder hd

theorem GrowsTo.sourceFiles (h : s.GrowsTo s') {c : Config}
    (hdir : s.isDirectory c.searchDir = true) :
    (s.sourceFiles c).1.Sublist (s'.sourceFiles c).1 ∧
      (s.sourceFiles c).2.Sublist (s'.sourceFiles c).2 :=
  ⟨((h.search hdir).filterMap _).filter _, (h.search hdir).filterMap _⟩

end Store

/-! ## Changing a store -/

namespace Folder

variable {top : Folder}

-- Where a path leads to no entry, there is none.
theorem find?_of_walk_missing {place p : Place} {steps : List Step} {n : Name}
    (h : top.walk place steps = .ok (.missing p n)) : (top.at? p).bind (Folder.find? n) = none := by
  induction steps generalizing place with
  | nil => cases h
  | cons step rest ih =>
      cases step with
      | stay => exact ih h
      | up => exact ih h
      | down m =>
          rw [walk] at h
          split at h
          · cases h
          · split at h
            · split at h
              · cases h
                assumption
              · cases h
            · split at h <;> cases h
            · cases h
            · exact ih h

theorem find?_of_trace_missing {followLast : Bool} {links : Nat} {place p : Place}
    {steps : List Step} {n : Name}
    (h : top.trace followLast links place steps = .ok (.missing p n)) :
    (top.at? p).bind (Folder.find? n) = none := by
  induction links generalizing place steps with
  | zero =>
      rw [trace.eq_def] at h
      split at h
      · split at h <;> cases h
      · exact find?_of_walk_missing h
  | succ k ih =>
      rw [trace.eq_def] at h
      split at h
      · split at h
        · cases h
        · exact ih h
      · exact find?_of_walk_missing h

end Folder

namespace Store

variable {s s' : Store} {p : Path}

theorem find?_of_locate_missing {followLast : Bool} {place : Place} {n : Name}
    (h : s.locate followLast p = .ok (.missing place n)) :
    (s.top.at? place).bind (Folder.find? n) = none := by
  rw [locate] at h
  split at h
  · cases h
  · exact Folder.find?_of_trace_missing h

theorem growsTo_enter {place : Place} {n : Name} {e : Entry} (he : ∀ target, e ≠ .link target)
    (hordered : e.Ordered) (hn : (s.top.at? place).bind (Folder.find? n) = none) :
    s.GrowsTo (s.enter place n e hordered) := by
  refine ⟨Folder.grows_modifyAt s.ordered fun d hd => Folder.grows_put he ?_, rfl⟩
  rw [hd] at hn
  exact hn

theorem growsTo_makeDirectory (h : s.makeDirectory p = .ok s') :
    s.GrowsTo s' ∧ s'.bytes = s.bytes ∧ s'.access = s.access := by
  rw [makeDirectory] at h
  split at h
  · cases h
  · rename_i hmissing
    cases h
    exact ⟨growsTo_enter (fun _ => by simp) _ (find?_of_locate_missing hmissing), rfl, rfl⟩
  · cases h

/-- The directories that were made stay, also when a later one cannot be
    made. -/
theorem growsTo_makeDirectories (s : Store) (p : Path) :
    s.GrowsTo (s.makeDirectories p).1 ∧ (s.makeDirectories p).1.bytes = s.bytes ∧
      (s.makeDirectories p).1.access = s.access := by
  fun_induction makeDirectories s p with
  | case1 => exact ⟨.refl s, rfl, rfl⟩
  | case2 _ _ made hmade => exact growsTo_makeDirectory hmade
  | case3 => exact ⟨.refl s, rfl, rfl⟩
  | case4 _ _ _ _ _ under e hunder ih =>
      rw [hunder] at ih
      exact ih
  | case5 _ _ _ _ _ under hunder made hmade ih =>
      rw [hunder] at ih
      rcases growsTo_makeDirectory hmade with ⟨hgrows, hbytes, haccess⟩
      exact ⟨ih.1.trans hgrows, hbytes.trans ih.2.1, haccess.trans ih.2.2⟩
  | case6 _ _ _ _ _ under hunder _ _ ih =>
      rw [hunder] at ih
      exact ih
  | case7 => exact ⟨.refl s, rfl, rfl⟩

theorem growsTo_create {id : FileId} (h : s.create p = .ok (id, s')) :
    s.GrowsTo s' ∧ (∀ i, i ≠ id → s'.bytes i = s.bytes i) ∧
      ∀ i, i ≠ id → s'.access i = s.access i := by
  rw [create] at h
  split at h
  · cases h
  · split at h <;> cases h
    exact ⟨⟨.refl s.top, rfl⟩, fun i hi => if_neg hi, fun _ _ => rfl⟩
  · rename_i hmissing
    cases h
    have hgrows := growsTo_enter (e := .file s.top.freshId) (fun _ => by simp) trivial
      (find?_of_locate_missing hmissing)
    exact ⟨⟨hgrows.top, hgrows.here⟩, fun i hi => if_neg hi, fun i hi => if_neg hi⟩
  · cases h

end Store

end Codemod
