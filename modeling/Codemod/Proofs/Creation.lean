import Codemod.Proofs.Growth

/-!
# Creating a File

Where a path leads once a file was created under it.

A file is created where a path comes to nothing at its last name, in a directory
that is there. With the new entry the same walk goes the same way, since nothing
on it has changed, and at the last name it now meets the file. The directory is
there because a walk that starts in a directory stays in directories, links
included. It is the working directory, where a walk may start, of which this has
to be assumed.

## Main definitions

* `Spot.place`: The directory that a path leads to, or into.
* `Store.IsSomewhere`: The working directory is there.

## Theorems

* `Folder.at?_place_of_trace`: A walk stays in directories.
* `Folder.Grows.trace_missing`: A walk to a new file.
* `Store.fileAt_create`: A created file is found under its path.
-/

namespace Codemod

/-- The directory that a path leads to, or the one that holds what it leads to. -/
def Spot.place : Spot → Place
  | .directory place | .file place _ _ | .link place _ _ _ | .missing place _ => place

namespace Folder

variable {top top' d x : Folder} {place : Place} {steps : List Step} {n : Name}

/-! ## Entering a name -/

theorem find?_put_self (n : Name) (e : Entry) (d : Folder) : (d.put n e).find? n = some e := by
  induction d with
  | empty => rw [put, find?_cons, if_pos rfl]
  | file m id rest ih | link m target rest ih | directory m entries rest _ ih =>
      rw [put]
      split
      · rw [find?_cons, if_pos rfl]
      · split
        · rw [find?_cons, if_pos rfl]
        · rw [find?, if_neg (Ne.symm ‹_›), ih]

theorem at?_cons_of_ne {m : Name} (h : m ≠ n) (e : Entry) (d : Folder) (ns : List Name) :
    (cons m e d).at? (n :: ns) = d.at? (n :: ns) := by
  rw [at?, at?, find?_cons, if_neg h]

theorem at?_modifyAt (f : Folder → Folder) {ns : List Name} (h : d.at? ns = some x) :
    (d.modifyAt f ns).at? ns = some (f x) := by
  have hhere : ∀ {d x : Folder}, d.at? [] = some x → (d.modifyAt f []).at? [] = some (f x) := by
    intro d x h
    obtain rfl := Option.some.inj h
    rw [modifyAt]
    rfl
  cases ns with
  | nil => exact hhere h
  | cons n ns =>
      induction d generalizing n ns with
      | empty => cases h
      | file m id rest ih =>
          have hm : m ≠ n := fun e => by
            rw [at?, find?, if_pos e] at h
            cases h
          exact (at?_cons_of_ne hm (.file id) _ ns).trans
            (ih n ns ((at?_cons_of_ne hm (.file id) rest ns).symm.trans h))
      | link m target rest ih =>
          have hm : m ≠ n := fun e => by
            rw [at?, find?, if_pos e] at h
            cases h
          exact (at?_cons_of_ne hm (.link target) _ ns).trans
            (ih n ns ((at?_cons_of_ne hm (.link target) rest ns).symm.trans h))
      | directory m entries rest ihe ih =>
          rw [modifyAt]
          by_cases hm : m = n
          · rw [at?, find?, if_pos hm] at h
            rw [if_pos hm, at?, find?, if_pos hm]
            cases ns with
            | nil => exact hhere h
            | cons k ns => exact ihe k ns h
          · rw [if_neg hm]
            exact (at?_cons_of_ne hm (.directory entries) _ ns).trans
              (ih n ns ((at?_cons_of_ne hm (.directory entries) rest ns).symm.trans h))

/-! ## Walks stay in directories -/

theorem at?_dropLast (h : (top.at? place).isSome) : (top.at? place.dropLast).isSome := by
  induction place generalizing top with
  | nil => exact h
  | cons n ns ih =>
      cases ns with
      | nil => rfl
      | cons m ns =>
          rw [at?] at h
          rw [List.dropLast_cons_cons, at?]
          split at h
          · exact ih h
          · cases h

theorem at?_place_of_walk (h : (top.at? place).isSome) {spot : Spot}
    (hw : top.walk place steps = .ok spot) : (top.at? spot.place).isSome := by
  induction steps generalizing place with
  | nil =>
      cases hw
      exact h
  | cons step rest ih =>
      cases step with
      | stay => exact ih h hw
      | up => exact ih (at?_dropLast h) hw
      | down m =>
          rw [walk] at hw
          split at hw
          · cases hw
          · split at hw
            · split at hw <;> cases hw
              exact h
            · split at hw <;> cases hw
              exact h
            · cases hw
              exact h
            · rename_i entries hentry
              refine ih ?_ hw
              rcases Option.bind_eq_some_iff.1 hentry with ⟨d, hd, hm⟩
              rw [at?_append, hd, Option.bind_some, at?, hm]
              rfl

/-- A walk that starts in a directory leads to one, or into one. -/
theorem at?_place_of_trace {followLast : Bool} {links : Nat} (h : (top.at? place).isSome)
    {spot : Spot} (ht : top.trace followLast links place steps = .ok spot) :
    (top.at? spot.place).isSome := by
  induction links generalizing place steps with
  | zero =>
      rw [trace.eq_def] at ht
      split at ht
      · split at ht
        · cases ht
          exact at?_place_of_walk h ‹_›
        · cases ht
      · exact at?_place_of_walk h ht
  | succ k ih =>
      rw [trace.eq_def] at ht
      split at ht
      · rename_i hlink
        have hplace := at?_place_of_walk h hlink
        split at ht
        · cases ht
          exact hplace
        · refine ih ?_ ht
          rw [Path.origin]
          split
          · rfl
          · exact hplace
      · exact at?_place_of_walk h ht

/-! ## Walking to what is new -/

section New

variable (h : top.Grows top') (ht : top'.Ordered) {pl : Place} {id : FileId}
  (hnew : (top'.at? pl).bind (Folder.find? n) = some (.file id))

include h ht hnew

theorem Grows.walk_missing (hw : top.walk place steps = .ok (.missing pl n)) :
    top'.walk place steps = .ok (.file pl n id) := by
  induction steps generalizing place with
  | nil => cases hw
  | cons step rest ih =>
      cases step with
      | stay => exact ih hw
      | up => exact ih hw
      | down m =>
          rw [Folder.walk] at hw ⊢
          split at hw
          · cases hw
          · rw [if_neg ‹_›]
            split at hw
            · split at hw
              · rename_i hrest
                cases hw
                simp only [hnew, hrest, if_pos]
              · cases hw
            · split at hw <;> cases hw
            · cases hw
            · rename_i hentry
              rcases h.lookup ht hentry with ⟨e', he', hgrows⟩
              cases hgrows
              rw [he']
              exact ih hw

/-- A walk that met nothing at its last name meets the file that is there now. -/
theorem Grows.trace_missing {followLast : Bool} {links : Nat}
    (hw : top.trace followLast links place steps = .ok (.missing pl n)) :
    top'.trace followLast links place steps = .ok (.file pl n id) := by
  induction links generalizing place steps with
  | zero =>
      rw [Folder.trace.eq_def] at hw ⊢
      split at hw
      · split at hw <;> cases hw
      · rw [h.walk_missing ht hnew hw]
  | succ k ih =>
      rw [Folder.trace.eq_def] at hw ⊢
      split at hw
      · rename_i hlink
        rw [h.walk ht (by rw [hlink]; exact False.elim), hlink]
        split at hw
        · cases hw
        · simp only [if_neg ‹_›]
          exact ih hw
      · rw [h.walk_missing ht hnew hw]

end New

end Folder

namespace Store

variable {s s' : Store} {p : Path} {id : FileId}

/-- The working directory is there. -/
def IsSomewhere (s : Store) : Prop := (s.top.at? s.here).isSome

theorem GrowsTo.isSomewhere (h : s.GrowsTo s') (hs : s.IsSomewhere) : s'.IsSomewhere := by
  rcases Option.isSome_iff_exists.1 hs with ⟨d, hd⟩
  rcases h.top.at? s'.ordered hd with ⟨d', hd', -⟩
  rw [IsSomewhere, h.here, hd']
  rfl

-- A file that is entered where there was nothing is there.
theorem locate_enter_file (hs : s.IsSomewhere) {place : Place} {n : Name}
    (h : s.locate true p = .ok (.missing place n)) :
    (s.enter place n (.file id) trivial).locate true p = .ok (.file place n id) := by
  have hgrows :=
    growsTo_enter (e := .file id) (fun _ => by simp) trivial (find?_of_locate_missing h)
  rw [locate] at h ⊢
  split at h
  · cases h
  · rename_i hdefect
    have horigin : (s.top.at? (p.origin s.here)).isSome := by
      rw [Path.origin]
      split
      · rfl
      · exact hs
    rcases Option.isSome_iff_exists.1 (Folder.at?_place_of_trace horigin h) with ⟨d, hd⟩
    exact hgrows.top.trace_missing (enter s place n _ _).ordered (Option.bind_eq_some_iff.2
      ⟨_, Folder.at?_modifyAt _ hd, Folder.find?_put_self n _ d⟩) h

/-- The file that is created under a path is found there. -/
theorem fileAt_create (hs : s.IsSomewhere) (h : s.create p = .ok (id, s')) :
    s'.fileAt p = .ok id := by
  rw [create] at h
  split at h
  · cases h
  · rename_i hfile
    split at h <;> cases h
    have hlocate : (s.setBytes id .empty).locate true p = s.locate true p := rfl
    rw [fileAt, hlocate, hfile]
  · rename_i place n hmissing
    cases h
    have hlocate : (((s.enter place n (.file s.top.freshId) trivial).setAccess s.top.freshId
        {}).setBytes s.top.freshId .empty).locate true p = .ok (.file place n s.top.freshId) :=
      locate_enter_file hs hmissing
    rw [fileAt, hlocate]
  · cases h

theorem bytes_create (h : s.create p = .ok (id, s')) : s'.bytes id = .empty := by
  rw [create] at h
  split at h
  · cases h
  · split at h <;> cases h
    exact if_pos rfl
  · cases h
    exact if_pos rfl
  · cases h

end Store

end Codemod
