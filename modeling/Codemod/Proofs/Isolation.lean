import Codemod.Proofs.Accounting

/-!
# One File and the Others

What the bytes of one file have to do with the rest of a run: nothing.

Two stores that differ in the bytes of one file have the same paths, and each
path leads to the same file in both. A turn of a path that leads to the file in
question writes to that file or nowhere. A turn of any other path reads the same
in both stores, so it comes to the same and writes the same. Either way the
stores differ in no other file afterwards, and so on until the end of the run.

So whatever is in a file, be it text or not, and whatever becomes of it, the
other files end up the same, and what is reported of other paths is the same
and comes in the same order. Links make no difference, since it is the file that
counts and not the path. Nor does it matter how paths are shown in a report, since
records and errors are followed up to the turns that they come from.

## Main definitions

* `Store.SameBut`: Two stores that differ in the bytes of one file.

## Theorems

* `Store.SameBut.updateFile`, `Store.SameBut.visitOf`: One turn.
* `Store.SameBut.visits_turns`, `Store.SameBut.writeAll_turns`: Turns in a row.
* `process_isolates_files`: Two runs.
-/

namespace Codemod

namespace Store

/-- Two stores that differ at most in the bytes of one file. -/
structure SameBut (id : FileId) (s s' : Store) : Prop where
  top : s'.top = s.top
  here : s'.here = s.here
  access : s'.access = s.access
  bytes : ∀ i, i ≠ id → s'.bytes i = s.bytes i

theorem sameBut_setBytes (s : Store) (id : FileId) (b : ByteArray) :
    SameBut id s (s.setBytes id b) :=
  ⟨rfl, rfl, rfl, fun _ hi => if_neg hi⟩

namespace SameBut

variable {id : FileId} {s s' : Store} {c : Config} {p : Path} {ps : List Path}

theorem fileAt (h : SameBut id s s') (p : Path) : s'.fileAt p = s.fileAt p := by
  simp only [Store.fileAt, locate, h.top, h.here]

theorem readText (h : SameBut id s s') (hp : s.fileAt p ≠ .ok id) :
    s'.readText p = s.readText p :=
  readText_congr (h.fileAt p) (fun i _ => congrFun h.access i) fun i hi =>
    h.bytes i fun e => hp (e ▸ hi)

/-- A turn of a path to another file comes to the same in both stores. -/
theorem visitOf (h : SameBut id s s') (hp : s.fileAt p ≠ .ok id) :
    s'.visitOf c p = s.visitOf c p :=
  visitOf_congr (h.readText hp) fun i _ _ => congrFun h.access i

/-- A turn leaves the stores different in no other file. -/
theorem updateFile (h : SameBut id s s') (p : Path) (dryRun : Bool) :
    SameBut id (s.updateFile p dryRun).2 (s'.updateFile p dryRun).2 := by
  rcases s.updateFile_shape p dryRun with ⟨htop, hhere, haccess, hbytes⟩
  rcases s'.updateFile_shape p dryRun with ⟨htop', hhere', haccess', hbytes'⟩
  refine ⟨by rw [htop, htop', h.top], by rw [hhere, hhere', h.here],
    by rw [haccess, haccess', h.access], fun i hi => ?_⟩
  by_cases hp : s.fileAt p = .ok id
  · have hother : s.fileAt p ≠ .ok i := fun e => hi (Except.ok.inj (e.symm.trans hp))
    rw [hbytes i hother, hbytes' i (by rwa [h.fileAt]), h.bytes i hi]
  · exact (updateFile_congr (h.readText hp) (fun i _ => congrFun h.access i) dryRun).2 i
      (h.bytes i hi)

/-- Turns of paths that do not lead to the file come to the same, whatever turns come
    between them. -/
theorem visits_turns {keep : Path → Bool} (h : SameBut id s s')
    (hkeep : ∀ p, keep p = true → s.fileAt p ≠ .ok id) (c : Config) (ps : List Path) :
    ((s'.turns c ps).filter fun t => keep t.path).map (Turn.visit · c) =
      ((s.turns c ps).filter fun t => keep t.path).map (Turn.visit · c) := by
  -- The stores change along the list, and where paths lead does not.
  induction ps generalizing s s' with
  | nil => rfl
  | cons p ps ih =>
      have hrest := ih (h.updateFile p c.dryRun) fun q hq =>
        s.fileAt_updateFile p c.dryRun q ▸ hkeep q hq
      rw [turns, turns, List.filter_cons, List.filter_cons]
      by_cases hp : keep p = true
      · rw [if_pos hp, if_pos hp]
        exact congrArg₂ List.cons (h.visitOf (hkeep p hp)) hrest
      · rw [if_neg hp, if_neg hp]
        exact hrest

theorem writeAll_turns (h : SameBut id s s') (c : Config) (ps : List Path) :
    SameBut id (s.writeAll ((s.turns c ps).filterMap (Turn.write? · c)))
      (s'.writeAll ((s'.turns c ps).filterMap (Turn.write? · c))) := by
  induction ps generalizing s s' with
  | nil => exact h
  | cons p ps ih =>
      rw [writeAll_turns_cons, writeAll_turns_cons]
      exact ih (h.updateFile p c.dryRun)

end SameBut

end Store

/-- Two runs over stores that differ in the bytes of one file scan as many files and
    leave the same bytes in all other files. Both report the records and, behind the
    errors of the search, the errors of their turns. The turns are those of the same
    listed paths, and those of paths that do not lead to the file have the same
    records and the same errors, in the same order. -/
theorem process_isolates_files (s : Store) (id : FileId) (b : ByteArray) (c : Config) :
    let run := Session.process { store := s } c
    let run' := Session.process { store := s.setBytes id b } c
    let files := (s.sourceFiles c).1
    let errors := (s.sourceFiles c).2
    let turns := s.turns c files
    let turns' := (s.setBytes id b).turns c files
    let record := fun t : Turn => (t.visit c).record?
    let error := fun t : Turn => (t.visit c).error?
    let beside := fun t : Turn => !s.leadsTo id t.path
    run'.1.filesScanned = run.1.filesScanned ∧
      (∀ i, i ≠ id → run'.2.store.bytes i = run.2.store.bytes i) ∧
      (¬s.isDirectory c.searchDir = true → run'.1 = run.1) ∧
      (s.isDirectory c.searchDir = true →
        (run.1.records = turns.filterMap record ∧
          run.1.errors = errors ++ turns.filterMap error) ∧
        run'.1.records = turns'.filterMap record ∧
          run'.1.errors = errors ++ turns'.filterMap error) ∧
      (turns.map Turn.path = files ∧ turns'.map Turn.path = files) ∧
      (turns'.filter beside).filterMap record = (turns.filter beside).filterMap record ∧
      (turns'.filter beside).filterMap error = (turns.filter beside).filterMap error := by
  intro run run' files errors turns turns' record error beside
  have hsame := s.sameBut_setBytes id b
  have hfound : (s.setBytes id b).sourceFiles c = s.sourceFiles c := s.sourceFiles_setBytes id b c
  have hbeside : ∀ p, (!s.leadsTo id p) = true → s.fileAt p ≠ .ok id := by
    intro p hp hlead
    rw [Store.leadsTo_iff.2 hlead] at hp
    cases hp
  have hvisits : (turns'.filter beside).map (Turn.visit · c) =
      (turns.filter beside).map (Turn.visit · c) := hsame.visits_turns hbeside c files
  -- What a turn reports is read off its visit.
  have hselect : ∀ {β : Type} (select : Visit → Option β),
      ((turns'.filter beside).filterMap fun t => select (t.visit c)) =
        (turns.filter beside).filterMap fun t => select (t.visit c) := fun select => by
    have h := congrArg (List.filterMap select) hvisits
    rwa [List.filterMap_map, List.filterMap_map] at h
  have hpaths : turns.map Turn.path = files ∧ turns'.map Turn.path = files :=
    ⟨s.path_turns c files, (s.setBytes id b).path_turns c files⟩
  by_cases hdir : s.isDirectory c.searchDir = true
  · have hdir' : (s.setBytes id b).isDirectory c.searchDir = true := hdir
    obtain ⟨hreport, -, hstore⟩ : run.1 = _ ∧ _ ∧ run.2.store = _ := Session.process_turns s hdir
    obtain ⟨hreport', -, hstore'⟩ : run'.1 = _ ∧ _ ∧ run'.2.store = _ :=
      Session.process_turns (s.setBytes id b) hdir'
    rw [hfound] at hreport' hstore'
    have hcount : turns'.length = turns.length :=
      ((s.setBytes id b).length_turns c files).trans (s.length_turns c files).symm
    rw [hreport, hreport', hstore, hstore']
    exact ⟨hcount, (hsame.writeAll_turns c files).bytes, fun hnot => absurd hdir hnot,
      fun _ => ⟨⟨rfl, rfl⟩, rfl, rfl⟩, hpaths, hselect Visit.record?, hselect Visit.error?⟩
  · have hrun : run = _ := Session.process_of_seen?_none (s := { store := s }) (if_neg hdir)
    have hrun' : run' = _ :=
      Session.process_of_seen?_none (s := { store := s.setBytes id b }) (if_neg hdir)
    rw [hrun, hrun']
    exact ⟨rfl, hsame.bytes, fun _ => rfl, fun h => absurd h hdir, hpaths,
      hselect Visit.record?, hselect Visit.error?⟩

end Codemod
