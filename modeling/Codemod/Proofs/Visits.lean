import Codemod.Proofs.Selections
import Codemod.Proofs.Storage

/-!
# The Visits of a Run

What a run finds on its way, read off the store before it.

The report of a run is made up from its visits, and a visit depends on the bytes
that it meets. In a dry run these are the bytes from before the run. In a real
run the visits before have passed over some of them, which is why the visits of
a real run are given together with the paths that come before each.

A visit to a text meets a text at any time, the one that some number of passes
have left. No pass gets through to a file that does not let itself be read and
written, so a visit to such a file is the same whenever it comes, and so is one
to anything that is no text.

## Main definitions

* `Store.visitOf`: What a visit to a path comes to.
* `Store.visits`: What the visits of a run to paths come to.

## Theorems

* `Visit.record?_eq_iff`: When two visits to a path have the same record.
* `Store.visitOf_afterPasses_of_open`: A visit to an open text, after passes.
* `Store.visitOf_afterPasses_of_not_open`: A visit to anything else.
* `Store.exists_text_of_record?`: A record is about a text.
* `Store.error?_visits`: The errors of visits.
* `Session.visitAll_visits`: The visits of a run.
* `Session.process_report`: The report of a run.
-/

namespace Codemod

/-! ## Records -/

namespace Visit

theorem record?_eq_none_iff {path : String} {o : Outcome} :
    (Visit.mk path (.ok o)).record? = none ↔ o.replacements = 0 ∧ o.unbalancedLine? = none := by
  rw [← Outcome.changed_eq_false_iff]
  simp only [record?, ite_eq_right_iff, reduceCtorEq, imp_false, not_or, Bool.not_eq_true,
    Option.isSome_eq_false_iff, Option.isNone_iff_eq_none]

theorem record?_eq_some_iff {path : String} {o : Outcome} {r : FileRecord} :
    (Visit.mk path (.ok o)).record? = some r ↔
      (o.changed = true ∨ o.unbalancedLine?.isSome = true) ∧
        ⟨path, o.changed, o.replacements, o.unbalancedLine?⟩ = r := by
  rw [record?, Option.ite_none_right_eq_some, Option.some.injEq]

/-- Two visits to a path have the same record exactly when they count the same
    replacements and stop on the same line, or both nowhere. -/
theorem record?_eq_iff {path : String} {o o' : Outcome} :
    (Visit.mk path (.ok o)).record? = (Visit.mk path (.ok o')).record? ↔
      o.replacements = o'.replacements ∧ o.unbalancedLine? = o'.unbalancedLine? := by
  constructor
  · intro e
    cases h : (Visit.mk path (.ok o)).record? with
    | none =>
        have h' := e.symm.trans h
        rw [record?_eq_none_iff] at h h'
        exact ⟨h.1.trans h'.1.symm, h.2.trans h'.2.symm⟩
    | some r =>
        have h' := e.symm.trans h
        rw [record?_eq_some_iff] at h h'
        have hr := h.2.trans h'.2.symm
        exact ⟨congrArg FileRecord.replacements hr, congrArg FileRecord.unbalancedLine hr⟩
  · rintro ⟨hcount, hline⟩
    have hchanged : o.changed = o'.changed := by rw [Outcome.changed, Outcome.changed, hcount]
    by_cases h : o'.changed = true ∨ o'.unbalancedLine?.isSome = true
    · have h' := h
      rw [← hchanged, ← hline] at h'
      simp only [record?, if_pos h, hchanged, hcount, hline]
    · have h' := h
      rw [← hchanged, ← hline] at h'
      simp only [record?, if_neg h, if_neg h']

end Visit

/-! ## Visits to a store -/

namespace Store

/-- What a visit to a path comes to. -/
def visitOf (s : Store) (c : Config) (p : Path) : Visit :=
  ⟨c.reported p, (s.updateFile p c.dryRun).1⟩

/-- What the visits of a run to paths come to. -/
def visits (s : Store) (c : Config) (ps : List Path) : List Visit :=
  ps.zipIdx.map fun x => (if c.dryRun then s else s.afterVisits (ps.take x.2)).visitOf c x.1

theorem visits_dryRun (s : Store) (c : Config) (ps : List Path) :
    s.visits { c with dryRun := true } ps =
      ps.zipIdx.map fun x => s.visitOf { c with dryRun := true } x.1 := rfl

theorem visits_realRun (s : Store) (c : Config) (ps : List Path) :
    s.visits { c with dryRun := false } ps =
      ps.zipIdx.map fun x =>
        (s.afterVisits (ps.take x.2)).visitOf { c with dryRun := false } x.1 := rfl

theorem length_visits (s : Store) (c : Config) (ps : List Path) :
    (s.visits c ps).length = ps.length := by
  rw [visits, List.length_map, List.length_zipIdx]

variable {s : Store} {c : Config} {p : Path} {id : FileId} {t : Text}

/-- A visit to a text comes to the outcome of the pass, unless the file has to be
    written and does not let itself be. -/
theorem visitOf_of_accepted (h : s.readText p = .ok (id, t))
    (haccept : (s.access id).write = none ∨ (replaceCalls .withOpacity t).changed = false ∨
      c.dryRun = true) :
    s.visitOf c p = ⟨c.reported p, .ok (replaceCalls .withOpacity t)⟩ := by
  rw [visitOf]
  by_cases hwrite : (replaceCalls .withOpacity t).changed = true ∧ c.dryRun = false
  · have haccess : (s.access id).write = none := by
      refine haccept.resolve_right ?_
      rw [hwrite.1, hwrite.2]
      rintro (h | h) <;> cases h
    rw [updateFile_of_written h hwrite haccess]
  · rw [updateFile_of_kept h hwrite]

theorem visitOf_of_refused (h : s.readText p = .ok (id, t))
    (hwrite : (replaceCalls .withOpacity t).changed = true ∧ c.dryRun = false) {e : OsError}
    (he : (s.access id).write = some e) :
    s.visitOf c p = ⟨c.reported p, .error (.unwritten p e)⟩ := by
  rw [visitOf, updateFile_of_refused h hwrite he]

theorem visitOf_of_error {e : ReadError} (h : s.readText p = .error e) :
    s.visitOf c p = ⟨c.reported p, .error e⟩ := by
  rw [visitOf, updateFile_of_error h]

theorem visitOf_of_open (h : s.readText p = .ok (id, t)) (hopen : s.IsOpen id) :
    s.visitOf c p = ⟨c.reported p, .ok (replaceCalls .withOpacity t)⟩ :=
  visitOf_of_accepted h (.inl (isOpen_iff.1 hopen).2)

theorem visitOf_afterPasses_of_open (n : FileId → Nat) (h : s.readText p = .ok (id, t))
    (hopen : s.IsOpen id) :
    (s.afterPasses n).visitOf c p =
      ⟨c.reported p, .ok (replaceCalls .withOpacity (rewriteText^[n id] t))⟩ := by
  have hread := readText_afterPasses s n p
  rw [h] at hread
  rw [← passes_of_isOpen hopen n]
  exact visitOf_of_open hread hopen

-- What a visit comes to depends on what is read and on what may be written.
theorem visitOf_congr {s' : Store} (hread : s'.readText p = s.readText p)
    (haccess : ∀ id t, s.readText p = .ok (id, t) → s'.access id = s.access id) :
    s'.visitOf c p = s.visitOf c p := by
  cases h : s.readText p with
  | error e => rw [visitOf_of_error h, visitOf_of_error (hread.trans h)]
  | ok x =>
      rcases x with ⟨id, t⟩
      have hsame := haccess id t h
      rw [visitOf, visitOf, updateFile, updateFile, hread, h]
      dsimp only
      rw [hsame]
      split
      · cases (s.access id).write <;> rfl
      · rfl

theorem visitOf_afterPasses_of_not_open (n : FileId → Nat)
    (h : ∀ id t, s.readText p = .ok (id, t) → ¬s.IsOpen id) :
    (s.afterPasses n).visitOf c p = s.visitOf c p := by
  refine visitOf_congr ?_ fun _ _ _ => rfl
  rw [readText_afterPasses]
  cases hread : s.readText p with
  | error e => rfl
  | ok x =>
      have hzero := passes_of_not_isOpen (h x.1 x.2 hread) n
      rw [Except.map, hzero]
      rfl

theorem leads_to_open_or_not (s : Store) (p : Path) :
    (∃ id t, s.readText p = .ok (id, t) ∧ s.IsOpen id) ∨
      ∀ id t, s.readText p = .ok (id, t) → ¬s.IsOpen id := by
  by_cases h : ∃ id t, s.readText p = .ok (id, t) ∧ s.IsOpen id
  · exact .inl h
  · exact .inr fun id t hread hopen => h ⟨id, t, hread, hopen⟩

/-- A visit with a record has passed over a text, which has been written if there was
    something to write. -/
theorem exists_text_of_record? {r : FileRecord} (h : (s.visitOf c p).record? = some r) :
    ∃ id t, s.readText p = .ok (id, t) ∧
      ((s.access id).write = none ∨ (replaceCalls .withOpacity t).changed = false ∨
        c.dryRun = true) ∧
      (Visit.mk (c.reported p) (.ok (replaceCalls .withOpacity t))).record? = some r := by
  cases hread : s.readText p with
  | error e =>
      rw [visitOf_of_error hread] at h
      cases h
  | ok x =>
      rcases x with ⟨id, t⟩
      by_cases hwrite : (replaceCalls .withOpacity t).changed = true ∧ c.dryRun = false
      · cases he : (s.access id).write with
        | some e =>
            rw [visitOf_of_refused hread hwrite he] at h
            cases h
        | none =>
            rw [visitOf_of_accepted hread (.inl he)] at h
            exact ⟨id, t, rfl, .inl he, h⟩
      · have haccept : (replaceCalls .withOpacity t).changed = false ∨ c.dryRun = true := by
          rw [not_and_or, Bool.not_eq_true, Bool.not_eq_false] at hwrite
          exact hwrite
        rw [visitOf_of_accepted hread (.inr haccept)] at h
        exact ⟨id, t, rfl, .inr haccept, h⟩

-- A text that lets itself be read and written has no error, whatever passes leave.
theorem visitOf_afterPasses_error? (n : FileId → Nat) :
    ((s.afterPasses n).visitOf c p).error? = (s.visitOf c p).error? := by
  rcases s.leads_to_open_or_not p with ⟨id, t, hread, hopen⟩ | h
  · rw [visitOf_of_open hread hopen, visitOf_afterPasses_of_open n hread hopen]
    rfl
  · rw [visitOf_afterPasses_of_not_open n h]

-- Every error is there at any time, so the errors of visits are those that the paths
-- give before any of them.
theorem error?_visits (s : Store) (c : Config) (ps : List Path) :
    (s.visits c ps).filterMap Visit.error? = ps.filterMap fun p => (s.visitOf c p).error? := by
  have hvisit : (Visit.error? ∘ fun x : Path × Nat =>
      (if c.dryRun then s else s.afterVisits (ps.take x.2)).visitOf c x.1) =
        (fun p => (s.visitOf c p).error?) ∘ Prod.fst := by
    funext x
    rw [Function.comp_apply, Function.comp_apply]
    split
    · rfl
    · rw [afterVisits, visitOf_afterPasses_error?]
  rw [visits, List.filterMap_map, hvisit, ← List.filterMap_map, List.zipIdx_map_fst]

/-- A visit of a run, dry or not, is one that some passes come before. -/
theorem exists_passes_of_mem_visits {ps : List Path} {v : Visit} (hv : v ∈ s.visits c ps) :
    ∃ p ∈ ps, ∃ n, v = (s.afterPasses n).visitOf c p := by
  rcases List.mem_map.1 hv with ⟨⟨p, i⟩, hx, rfl⟩
  refine ⟨p, List.mem_of_getElem? (List.mk_mem_zipIdx_iff_getElem?.1 hx), ?_⟩
  dsimp only
  split
  · exact ⟨fun _ => 0, by rw [afterPasses_zero]⟩
  · exact ⟨_, rfl⟩

end Store

/-! ## The visits of a run -/

namespace Session

variable {s : Session}

theorem visit_visit (s : Session) (c : Config) (p : Path) :
    (s.visit c p).1 = s.store.visitOf c p := rfl

/-- Each visit of a real run meets what the visits before it have left, and each
    visit of a dry run what was there before the run. -/
theorem visitAll_visits (hlog : s.log = none) (c : Config) (ps : List Path) :
    (s.visitAll c ps).1 = s.store.visits c ps := by
  induction ps generalizing s with
  | nil => rfl
  | cons p ps ih =>
      rcases visit_of_no_log hlog c p with ⟨hstore, hlog'⟩
      -- The rest starts in the store that the first visit leaves, which counts as one
      -- more path before each of the visits to come.
      have hrest := ih hlog'
      rw [visitAll, Store.visits, List.zipIdx_cons', List.map_cons, List.map_map]
      refine congrArg₂ List.cons ?_ (hrest.trans ?_)
      · rw [visit_visit, List.take_zero, Store.afterVisits_nil, ite_self]
      · rw [Store.visits, hstore]
        refine List.map_congr_left fun x _ => ?_
        cases hdry : c.dryRun with
        | true => rw [Store.updateFile_store_of_dryRun]; rfl
        | false =>
            simp only [Store.updateFile_store, Store.afterVisits_append]
            rfl

theorem process_report (hlog : s.log = none) {c : Config}
    (hdir : s.store.isDirectory c.searchDir = true) :
    (s.process c).1 =
      let visits := s.store.visits c (s.store.sourceFiles c).1
      ⟨visits.length, visits.filterMap Visit.record?,
        (s.store.sourceFiles c).2 ++ visits.filterMap Visit.error?, c.dryRun⟩ := by
  rcases process_of_isDirectory hlog hdir with ⟨s', hstore, hlog', hprocess⟩
  have hvisits := visitAll_visits hlog' c (s.store.sourceFiles c).1
  rw [hstore] at hvisits
  rw [hprocess, hvisits]

theorem process_report_of_no_directory {c : Config}
    (hdir : ¬s.store.isDirectory c.searchDir = true) :
    (s.process c).1 = ⟨0, [], [], c.dryRun⟩ := by
  rw [process, if_neg hdir]

end Session

end Codemod
