import Codemod.Proofs.Idempotence
import Codemod.Proofs.Nesting

/-!
# Running Again and Again

After how many runs a source tree is settled.

Runs in a row are passes in a row. A run passes over each listed file at least
once, and what it lists does not depend on any bytes, so the next run lists the
same paths and the passes of the runs add up. A file with several listed paths
is only ahead of the others.

A pass takes off one level of calls. Once there have been as many runs as the
deepest listed text has levels, no listed text has a call left to replace, and
from then on a run finds the store settled. What is no text stays an error of
every run, and a head that nothing closes stays in its place.

## Main definitions

* `Store.afterRuns`: The store that runs leave.
* `Store.deepestNesting`: The most levels of calls in a listed text.

## Theorems

* `Store.afterRuns_eq`: Runs in a row are passes in a row.
* `Store.sourceFiles_afterRuns`, `Store.report_afterRuns`: What is the same in
  all runs.
* `Store.isSettled_afterRuns`: When all calls are replaced.
* `repeated_runs_settle`: Runs in a row come to an end.
-/

namespace Codemod

namespace Store

/-- The store that `n` real runs in a row leave. -/
def afterRuns (s : Store) (c : Config) : Nat → Store
  | 0 => s
  | n + 1 => (Session.process { store := s.afterRuns c n } { c with dryRun := false }).2.store

/-- The most levels of calls that a listed file has, if it is text that lets itself
    be read. -/
def deepestNesting (s : Store) (c : Config) : Nat :=
  ((s.sourceFiles c).1.map fun p =>
    match s.readText p with
    | .error _ => 0
    | .ok (_, t) => nestingDepth t).foldr max 0

variable {s : Store} {c : Config}

theorem nestingDepth_le_deepestNesting {id : FileId} {t : Text} (hopen : s.IsOpen id)
    (hb : decodeText? (s.bytes id) = some t) (hlisted : 0 < s.timesListed c id) :
    nestingDepth t ≤ s.deepestNesting c := by
  rcases List.countP_pos_iff.1 hlisted with ⟨p, hp, hlead⟩
  have hle := foldr_max_le_iff.1 (Nat.le_refl (s.deepestNesting c)) _ (List.mem_map_of_mem hp)
  rw [readText_of_isOpen (leadsTo_iff.1 hlead) hopen hb] at hle
  exact hle

/-! ## Runs in a row -/

/-- Runs over a directory pass over each file, in each run once for every listed
    path that leads to it. -/
theorem afterRuns_eq (hdir : s.isDirectory c.searchDir = true) (n : Nat) :
    s.afterRuns c n = s.afterPasses fun id => n * s.timesListed c id := by
  induction n with
  | zero => simp only [afterRuns, Nat.zero_mul, afterPasses_zero]
  | succ n ih =>
      have hdir' : (s.afterRuns c n).isDirectory c.searchDir = true := by
        rw [ih, isDirectory_afterPasses, hdir]
      have hrun := Session.process_store (s := { store := s.afterRuns c n }) rfl
        { c with dryRun := false }
      -- The store before this run lists what the first one listed.
      refine hrun.trans ((if_pos ⟨rfl, hdir'⟩).trans ?_)
      rw [ih, timesListed_afterPasses, afterPasses_afterPasses]
      simp only [Nat.succ_mul]
      rfl

theorem afterRuns_of_no_directory (hdir : ¬s.isDirectory c.searchDir = true) (n : Nat) :
    s.afterRuns c n = s := by
  induction n with
  | zero => rfl
  | succ n ih => rw [afterRuns, Session.process_store rfl, ih, if_neg fun h => hdir h.2]

theorem isDirectory_afterRuns (hdir : s.isDirectory c.searchDir = true) (n : Nat) :
    (s.afterRuns c n).isDirectory c.searchDir = true := by
  rw [afterRuns_eq hdir, isDirectory_afterPasses, hdir]

theorem sourceFiles_afterRuns (s : Store) (c : Config) (n : Nat) :
    (s.afterRuns c n).sourceFiles c = s.sourceFiles c := by
  by_cases hdir : s.isDirectory c.searchDir = true
  · rw [afterRuns_eq hdir, sourceFiles_afterPasses]
  · rw [afterRuns_of_no_directory hdir]

/-- What a run reports beside its records is there in the store before the first
    run. -/
theorem report_afterRuns (hdir : s.isDirectory c.searchDir = true) (n : Nat) :
    let report := (Session.process { store := s.afterRuns c n } { c with dryRun := false }).1
    report.filesScanned = (s.sourceFiles c).1.length ∧
      report.errors = (s.sourceFiles c).2 ++
        (s.sourceFiles c).1.filterMap fun p => (s.visitOf { c with dryRun := false } p).error? := by
  intro report
  have hreport : report = _ :=
    Session.process_report (s := { store := s.afterRuns c n }) rfl (isDirectory_afterRuns hdir n)
  have hfiles : (s.afterRuns c n).sourceFiles { c with dryRun := false } = s.sourceFiles c :=
    sourceFiles_afterRuns s c n
  rw [hreport, hfiles]
  refine ⟨length_visits _ _ _, congrArg ((s.sourceFiles c).2 ++ ·) ?_⟩
  -- What is text stays text, whatever has been passed over.
  rw [error?_visits, afterRuns_eq hdir]
  simp only [visitOf_afterPasses_error?]

/-- After as many runs as there are levels of calls, no listed text has a call left
    to replace. -/
theorem isSettled_afterRuns (hdir : s.isDirectory c.searchDir = true) {n : Nat}
    (hn : s.deepestNesting c ≤ n) : (s.afterRuns c n).IsSettled c := by
  rw [afterRuns_eq hdir]
  intro id u hopen hu hlisted
  rw [isOpen_afterPasses] at hopen
  rw [timesListed_afterPasses] at hlisted
  rw [bytes_afterPasses, decodeText?_bytesAfter, passes_of_isOpen hopen] at hu
  rcases Option.map_eq_some_iff.1 hu with ⟨t, hb, rfl⟩
  -- Each run has passed over the text, once or more often.
  have hpasses : n ≤ n * s.timesListed c id := Nat.le_mul_of_pos_right n hlisted
  have hdepth := nestingDepth_le_deepestNesting hopen hb hlisted
  rw [Outcome.changed_eq_false_iff]
  refine Nat.eq_zero_of_not_pos fun hpos => ?_
  have hlevels := replacements_pos_iff.1 hpos
  omega

end Store

/-! ## The end of the runs -/

/-- Runs in a row list the same files, scan as many of them and have the same
    errors. From the run on whose number is that of the levels of calls in the
    deepest listed text, every run leaves the whole store as it is and has no
    changed file to report. -/
theorem repeated_runs_settle (s : Store) (c : Config) :
    let report (n : Nat) :=
      (Session.process { store := s.afterRuns c n } { c with dryRun := false }).1
    (∀ n, (s.afterRuns c n).sourceFiles c = s.sourceFiles c ∧
      (report n).filesScanned = (report 0).filesScanned ∧
      (report n).errors = (report 0).errors) ∧
    ∀ n, s.deepestNesting c ≤ n →
      s.afterRuns c (n + 1) = s.afterRuns c n ∧ (report n).changedPaths = [] := by
  intro report
  by_cases hdir : s.isDirectory c.searchDir = true
  · have hreport : ∀ n, (report n).filesScanned = _ ∧ (report n).errors = _ :=
      Store.report_afterRuns hdir
    refine ⟨fun n => ⟨s.sourceFiles_afterRuns c n, ?_, ?_⟩, fun n hn => ?_⟩
    · rw [(hreport n).1, (hreport 0).1]
    · rw [(hreport n).2, (hreport 0).2]
    · have hsettled := Store.isSettled_afterRuns hdir hn
      exact ⟨Session.process_store_of_settled rfl hsettled,
        (Session.changedPaths_eq_nil_iff (s := { store := s.afterRuns c n }) rfl
          (Store.isDirectory_afterRuns hdir n)).2 hsettled⟩
  · -- Without a directory to search, no run does anything.
    have hsame : ∀ n, s.afterRuns c n = s := Store.afterRuns_of_no_directory hdir
    have hreport : ∀ n, report n = ⟨0, [], [], false⟩ := fun n => by
      refine Session.process_report_of_no_directory (s := { store := s.afterRuns c n }) ?_
      rw [hsame n]
      exact hdir
    refine ⟨fun n => ⟨s.sourceFiles_afterRuns c n, ?_, ?_⟩, fun n _ => ⟨?_, ?_⟩⟩
    · rw [hreport, hreport]
    · rw [hreport, hreport]
    · rw [hsame, hsame]
    · rw [hreport]
      rfl

end Codemod
