import Codemod.Proofs.Visits

/-!
# Dry Runs

What the report of a dry run says about the run that it stands for.

A dry run and a real one list the same paths and visit them in the same order,
but the real run writes as it goes. A path that leads to a file which an earlier
path led to finds the result of the earlier visits there; in the dry run it
finds the file as it was. So the two reports can part where one file has several
listed paths. The other thing that a dry run cannot foretell is that a file which
it would change does not let itself be written.

Both runs look at equally many files, and every error of the dry run is one of
the real run, because a file that is not text stays one that is not text, and a
text stays a text. The errors are therefore the same unless a file cannot be
written. What is left are the records. A visit of the real run that has a record
has one in the dry run as well: where the first pass over a file changes nothing
and finds nothing wrong, no later pass will. The two lists of records are
therefore equal only if they agree visit by visit, and a visit is a pass over the
text that a number of passes have left. That leaves a condition on each file by
itself, in which the order of the visits no longer shows.

## Main definitions

* `Store.Foretold`: What a run writes to a file can be foretold.

## Theorems

* `Store.errors_eq_iff`, `Store.records_eq_iff`: When the errors and the records
  of the two runs are equal.
* `dryRun_report_eq_iff`: When a dry run foretells the real one.
* `dryRun_records_differ`: Two paths to one file.
-/

namespace Codemod

namespace Store

variable {s : Store} {c : Config} {p : Path} {id : FileId} {t : Text}

/-! ## Visits of both runs -/

/-- If a pass over a text changes it, the file lets itself be written. -/
def Foretold (s : Store) (id : FileId) (t : Text) : Prop :=
  (replaceCalls .withOpacity t).changed = true → (s.access id).write = none

theorem visitOf_dryRun (h : s.readText p = .ok (id, t)) :
    s.visitOf { c with dryRun := true } p =
      ⟨c.reported p, .ok (replaceCalls .withOpacity t)⟩ :=
  visitOf_of_accepted (c := { c with dryRun := true }) h (.inr (.inr rfl))

/-- A visit of a real run to a text comes to the outcome of the pass if what it writes
    could be foretold, and to an error otherwise. -/
theorem visitOf_realRun_cases (h : s.readText p = .ok (id, t)) :
    (s.Foretold id t ∧ s.visitOf { c with dryRun := false } p =
        ⟨c.reported p, .ok (replaceCalls .withOpacity t)⟩) ∨
      ¬s.Foretold id t ∧ ∃ e, s.visitOf { c with dryRun := false } p =
        ⟨c.reported p, .error e⟩ := by
  cases hwrite : (s.access id).write with
  | none => exact .inl ⟨fun _ => hwrite, visitOf_of_accepted h (.inl hwrite)⟩
  | some e =>
      cases hchanged : (replaceCalls .withOpacity t).changed with
      | true =>
          refine .inr ⟨fun hforetold => ?_, _, visitOf_of_refused h ⟨hchanged, rfl⟩ hwrite⟩
          cases hwrite.symm.trans (hforetold hchanged)
      | false =>
          refine .inl ⟨fun hc => ?_, visitOf_of_accepted h (.inr (.inl hchanged))⟩
          cases hchanged.symm.trans hc

theorem error?_visitOf_eq_iff (h : s.readText p = .ok (id, t)) :
    (s.visitOf { c with dryRun := true } p).error? =
        (s.visitOf { c with dryRun := false } p).error? ↔ s.Foretold id t := by
  rw [visitOf_dryRun h]
  rcases visitOf_realRun_cases h with ⟨hforetold, hvisit⟩ | ⟨hnot, e, hvisit⟩
  · rw [hvisit]
    exact iff_of_true rfl hforetold
  · rw [hvisit]
    exact iff_of_false nofun hnot

/-- A visit that passes come before has the record of the dry run exactly when what
    it writes could be foretold and the pass over the text that it meets counts as the
    first one did. -/
theorem record?_visitOf_eq_iff (n : FileId → Nat) (h : s.readText p = .ok (id, t)) :
    ((s.afterPasses n).visitOf { c with dryRun := false } p).record? =
        (s.visitOf { c with dryRun := true } p).record? ↔
      s.Foretold id t ∧
        (replaceCalls .withOpacity (rewriteText^[n id] t)).replacements =
          (replaceCalls .withOpacity t).replacements ∧
        (replaceCalls .withOpacity (rewriteText^[n id] t)).unbalancedLine? =
          (replaceCalls .withOpacity t).unbalancedLine? := by
  rw [visitOf_dryRun h]
  cases hwrite : (s.access id).write with
  | none =>
      have hopen : s.IsOpen id := isOpen_iff.2 ⟨(readText_eq_ok_iff.1 h).2.1, hwrite⟩
      rw [visitOf_afterPasses_of_open n h hopen]
      exact Visit.record?_eq_iff.trans (and_iff_right fun _ => hwrite).symm
  | some e =>
      have hclosed : ∀ i u, s.readText p = .ok (i, u) → ¬s.IsOpen i := by
        rintro i u hu hopen
        obtain ⟨rfl, -⟩ := Prod.mk.inj (Except.ok.inj (h.symm.trans hu))
        cases hwrite.symm.trans (isOpen_iff.1 hopen).2
      rw [visitOf_afterPasses_of_not_open n hclosed]
      rcases visitOf_realRun_cases h with ⟨hforetold, hvisit⟩ | ⟨hnot, e, hvisit⟩
      · -- There is nothing to write, so no pass changes the text.
        have hkept : (replaceCalls .withOpacity t).changed = false :=
          Bool.eq_false_iff.2 fun hchanged => by cases hwrite.symm.trans (hforetold hchanged)
        rw [hvisit, Function.iterate_fixed (rewriteText_of_not_changed hkept)]
        exact iff_of_true rfl ⟨hforetold, rfl, rfl⟩
      · -- The dry run has a record of what cannot be written.
        rw [hvisit]
        refine iff_of_false (fun hnone => hnot fun hchanged => ?_) fun h => hnot h.1
        have hidle := Visit.record?_eq_none_iff.1 hnone.symm
        rw [← Outcome.changed_eq_false_iff, hchanged] at hidle
        cases hidle.1

-- A file that gives no record gives none after passes either.
theorem record?_afterPasses_eq_none (n : FileId → Nat)
    (h : (s.visitOf { c with dryRun := true } p).record? = none) :
    ((s.afterPasses n).visitOf { c with dryRun := false } p).record? = none := by
  cases hread : s.readText p with
  | error e =>
      have hread' := readText_afterPasses s n p
      rw [hread] at hread'
      rw [visitOf_of_error hread']
      rfl
  | ok x =>
      rcases x with ⟨id, t⟩
      have hidle := h
      rw [visitOf_dryRun hread, Visit.record?_eq_none_iff, ← Outcome.changed_eq_false_iff] at hidle
      refine Eq.trans ((record?_visitOf_eq_iff n hread).2 ⟨fun hc => ?_, ?_⟩) h
      · cases hidle.1.symm.trans hc
      · rw [Function.iterate_fixed (rewriteText_of_not_changed hidle.1)]
        exact ⟨rfl, rfl⟩

/-! ## Errors and records -/

/-- The errors of a dry run are those of the real one exactly when all that has to be
    written can be. -/
theorem errors_eq_iff (s : Store) (c : Config) :
    (s.visits { c with dryRun := true } (s.sourceFiles c).1).filterMap Visit.error? =
        (s.visits { c with dryRun := false } (s.sourceFiles c).1).filterMap Visit.error? ↔
      ∀ id t, s.HasText id t → 0 < s.timesListed c id → s.Foretold id t := by
  -- A visit without an error in the real run has none in the dry run.
  have hnone : ∀ p ∈ (s.sourceFiles c).1, (s.visitOf { c with dryRun := false } p).error? = none →
      (s.visitOf { c with dryRun := true } p).error? = none := by
    intro p _ h
    cases hread : s.readText p with
    | error e =>
        rw [visitOf_of_error hread] at h
        cases h
    | ok x =>
        rw [visitOf_dryRun hread]
        rfl
  rw [error?_visits, error?_visits, filterMap_eq_filterMap_iff hnone]
  constructor
  · intro h id t ht hlisted
    rcases List.countP_pos_iff.1 hlisted with ⟨p, hp, hlead⟩
    exact (error?_visitOf_eq_iff (readText_eq_ok_iff.2 ⟨leadsTo_iff.1 hlead, ht⟩)).1 (h p hp)
  · intro h p hp
    cases hread : s.readText p with
    | error e => rw [visitOf_of_error hread, visitOf_of_error hread]; rfl
    | ok x =>
        rcases readText_eq_ok_iff.1 hread with ⟨hf, ht⟩
        have hlisted := List.countP_pos_iff.2 ⟨p, hp, leadsTo_iff.2 hf⟩
        exact (error?_visitOf_eq_iff hread).2 (h x.1 x.2 ht hlisted)

/-- The records of a dry run are those of the real one exactly when all that has to be
    written can be, and no listed path meets a text on which it reports otherwise than
    on the one before the run. -/
theorem records_eq_iff (s : Store) (c : Config) :
    (s.visits { c with dryRun := true } (s.sourceFiles c).1).filterMap Visit.record? =
        (s.visits { c with dryRun := false } (s.sourceFiles c).1).filterMap Visit.record? ↔
      ∀ id t, s.HasText id t → ∀ k < s.timesListed c id, s.Foretold id t ∧
        (replaceCalls .withOpacity (rewriteText^[k] t)).replacements =
            (replaceCalls .withOpacity t).replacements ∧
          (replaceCalls .withOpacity (rewriteText^[k] t)).unbalancedLine? =
            (replaceCalls .withOpacity t).unbalancedLine? := by
  -- A visit without a record in the dry run has none in the real run.
  have hnone : ∀ x ∈ (s.sourceFiles c).1.zipIdx,
      (s.visitOf { c with dryRun := true } x.1).record? = none →
        ((s.afterVisits ((s.sourceFiles c).1.take x.2)).visitOf
          { c with dryRun := false } x.1).record? = none :=
    fun x _ h => record?_afterPasses_eq_none _ h
  rw [eq_comm, visits_dryRun, visits_realRun, List.filterMap_map, List.filterMap_map]
  refine (filterMap_eq_filterMap_iff hnone).trans ?_
  constructor
  · intro h id t ht k hk
    -- Some listed path leads to the file and comes behind `k` others that do.
    rcases exists_countP_take hk with ⟨i, p, hp, hlead, rfl⟩
    exact (record?_visitOf_eq_iff _ (readText_eq_ok_iff.2 ⟨leadsTo_iff.1 hlead, ht⟩)).1
      (h (p, i) (List.mk_mem_zipIdx_iff_getElem?.2 hp))
  · rintro h ⟨p, i⟩ hx
    have hp := List.mk_mem_zipIdx_iff_getElem?.1 hx
    show ((s.afterVisits ((s.sourceFiles c).1.take i)).visitOf
        { c with dryRun := false } p).record? =
      (s.visitOf { c with dryRun := true } p).record?
    cases hread : s.readText p with
    | error e =>
        have hread' := readText_afterPasses s
          (fun id => ((s.sourceFiles c).1.take i).countP (s.leadsTo id)) p
        rw [hread] at hread'
        rw [afterVisits, visitOf_of_error hread', visitOf_of_error hread]
        rfl
    | ok x =>
        rcases readText_eq_ok_iff.1 hread with ⟨hf, ht⟩
        exact (record?_visitOf_eq_iff _ hread).2
          (h x.1 x.2 ht _ (countP_take_lt hp (leadsTo_iff.2 hf)))

end Store

/-! ## Reports -/

/-- A dry run looks at as many files as the real run. It has the same errors exactly
    when every text that listed paths lead to and that a pass changes lets itself be
    written, and it has the same records exactly when each such text besides gives,
    however often it has been passed over by the time that one of these paths is
    reached, as many replacements as at first and the same unbalanced line. Where all
    files let themselves be written the errors are the same, and where no file has two
    listed paths in addition the records are. -/
theorem dryRun_report_eq_iff (s : Store) (c : Config) :
    let dry := (Session.process { store := s } { c with dryRun := true }).1
    let real := (Session.process { store := s } { c with dryRun := false }).1
    dry.filesScanned = real.filesScanned ∧
      (dry.errors = real.errors ↔
        (s.isDirectory c.searchDir = true →
          ∀ id t, s.HasText id t → 0 < s.timesListed c id → s.Foretold id t)) ∧
      (dry.records = real.records ↔
        (s.isDirectory c.searchDir = true →
          ∀ id t, s.HasText id t → ∀ k < s.timesListed c id, s.Foretold id t ∧
            (replaceCalls .withOpacity (rewriteText^[k] t)).replacements =
                (replaceCalls .withOpacity t).replacements ∧
              (replaceCalls .withOpacity (rewriteText^[k] t)).unbalancedLine? =
                (replaceCalls .withOpacity t).unbalancedLine?)) ∧
      ((∀ id, (s.access id).write = none) → dry.errors = real.errors ∧
        ((∀ id, s.timesListed c id ≤ 1) → dry.records = real.records)) := by
  intro dry real
  by_cases hdir : s.isDirectory c.searchDir = true
  · have hdry : dry = _ := Session.process_report (s := { store := s }) rfl hdir
    have hreal : real = _ := Session.process_report (s := { store := s }) rfl hdir
    have hrecords := s.records_eq_iff c
    have herrors := (List.append_right_inj (s.sourceFiles c).2).trans (s.errors_eq_iff c)
    rw [hdry, hreal]
    refine ⟨?_, ?_, ?_, fun hwrite => ⟨?_, fun honce => ?_⟩⟩
    · exact (s.length_visits _ _).trans (s.length_visits _ _).symm
    · exact herrors.trans (imp_iff_right hdir).symm
    · exact hrecords.trans (imp_iff_right hdir).symm
    · exact herrors.2 fun id t _ _ _ => hwrite id
    · refine hrecords.2 fun id t _ k hk => ⟨fun _ => hwrite id, ?_⟩
      have hzero : k = 0 := Nat.lt_one_iff.1 (Nat.lt_of_lt_of_le hk (honce id))
      rw [hzero, Function.iterate_zero_apply]
      exact ⟨rfl, rfl⟩
  · -- Without a directory to search there is nothing to report.
    have hdry : dry = _ := Session.process_report_of_no_directory (s := { store := s }) hdir
    have hreal : real = _ := Session.process_report_of_no_directory (s := { store := s }) hdir
    rw [hdry, hreal]
    exact ⟨rfl, iff_of_true rfl fun h => absurd h hdir, iff_of_true rfl fun h => absurd h hdir,
      fun _ => ⟨rfl, fun _ => rfl⟩⟩

/-- A directory with a file and a link to that file beside it. -/
def linkedTwice : Store where
  top :=
    .directory (.ofString "lib" (by decide))
      (.file (.ofString "a.dart" (by decide)) 0
        (.link (.ofString "b.dart" (by decide)) (.ofString "a.dart") .empty))
      .empty
  ordered := by
    simp [Folder.Ordered, Folder.names]
    decide
  bytes := fun _ => encodeText ".withOpacity(1)".toList
  here := []

/-- The real run replaces the call on its first visit and finds none behind the
    link, where the dry run finds it again. -/
theorem dryRun_records_differ :
    let c : Config := ⟨.ofString "/", .ofString "lib", "dart", true⟩
    let dry := (Session.process { store := linkedTwice } c).1
    let real := (Session.process { store := linkedTwice } { c with dryRun := false }).1
    dry.records.map FileRecord.path = ["lib/a.dart", "lib/b.dart"] ∧
      real.records.map FileRecord.path = ["lib/a.dart"] ∧ real ≠ { dry with dryRun := false } := by
  intro c dry real
  have hdry : dry.records.map FileRecord.path = ["lib/a.dart", "lib/b.dart"] := by decide +kernel
  have hreal : real.records.map FileRecord.path = ["lib/a.dart"] := by decide +kernel
  refine ⟨hdry, hreal, fun e => ?_⟩
  -- From here on the two lists are enough, and the runs stay unopened.
  clear_value dry real
  rw [e] at hreal
  exact absurd (hdry.symm.trans hreal) (by decide)

end Codemod
