import Codemod.Proofs.SideBySide
import Codemod.Run

/-!
# Runs with a Log

What it changes about a run to keep a log of it.

The log is created in the tree that the run is about to search, before the
search. Whether it is created or not, directories may have been made for it, and
with them and the log file the run may see what it would not have seen: the log
itself, if logs have the extension in question, a source directory that is one of
the directories of the log, or the end of a link that led nowhere before.

If it sees nothing of the kind, keeping a log changes nothing but the log. If it
does see something, then this shows in what it says: in the number of files or
of errors that it reports, or in the missing complaint about a missing source
directory. The one case apart is a log that is written over a file which the run
would have gone through anyway.

## Main definitions

* `OsError.logWarnings`: What is said when there can be no log.
* `Plan.opened`: The session in which a run begins.

## Theorems

* `Session.openLog_cases`: Opening a log.
* `Plan.run_cases`: A run between its beginning and its end.
* `log_unnoticed_iff`: When keeping a log goes unnoticed.
* `log_noticed`: A run that goes through its own log.
-/

namespace Codemod

theorem unlines_append (lines lines' : List String) :
    unlines (lines ++ lines') = unlines lines ++ unlines lines' := by
  rw [unlines, List.map_append, String.join_append, unlines, unlines]

/-! ## Opening a log -/

/-- What is said when there can be no log. -/
def OsError.logWarnings (e : OsError) : List String :=
  ["Warning: Could not create log file: " ++ e.message, "Continuing without logging..."]

namespace Session

variable {s s' : Session} {c : Config}

/-- Opening a log adds to the store. Either the log is open then and empties its
    file, or it is refused and no file has changed. -/
theorem openLog_cases (s : Session) (root : Path) (tool : String) (started : Moment) :
    (∃ log store, s.store.GrowsTo store ∧
        (∀ id, id ≠ log.id → store.bytes id = s.store.bytes id) ∧
        (∀ id, id ≠ log.id → store.access id = s.store.access id) ∧
        s.openLog root tool started = { s with store := store, log := some log }) ∨
      ∃ e : OsError, ∃ store, s.store.GrowsTo store ∧ store.bytes = s.store.bytes ∧
        store.access = s.store.access ∧
        s.openLog root tool started = e.logWarnings.foldl warn { s with store := store } := by
  have hdirs := s.store.growsTo_makeDirectories (logDirectory root tool started)
  rw [openLog]
  revert hdirs
  rcases s.store.makeDirectories (logDirectory root tool started) with ⟨store, _ | e⟩ <;>
    intro hdirs
  · cases hcreate : store.create (logPath root tool started) with
    | error e =>
        exact .inr ⟨e, store, hdirs.1, hdirs.2.1, hdirs.2.2, by simp only [hcreate]; rfl⟩
    | ok made =>
        obtain ⟨id, made⟩ := made
        rcases Store.growsTo_create hcreate with ⟨hgrows, hbytes, haccess⟩
        exact .inl ⟨⟨logPath root tool started, id, 0⟩, made, hdirs.1.trans hgrows,
          fun i hi => (hbytes i hi).trans (congrFun hdirs.2.1 i),
          fun i hi => (haccess i hi).trans (congrFun hdirs.2.2 i), by simp only [hcreate]⟩
  · exact .inr ⟨e, store, hdirs.1, hdirs.2.1, hdirs.2.2, rfl⟩

/-- A session without a log goes on beside the one in which its log is opened. -/
theorem beside_openLog (hlog : s.log = none) (root : Path) (tool : String) (started : Moment) :
    let opened := s.openLog root tool started
    Beside s opened ∧ s.store.GrowsTo opened.store ∧ opened.out = s.out ∧
      ((opened.logFile? ≠ none ∧ opened.err = s.err) ∨
        opened.logFile? = none ∧ ∃ e : OsError, opened.err = s.err ++ e.logWarnings) := by
  have hnone : s.logFile? = none := congrArg (Option.map LogFile.id) hlog
  rcases s.openLog_cases root tool started with
    ⟨log, store, hgrows, hbytes, haccess, hopen⟩ | ⟨e, store, hgrows, hbytes, haccess, hopen⟩
  · have hother : ∀ id, some log.id ≠ some id → id ≠ log.id := fun id hid e =>
      hid (congrArg some e.symm)
    rw [hopen]
    exact ⟨⟨hnone, fun id hid => haccess id (hother id hid), fun id hid =>
      hbytes id (hother id hid)⟩, hgrows, rfl, .inl ⟨nofun, rfl⟩⟩
  · have hsaid := speaks_foldl speaks_warn { s with store := store } e.logWarnings
      (List.flatMap_eq_nil_iff.2 fun _ _ => rfl) (List.flatMap_singleton' _)
    have hbeside : Beside s { s with store := store } :=
      ⟨hnone, fun id _ => congrFun haccess id, fun id _ => congrFun hbytes id⟩
    rw [hopen]
    exact ⟨hbeside.speaks (.refl s) hsaid, hgrows.trans hsaid.growsTo,
      hsaid.out.trans (List.append_nil _), .inr ⟨hsaid.logFile?.trans hnone, e, hsaid.err⟩⟩

-- A run that said less than the other had a directory to search where the other had none.
theorem Beside.seen?_eq_of_said (h : Beside s s') (hgrows : s.store.GrowsTo s'.store)
    (hunlisted : ∀ id, s'.logFile? = some id → s.store.Unlisted c id)
    (hreport : (s'.process c).1 = (s.process c).1) {said said' : List String}
    (hsaid : s.Proceeds [] said (s.process c).2) (hsaid' : s'.Proceeds [] said' (s'.process c).2)
    (htext : unlines said' = unlines said) : s'.store.seen? c = s.store.seen? c := by
  cases hfound : s.store.seen? c with
  | some found =>
      rw [← hfound]
      exact h.seen?_eq_of_report hgrows hunlisted (by simp [hfound]) hreport
  | none =>
      cases hfound' : s'.store.seen? c with
      | none => rfl
      | some found =>
          rcases said_of_newly_seen hfound (by simp [hfound']) hreport with ⟨line, hline, hsilent⟩
          rw [hline.err_unique hsaid, hsilent.err_unique hsaid'] at htext
          simp [unlines] at htext

end Session

/-! ## Runs -/

namespace Plan

/-- The session in which a run begins. -/
def opened (plan : Plan) (store : Store) (started : Moment) : Session :=
  if plan.logging then ({ store := store } : Session).openLog plan.logRoot plan.tool started
  else { store := store }

variable {plan : Plan}

theorem opened_of_logging (h : plan.logging = true) (store : Store) (started : Moment) :
    plan.opened store started =
      ({ store := store } : Session).openLog plan.logRoot plan.tool started := if_pos h

theorem opened_of_not_logging (h : plan.logging = false) (store : Store) (started : Moment) :
    plan.opened store started = { store := store } := if_neg (by simp [h])

theorem speaks_begin (plan : Plan) (store : Store) (started : Moment) :
    (plan.opened store started).Speaks [] [] (plan.begin store started) := by
  rw [begin]
  split
  · exact (Session.speaks_note _ _).trans (Session.speaks_note _ _)
  · exact Session.speaks_note _ _

-- Once it has gone over the tree, a run says its report and writes the end of the log.
theorem speaks_run (plan : Plan) (store : Store) (t : Timing) :
    ((plan.begin store t.started).process plan.config).2.Speaks
      ((plan.run store t).1.printed plan.format) [] (plan.run store t).2 := by
  have hprint := Session.speaks_foldl Session.speaks_print
    ((plan.begin store t.started).process plan.config).2
    (((plan.begin store t.started).process plan.config).1.printed plan.format)
    (List.flatMap_singleton' _) (List.flatMap_eq_nil_iff.2 fun _ _ => rfl)
  have hclose := Session.speaks_closeLog (plan.carryOut store t.started).2
    (plan.carryOut store t.started).1.summary t.started t.ended t.milliseconds
  have hend := hprint.trans hclose
  rw [List.append_nil] at hend
  exact hend

/-- A run says something into the log, goes over the tree and prints its report.
    What it says on the console besides, it says while it goes over the tree. -/
theorem run_cases (plan : Plan) (store : Store) (t : Timing) :
    ∃ s : Session, (plan.opened store t.started).Speaks [] [] s ∧
      (plan.run store t).1 = (s.process plan.config).1 ∧
      (s.process plan.config).2.Speaks ((plan.run store t).1.printed plan.format) []
        (plan.run store t).2 :=
  ⟨plan.begin store t.started, plan.speaks_begin store t.started, rfl, plan.speaks_run store t⟩

/-- A run with a log next to the same run without. What they say besides their
    reports may differ. Suppose that the log is not written over a file that the run
    without it goes through. If what they say and the reports are the same, then both
    see the same, and if both see the same, then nothing differs but the log. -/
theorem run_with_log {plan' : Plan} (hplan : plan.logging = false)
    (hplan' : plan' = { plan with logging := true }) (s : Store) (t t' : Timing) :
    ∃ said said',
      ({ store := s } : Session).Proceeds ((plan.run s t).1.printed plan.format) said
          (plan.run s t).2 ∧
        (plan'.opened s t'.started).Proceeds ((plan'.run s t').1.printed plan.format) said'
          (plan'.run s t').2 ∧
        ((∀ id, (plan'.opened s t'.started).logFile? = some id → s.Unlisted plan.config id) →
          ((plan'.run s t').1 = (plan.run s t).1 → unlines said' = unlines said →
            (plan'.opened s t'.started).store.seen? plan.config = s.seen? plan.config) ∧
          ((plan'.opened s t'.started).store.seen? plan.config = s.seen? plan.config →
            (plan'.run s t').1 = (plan.run s t).1 ∧ said' = said ∧
              Session.Beside (plan.run s t).2 (plan'.run s t').2)) := by
  have hconfig : plan'.config = plan.config := by rw [hplan']
  have hformat : plan'.format = plan.format := by rw [hplan']
  rcases Session.beside_openLog (s := { store := s }) rfl plan'.logRoot plan'.tool t'.started with
    ⟨hbeside, hgrows, -, -⟩
  rcases plan.run_cases s t with ⟨b, hb, hreport, hend⟩
  rcases plan'.run_cases s t' with ⟨b', hb', hreport', hend'⟩
  rw [← opened_of_logging (by rw [hplan'])] at hbeside hgrows
  rw [opened_of_not_logging hplan] at hb
  rw [hconfig] at hreport' hend'
  rw [hformat] at hend'
  -- These are the two sessions at the point where they start to go over the tree.
  have hbegin : Session.Beside b b' := hbeside.speaks hb hb'
  have hadded : b.store.GrowsTo b'.store := hb.growsTo_back.trans (hgrows.trans hb'.growsTo)
  rcases b.proceeds_process plan.config with ⟨said, hsaid⟩
  rcases b'.proceeds_process plan.config with ⟨said', hsaid'⟩
  refine ⟨said, said', ?_, ?_, fun hunlisted => ?_⟩
  · simpa using (hb.toProceeds.trans hsaid).trans hend.toProceeds
  · simpa using (hb'.toProceeds.trans hsaid').trans hend'.toProceeds
  have hspared : ∀ id, b'.logFile? = some id → b.store.Unlisted plan.config id := fun id hid =>
    hb.unlisted (hunlisted id (hb'.logFile?.symm.trans hid))
  refine ⟨fun hsame htext => ?_, fun hseen => ?_⟩
  · rw [hreport, hreport'] at hsame
    have hseen := hbegin.seen?_eq_of_said hadded hspared hsame hsaid hsaid' htext
    rwa [hb.seen?, hb'.seen?] at hseen
  · rw [← hb.seen?, ← hb'.seen?] at hseen
    rcases hbegin.process hadded hspared hseen with ⟨hsame, hafter, both, hboth, hboth'⟩
    refine ⟨hreport'.trans (hsame.trans hreport.symm), ?_, hafter.speaks hend hend'⟩
    exact (hboth'.err_unique hsaid').trans (hboth.err_unique hsaid).symm

end Plan

/-! ## Commands -/

namespace CommandResult

variable (s : Session)

@[simp] theorem exitCode_ofSession : (ofSession s).exitCode = 0 := rfl

@[simp] theorem out_ofSession : (ofSession s).out = unlines s.out := rfl

@[simp] theorem err_ofSession : (ofSession s).err = unlines s.err := rfl

@[simp] theorem store_ofSession : (ofSession s).store = s.store := rfl

end CommandResult

theorem Store.command_of_options {s : Store} {argv : List String} {o : Options}
    (hargv : Options.ofWords argv = .ok o) (t : Timing) :
    s.command argv t = .ofSession ((o.plan s.workingDirectory).run s t).2 := by
  rw [command, hargv]

/-- A command that keeps a log ends with the same status as without, and the
    paths that lead to files go on leading to them. If the log cannot be created,
    it says so in two lines before anything else. Suppose that the log is not
    written over a file that the command goes through without it. Then the report,
    both streams but for these lines, and the bytes of all files but the log are
    the same exactly when the search sees the same after the log was opened as
    before. -/
theorem log_unnoticed_iff (s : Store) (o : Options) (t t' : Timing) {argv argv' : List String}
    (hargv : Options.ofWords argv = .ok { o with log := false })
    (hargv' : Options.ofWords argv' = .ok { o with log := true }) :
    let plan := { o with log := false }.plan s.workingDirectory
    let plan' := { o with log := true }.plan s.workingDirectory
    let opened := plan'.opened s t'.started
    let plain := s.command argv t
    let logged := s.command argv' t'
    logged.exitCode = plain.exitCode ∧
      ((opened.logFile? ≠ none ∧ opened.err = []) ∨
        opened.logFile? = none ∧ ∃ e : OsError, opened.err = e.logWarnings) ∧
      (∃ rest, logged.err = unlines opened.err ++ rest) ∧
      (∀ p id, plain.store.fileAt p = .ok id → logged.store.fileAt p = .ok id) ∧
      ((∀ id, opened.logFile? = some id → s.Unlisted (o.config s.workingDirectory) id) →
        (((plan'.run s t').1 = (plan.run s t).1 ∧ logged.out = plain.out ∧
            logged.err = unlines opened.err ++ plain.err ∧
            ∀ id, opened.logFile? ≠ some id → logged.store.bytes id = plain.store.bytes id) ↔
          opened.store.seen? (o.config s.workingDirectory) =
            s.seen? (o.config s.workingDirectory))) := by
  intro plan plan' opened plain logged
  have hunlogged : plan.logging = false := rfl
  have hlogging : plan'.logging = true := rfl
  have hplan' : plan' = { plan with logging := true } := rfl
  have hopen := Plan.opened_of_logging hlogging s t'.started
  rcases Session.beside_openLog (s := { store := s }) rfl plan'.logRoot plan'.tool t'.started with
    ⟨-, hgrows, hout, hopened⟩
  rw [← hopen] at hgrows hout hopened
  simp only [List.nil_append] at hopened
  rcases Plan.run_with_log hunlogged hplan' s t t' with ⟨said, said', hsaid, hsaid', hiff⟩
  have hplain : plain = .ofSession (plan.run s t).2 := Store.command_of_options hargv t
  have hlogged : logged = .ofSession (plan'.run s t').2 := Store.command_of_options hargv' t'
  -- From here on only what the two runs leave counts, and they stay unopened.
  clear_value plain logged
  subst hplain hlogged
  simp only [CommandResult.exitCode_ofSession, CommandResult.out_ofSession,
    CommandResult.err_ofSession, CommandResult.store_ofSession, true_and]
  have herr : unlines (plan'.run s t').2.err = unlines opened.err ++ unlines said' := by
    rw [hsaid'.err, unlines_append]
  refine ⟨hopened, ⟨_, herr⟩, fun p id hp => ?_, fun hunlisted => ?_⟩
  · rw [hsaid.fileAt] at hp
    rw [hsaid'.fileAt, hgrows.fileAt (by rw [hp]; exact nofun)]
    exact hp
  rcases hiff hunlisted with ⟨hseen, hsame⟩
  refine ⟨?_, fun h => ?_⟩
  · rintro ⟨hreport, -, htext, -⟩
    rw [herr, hsaid.err, String.append_right_inj, List.nil_append] at htext
    exact hseen hreport htext
  · rcases hsame h with ⟨hreport, rfl, hbeside⟩
    refine ⟨hreport, ?_, ?_, fun id hid => hbeside.bytes id (hsaid'.logFile? ▸ hid)⟩
    · rw [hsaid.out, hsaid'.out, hout, hreport]
    · rw [herr, hsaid.err, List.nil_append]

/-- A second by the clock. -/
def oneSecond : Timing := ⟨⟨2024, 1, 2, 3, 4, 5⟩, ⟨2024, 1, 2, 3, 4, 6⟩, 1000⟩

/-- A directory with nothing in it but a file. -/
def loneFile : Store where
  top := .file (.ofString "w.dart" (by decide)) 0 .empty
  ordered := by
    simp [Folder.Ordered, Folder.names]
  bytes := fun _ => encodeText ".withOpacity(1)".toList
  here := []

/-- A log that is created beside the file which the command goes through is none of
    its files. -/
theorem log_unnoticed_beside_file :
    let t : Timing := ⟨⟨2024, 1, 2, 3, 4, 5⟩, ⟨2024, 1, 2, 3, 4, 6⟩, 1000⟩
    let plain := loneFile.command ["-s", "."] t
    let logged := loneFile.command ["-s", ".", "--log"] t
    logged.out = plain.out ∧ logged.err = plain.err ∧
      logged.store.bytes 0 = plain.store.bytes 0 := by
  intro t
  let o : Options := { sourceDir := .ofString "." }
  let opened := ({ o with log := true }.plan loneFile.workingDirectory).opened loneFile t.started
  have hargv : Options.ofWords ["-s", "."] = .ok { o with log := false } := rfl
  have hargv' : Options.ofWords ["-s", ".", "--log"] = .ok { o with log := true } := rfl
  have hfile : opened.logFile? = some 1 := by decide +kernel
  have hsaid : opened.err = [] := by decide +kernel
  have hseen : loneFile.seen? (o.config loneFile.workingDirectory) =
      some ([.ofString "/./w.dart"], []) := by decide +kernel
  have hseen' : opened.store.seen? (o.config loneFile.workingDirectory) =
      some ([.ofString "/./w.dart"], []) := by decide +kernel
  have hlead : loneFile.fileAt (.ofString "/./w.dart") = .ok 0 := rfl
  have hunlisted : ∀ id, opened.logFile? = some id →
      loneFile.Unlisted (o.config loneFile.workingDirectory) id := by
    intro id hid found hfound p hp
    obtain rfl := Option.some.inj (hseen.symm.trans hfound)
    obtain rfl := List.mem_singleton.1 hp
    obtain rfl := Option.some.inj (hfile.symm.trans hid)
    rw [hlead]
    exact nofun
  have h := log_unnoticed_iff loneFile o t t hargv hargv'
  rcases (h.2.2.2.2 hunlisted).2 (hseen'.trans hseen.symm) with ⟨-, hout, herr, hbytes⟩
  refine ⟨hout, ?_, hbytes 0 (by rw [hfile]; exact nofun)⟩
  rw [herr, hsaid]
  exact String.empty_append

/-- A command that goes through the files of logs goes through its own. -/
theorem log_noticed :
    let t : Timing := ⟨⟨2024, 1, 2, 3, 4, 5⟩, ⟨2024, 1, 2, 3, 4, 6⟩, 1000⟩
    let plain := Store.empty.command ["-s", ".", "-e", "log", "--format", "json"] t
    let logged := Store.empty.command ["-s", ".", "-e", "log", "--format", "json", "--log"] t
    plain.exitCode = 0 ∧ logged.exitCode = 0 ∧ plain.err = "" ∧ logged.err = "" ∧
      logged.out ≠ plain.out := by
  decide +kernel

end Codemod
