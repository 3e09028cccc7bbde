import Codemod.Proofs.Creation
import Codemod.Proofs.LoggedRuns

/-!
# What a Log Holds

A log repeats what a run says, and nothing else gets into it.

Saying a line appends it to the log, because the log writes at a position of its
own and that position is the end of the file. It stays the end of the file as
long as nobody else writes to it, and the only others that write are the visits.
So the invariant is that the log is open behind the lines that it holds, and it
survives every visit to a path that does not lead to the log.

Everything that a run says goes through the log: first what is for the log only,
then what goes to standard error while the run goes over the tree, then the
report on standard output, and at last the summary, for the log only again. As
nothing goes to standard error after the report has begun, the two streams stand
in the log one behind the other.

## Main definitions

* `Session.Logs`: A log is open behind the lines that it holds.
* `Plan.openingLines`, `closingLines`: What is for the log only.

## Theorems

* `Session.Logs.note`, `Session.Logs.visit`: One step.
* `Session.Logs.process`: Going over the tree.
* `Session.openLog_of_log`: A log that is opened.
* `log_repeats_streams`: The log of a run.
* `log_repeats_streams_beside_file`: A run with something to say on both streams.
-/

namespace Codemod

theorem toUTF8_unlines_append (lines lines' : List String) :
    (unlines (lines ++ lines')).toUTF8 = (unlines lines).toUTF8 ++ (unlines lines').toUTF8 := by
  rw [unlines_append]
  exact String.toByteArray_append

theorem unlines_singleton (line : String) : unlines [line] = line ++ "\n" := by
  simp [unlines]

/-! ## Sessions with a log -/

namespace Session

/-- The log of a session holds certain lines and is written on behind them. -/
structure Logs (s : Session) (path : Path) (id : FileId) (lines : List String) : Prop where
  log : s.log = some ⟨path, id, (unlines lines).toUTF8.size⟩
  bytes : s.store.bytes id = (unlines lines).toUTF8

namespace Logs

variable {s : Session} {path : Path} {id : FileId} {lines : List String} {c : Config} {p : Path}

/-- A line that is said is the next line of the log. -/
theorem note (h : s.Logs path id lines) (line : String) :
    (s.note line).Logs path id (lines ++ [line]) := by
  have hlines : (unlines (lines ++ [line])).toUTF8 =
      (unlines lines).toUTF8 ++ (line ++ "\n").toUTF8 := by
    rw [toUTF8_unlines_append, unlines_singleton]
  simp only [Session.note, h.log]
  refine ⟨?_, (if_pos rfl).trans ?_⟩
  · rw [hlines, ByteArray.size_append]
  · rw [hlines, h.bytes, overwriteAt_size]

theorem print (h : s.Logs path id lines) (line : String) :
    (s.print line).Logs path id (lines ++ [line]) :=
  note (s := { s with out := s.out ++ [line] }) ⟨h.log, h.bytes⟩ line

theorem warn (h : s.Logs path id lines) (line : String) :
    (s.warn line).Logs path id (lines ++ [line]) :=
  note (s := { s with err := s.err ++ [line] }) ⟨h.log, h.bytes⟩ line

/-- What is said step by step is in the log in the order of the steps. -/
theorem foldl {α : Type} {f : Session → α → Session} {line : α → String}
    (hf : ∀ {s : Session} {lines}, s.Logs path id lines → ∀ x,
      (f s x).Logs path id (lines ++ [line x]))
    (h : s.Logs path id lines) (xs : List α) :
    (xs.foldl f s).Logs path id (lines ++ xs.map line) := by
  induction xs generalizing s lines with
  | nil => rwa [List.map_nil, List.append_nil]
  | cons x xs ih =>
      rw [List.map_cons, List.append_cons]
      exact ih (hf h x)

/-- A visit to a path that does not lead to the log adds to it what it says. -/
theorem visit (h : s.Logs path id lines) (hp : s.store.fileAt p ≠ .ok id) :
    (s.visit c p).2.Logs path id (lines ++ (s.visit c p).1.warning?.toList) := by
  have hwritten : Logs { s with store := (s.store.updateFile p c.dryRun).2 } path id lines :=
    ⟨h.log, (Store.updateFile_bytes_of_ne hp c.dryRun).trans h.bytes⟩
  simp only [Session.visit]
  split
  · rename_i hnone
    rw [hnone, Option.toList_none, List.append_nil]
    exact hwritten
  · rename_i line hline
    rw [hline]
    exact hwritten.warn line

theorem visitAll (h : s.Logs path id lines) {ps : List Path}
    (hps : ∀ p ∈ ps, s.store.fileAt p ≠ .ok id) :
    (s.visitAll c ps).2.Logs path id
      (lines ++ (s.visitAll c ps).1.filterMap Visit.warning?) := by
  induction ps generalizing s lines with
  | nil => rwa [Session.visitAll, List.filterMap_nil, List.append_nil]
  | cons p ps ih =>
      have hrest : ∀ q ∈ ps, (s.visit c p).2.store.fileAt q ≠ .ok id := fun q hq => by
        rw [(proceeds_visit s c p).fileAt]
        exact hps q (List.mem_cons_of_mem p hq)
      rw [warning?_visitAll_cons, ← List.append_assoc]
      exact ih (h.visit (hps p List.mem_cons_self)) hrest

/-- Going over a tree that does not list the log adds to the log what is said on
    standard error. -/
theorem process (h : s.Logs path id lines) (hid : s.store.Unlisted c id) :
    ∃ said, s.Proceeds [] said (s.process c).2 ∧ (s.process c).2.Logs path id (lines ++ said) := by
  cases hfound : s.store.seen? c with
  | none =>
      rw [process_of_seen?_none hfound]
      exact ⟨_, (speaks_warn s _).toProceeds, h.warn _⟩
  | some found =>
      obtain ⟨files, errors⟩ := found
      have hwarned := speaks_foldl_warn s errors
      have hlogs := h.foldl (fun h (e : FileError) => h.warn e.line) errors
      have hfiles : ∀ p ∈ files, (errors.foldl (fun s e => s.warn e.line) s).store.fileAt p ≠
          .ok id := fun p hp => by
        rw [hwarned.fileAt]
        exact hid _ hfound p hp
      rw [process_eq_of_seen?_some hfound]
      refine ⟨_, hwarned.toProceeds.trans (proceeds_visitAll _ c files), ?_⟩
      rw [← List.append_assoc]
      exact hlogs.visitAll hfiles

end Logs

/-! ## Opening and closing -/

variable {s : Session}

/-- A log that is opened is an empty file under the path for it. -/
theorem openLog_of_log {root : Path} {tool : String} {started : Moment} {log : LogFile}
    (hnone : s.log = none) (h : (s.openLog root tool started).log = some log) :
    log.path = logPath root tool started ∧ ∃ under made, s.store.GrowsTo under ∧
      under.create log.path = .ok (log.id, made) ∧
      s.openLog root tool started =
        { s with store := made, log := some ⟨log.path, log.id, 0⟩ } := by
  have hgrows := (s.store.growsTo_makeDirectories (logDirectory root tool started)).1
  -- A session that has to go on without a log has none.
  have hunlogged : ∀ (under : Store) (line line' : String),
      (({ s with store := under }.warn line).warn line').log ≠ some log := by
    intro under line line' hsome
    have hsaid := (speaks_warn { s with store := under } line).trans (speaks_warn _ line')
    have hfile := hsaid.logFile?
    rw [logFile?, logFile?, hsome, hnone] at hfile
    cases hfile
  rw [openLog] at h ⊢
  revert h hgrows
  generalize logPath root tool started = path
  rcases s.store.makeDirectories (logDirectory root tool started) with ⟨under, _ | e⟩ <;>
    intro h hgrows
  · cases hcreate : under.create path with
    | error e =>
        simp only [hcreate] at h
        exact absurd h (hunlogged under _ _)
    | ok made =>
        obtain ⟨id, made⟩ := made
        simp only [hcreate, Option.some.injEq] at h
        subst h
        exact ⟨rfl, under, made, hgrows, hcreate, by simp only [hcreate]⟩
  · exact absurd h (hunlogged under _ _)

end Session

/-- The lines of a log before anything is said on the console. -/
def Plan.openingLines (plan : Plan) : List String :=
  s!"Entering directory '{plan.config.root}'" ::
    if plan.config.dryRun then ["DRY RUN MODE: Will not modify files"] else []

/-- The lines that a log ends with. -/
def closingLines (path : Path) (summary : String) (t : Timing) : List String :=
  ["", "=== Run Summary ===", summary,
    s!"Started: {t.started.stamp}",
    s!"Ended: {t.ended.stamp}",
    s!"Duration: {t.milliseconds}ms",
    s!"Log saved to: {path}"]

namespace Session.Logs

variable {s : Session} {path : Path} {id : FileId} {lines : List String}

theorem closeLog (h : s.Logs path id lines) (summary : String) (t : Timing) :
    (s.closeLog summary t.started t.ended t.milliseconds).Logs path id
      (lines ++ closingLines path summary t) := by
  have hsaid := h.foldl (fun h line => h.note line) (closingLines path summary t)
  rw [List.map_id'] at hsaid
  simp only [Session.closeLog, h.log]
  exact hsaid

end Session.Logs

namespace Plan

variable {plan : Plan} {s : Store} {started : Moment} {log : LogFile}

/-- A run that keeps a log begins with an empty one and has said nothing yet. -/
theorem opened_of_log (h : (plan.opened s started).log = some log) :
    let opened := plan.opened s started
    log.path = logPath plan.logRoot plan.tool started ∧ opened.Logs log.path log.id [] ∧
      opened.out = [] ∧ opened.err = [] ∧
      (s.IsSomewhere → opened.store.fileAt log.path = .ok log.id) := by
  cases hlogging : plan.logging with
  | false =>
      rw [opened_of_not_logging hlogging] at h
      cases h
  | true =>
      rw [opened_of_logging hlogging] at h ⊢
      rcases Session.openLog_of_log rfl h with ⟨hpath, under, made, hgrows, hcreate, hopen⟩
      rw [hopen]
      exact ⟨hpath, ⟨rfl, Store.bytes_create hcreate⟩, rfl, rfl, fun hs =>
        Store.fileAt_create (hgrows.isSomewhere hs) hcreate⟩

theorem logs_begin {path : Path} {id : FileId} (h : (plan.opened s started).Logs path id []) :
    (plan.begin s started).Logs path id plan.openingLines := by
  have hentered := h.note s!"Entering directory '{plan.config.root}'"
  rw [begin, openingLines]
  split
  · exact hentered.note _
  · exact hentered

end Plan

/-- A run whose log is created, and is none of the files that the run goes through,
    prints its report on standard output and nothing else. Its log is found under
    the path for it and holds the opening lines, all of standard error, all of
    standard output, and the summary. -/
theorem log_repeats_streams (plan : Plan) (s : Store) (t : Timing) {log : LogFile}
    (hlog : (plan.opened s t.started).log = some log)
    (hid : (plan.opened s t.started).store.Unlisted plan.config log.id) :
    let run := plan.run s t
    run.2.out = run.1.printed plan.format ∧
      run.2.store.bytes log.id = (unlines (plan.openingLines ++ run.2.err ++ run.2.out ++
        closingLines log.path run.1.summary t)).toUTF8 ∧
      log.path = logPath plan.logRoot plan.tool t.started ∧
      (s.IsSomewhere → run.2.store.fileAt log.path = .ok log.id) := by
  intro run
  rcases Plan.opened_of_log hlog with ⟨hpath, hopened, hout, herr, hfile⟩
  have hbegin := plan.speaks_begin s t.started
  rcases (Plan.logs_begin hopened).process (hbegin.unlisted hid) with ⟨said, hsaid, hlogs⟩
  have hconsole := (hbegin.toProceeds.trans hsaid).trans (plan.speaks_run s t).toProceeds
  have hstdout : run.2.out = run.1.printed plan.format := by
    rw [hconsole.out, hout]
    rfl
  have hstderr : run.2.err = said := by
    rw [hconsole.err, herr]
    exact List.append_nil said
  have hprinted := hlogs.foldl (fun h line => h.print line) (run.1.printed plan.format)
  rw [List.map_id'] at hprinted
  have hclosed : run.2.Logs log.path log.id _ := hprinted.closeLog run.1.summary t
  refine ⟨hstdout, ?_, hpath, fun hs => ?_⟩
  · rw [hclosed.bytes, hstdout, hstderr]
  · rw [hconsole.fileAt]
    exact hfile hs

/-- A directory with a file in it that holds a call and a head without a closer. -/
def unclosedFile : Store :=
  { loneFile with bytes := fun _ => encodeText ".withOpacity(1)\n.withOpacity(".toList }

/-- A dry run over such a directory that keeps a log in it. -/
def loggedDryRun : Plan :=
  ⟨toolName, .ofString "/", true, .text, ⟨.ofString "/", .ofString ".", "dart", true⟩⟩

/-- A run with something to say on both streams, whose log is created in the
    directory that it goes through. -/
theorem log_repeats_streams_beside_file :
    let run := loggedDryRun.run unclosedFile oneSecond
    ∃ log, (loggedDryRun.opened unclosedFile oneSecond.started).log = some log ∧
      run.2.err ≠ [] ∧ run.2.out = run.1.printed .text ∧
      run.2.store.bytes log.id = (unlines (loggedDryRun.openingLines ++ run.2.err ++ run.2.out ++
        closingLines log.path run.1.summary oneSecond)).toUTF8 ∧
      run.2.store.fileAt log.path = .ok log.id := by
  intro run
  have hfile : (loggedDryRun.opened unclosedFile oneSecond.started).logFile? = some 1 := by
    decide +kernel
  have hseen : (loggedDryRun.opened unclosedFile oneSecond.started).store.seen?
      loggedDryRun.config = some ([.ofString "/./w.dart"], []) := by decide +kernel
  have hlead : ((loggedDryRun.opened unclosedFile oneSecond.started).store.fileAt
      (.ofString "/./w.dart")).toOption = some 0 := by decide +kernel
  have hsaid : run.2.err ≠ [] := by decide +kernel
  rcases Option.map_eq_some_iff.1 hfile with ⟨log, hlog, hone⟩
  have hid : (loggedDryRun.opened unclosedFile oneSecond.started).store.Unlisted
      loggedDryRun.config log.id := by
    intro found hfound p hp hsame
    obtain rfl := Option.some.inj (hseen.symm.trans hfound)
    obtain rfl := List.mem_singleton.1 hp
    rw [hsame, hone] at hlead
    cases hlead
  rcases log_repeats_streams loggedDryRun unclosedFile oneSecond hlog hid with
    ⟨hout, hbytes, -, hfound⟩
  exact ⟨log, hlog, hsaid, hout, hbytes, hfound rfl⟩

end Codemod
