import Codemod.Proofs.Components
import Codemod.Proofs.Counting
import Codemod.Proofs.LoggedRuns
import Codemod.Proofs.ReportReading
import Codemod.Proofs.Visits

/-!
# Formats of a Report

Whether a run prints its report as lines or as JSON makes no difference to what
it does, and none to what it tells.

A run has come to its report before it looks at the format, so up to there all is
the same. What is left is to read the JSON back, and for that the counts in it
have to fit in 64 bits. They do if the files fit in the memory of a machine,
although a run may visit a file several times and passes make texts longer. For
a pass never adds a line feed or a capital O, and there is such an O in every
head. So the calls that a pass replaces, and the lines before a head that is
never closed, are counted by characters that were in the file from the start.

## Main definitions

* `Store.FitsMemory`: Files that a machine can hold.

## Theorems

* `replacements_le_count`, `unbalancedLine?_le_count`: What passes count.
* `Session.process_fits_counters`: The counts of a report.
* `Plan.run_of_not_logging`: A run without a log.
* `formats_tell_the_same`: A run in both formats.
* `formats_tell_the_same_of_mixed_files`: A run over files of all kinds.
-/

namespace Codemod

/-! ## Counting characters -/

/-- There are no more calls in a text than capital letters of their head. -/
theorem replacements_le_count (t : Text) :
    (replaceCalls .withOpacity t).replacements ≤ t.count 'O' := by
  have hcalls : ∀ calls : List Call,
      calls.length ≤ (calls.flatMap (Call.source .withOpacity)).count 'O' := by
    intro calls
    induction calls with
    | nil => exact Nat.le_refl 0
    | cons x calls ih =>
        have hhead : CallHead.withOpacity.text.count 'O' = 1 := by decide
        rw [List.flatMap_cons, List.count_append, List.length_cons, Call.source,
          List.count_append, List.count_append, hhead]
        omega
  have hsource := congrArg (List.count 'O') (Segmentation.source_ofText .withOpacity t)
  rw [Segmentation.source, List.count_append] at hsource
  have hle := hcalls (Segmentation.ofText .withOpacity t).calls
  rw [replaceCalls, Segmentation.outcome]
  dsimp only
  omega

/-- The number of the line of an unclosed head counts line feeds before the head, and
    the head. -/
theorem unbalancedLine?_le_count {t : Text} {line : Nat}
    (h : (replaceCalls .withOpacity t).unbalancedLine? = some line) :
    line ≤ t.count 'O' + t.count '\n' := by
  have hsource := Segmentation.source_ofText .withOpacity t
  rw [replaceCalls, Segmentation.outcome, Outcome.unbalancedLine?] at h
  generalize Segmentation.ofText .withOpacity t = g at h hsource
  obtain ⟨calls, tail⟩ := g
  cases tail with
  | clear rest => cases h
  | unclosed gap rest depth =>
      have hhead : CallHead.withOpacity.text.count 'O' = 1 := by decide
      obtain rfl := Option.some.inj h
      rw [← hsource, Segmentation.source, Tail.source]
      simp only [List.count_append, hhead]
      omega

theorem count_add_count_le_length {a b : Char} (hab : a ≠ b) (t : Text) :
    t.count a + t.count b ≤ t.length := by
  induction t with
  | nil => exact Nat.le_refl 0
  | cons x t ih =>
      rw [List.count_cons, List.count_cons, List.length_cons]
      by_cases ha : x = a
      · subst ha
        simp [hab]
        omega
      · simp [ha]
        split <;> omega

theorem length_le_size_encodeText (t : Text) : t.length ≤ (encodeText t).size := by
  have hsize : (encodeText t).size = t.bytes.length := rfl
  rw [hsize, Text.bytes_eq_flatMap]
  clear hsize
  induction t with
  | nil => exact Nat.le_refl 0
  | cons x t ih =>
      have hpos := List.length_pos_iff.2 (String.utf8EncodeChar_ne_nil (c := x))
      rw [List.flatMap_cons, List.length_append, List.length_cons]
      omega

/-! ## The counts of a run -/

/-- The listed files are no more, and no longer, than a machine can hold. -/
structure Store.FitsMemory (s : Store) (c : Config) : Prop where
  files : (s.sourceFiles c).1.length < UInt64.size
  bytes : ∀ p ∈ (s.sourceFiles c).1, ∀ id, s.fileAt p = .ok id → (s.bytes id).size < UInt64.size

-- However many passes come before it, a pass counts what was there from the start.
theorem Outcome.fits_counters_of_passes {t : Text} (ht : t.length < UInt64.size) (n : Nat) :
    let o := replaceCalls .withOpacity (rewriteText^[n] t)
    o.replacements < UInt64.size ∧ ∀ line, o.unbalancedLine? = some line → line < UInt64.size := by
  intro o
  have hcapitals := count_rewriteText_iterate_le (c := 'O') (by decide) n t
  have hfeeds := count_rewriteText_iterate_le (c := '\n') (by decide) n t
  have hboth := count_add_count_le_length (a := 'O') (b := '\n') (by decide) t
  refine ⟨?_, fun line hline => ?_⟩
  · have hcalls : o.replacements ≤ _ := replacements_le_count (rewriteText^[n] t)
    omega
  · have hlines := unbalancedLine?_le_count hline
    omega

namespace Store

variable {s : Store} {c : Config}

theorem FitsMemory.record? (h : s.FitsMemory c) {p : Path} (hp : p ∈ (s.sourceFiles c).1)
    (n : FileId → Nat) {r : FileRecord} (hr : ((s.afterPasses n).visitOf c p).record? = some r) :
    r.FitsCounters := by
  rcases exists_text_of_record? hr with ⟨id, u, hu, -, hrecord⟩
  rw [readText_afterPasses] at hu
  -- What the visit has read is what some passes leave of the text from before the run.
  cases hread : s.readText p with
  | error e =>
      rw [hread] at hu
      cases hu
  | ok x =>
      rcases x with ⟨i, t⟩
      rw [hread, Except.map, Except.ok.injEq, Prod.mk.injEq] at hu
      rcases hu with ⟨rfl, rfl⟩
      rcases readText_eq_ok_iff.1 hread with ⟨hf, -, hb⟩
      have hlength : t.length < UInt64.size := by
        refine Nat.lt_of_le_of_lt (length_le_size_encodeText t) ?_
        rw [← eq_encodeText_of_decodeText? hb]
        exact h.bytes p hp i hf
      rw [← (Visit.record?_eq_some_iff.1 hrecord).2]
      exact Outcome.fits_counters_of_passes hlength (s.passes n i)

end Store

/-- The counts in the report of a run fit in 64 bits. -/
theorem Session.process_fits_counters {s : Store} {c : Config} (h : s.FitsMemory c) :
    (Session.process { store := s } c).1.FitsCounters := by
  by_cases hdir : s.isDirectory c.searchDir = true
  · have hreport := process_report (s := { store := s }) rfl hdir
    rw [hreport]
    refine ⟨?_, fun r hr => ?_⟩
    · dsimp only
      rw [Store.length_visits]
      exact h.files
    · rcases List.mem_filterMap.1 hr with ⟨v, hv, hvr⟩
      rcases Store.exists_passes_of_mem_visits hv with ⟨p, hp, n, rfl⟩
      exact h.record? hp n hvr
  · rw [process_report_of_no_directory hdir]
    exact ⟨show 0 < UInt64.size by decide, nofun⟩

/-! ## Runs without a log -/

namespace Session

variable {s : Session}

theorem note_of_no_log (hlog : s.log = none) (line : String) : s.note line = s := by
  rw [note, hlog]

theorem print_of_no_log (hlog : s.log = none) (line : String) :
    s.print line = { s with out := s.out ++ [line] } :=
  note_of_no_log (s := { s with out := s.out ++ [line] }) hlog line

theorem foldl_print_of_no_log (hlog : s.log = none) (lines : List String) :
    lines.foldl print s = { s with out := s.out ++ lines } := by
  induction lines generalizing s with
  | nil => rw [List.foldl_nil, List.append_nil]
  | cons line lines ih =>
      have hrest := ih (s := { s with out := s.out ++ [line] }) hlog
      rw [List.foldl_cons, print_of_no_log hlog, hrest, List.append_assoc]
      rfl

theorem closeLog_of_no_log (hlog : s.log = none) (summary : String) (started ended : Moment)
    (milliseconds : Int) : s.closeLog summary started ended milliseconds = s := by
  rw [closeLog, hlog]

end Session

namespace Plan

/-- The same run with its report in another format. -/
def withFormat (plan : Plan) (format : ReportFormat) : Plan := { plan with format := format }

variable {plan : Plan}

/-- A run without a log goes over the tree and then prints its report. -/
theorem run_of_not_logging (h : plan.logging = false) (s : Store) (t : Timing) :
    let done := Session.process { store := s } plan.config
    plan.run s t = (done.1, { done.2 with out := done.1.printed plan.format }) := by
  intro done
  have hbegin : plan.begin s t.started = { store := s } := by
    simp only [begin, h, Bool.false_eq_true, if_false]
    split <;> rfl
  rcases Session.proceeds_process { store := s } plan.config with ⟨said, hsaid⟩
  have hlog : done.2.log = none := Option.map_eq_none_iff.1 hsaid.logFile?
  have hout : done.2.out = [] := hsaid.out
  have hprint := Session.foldl_print_of_no_log hlog (done.1.printed plan.format)
  rw [hout, List.nil_append] at hprint
  have hcarry : plan.carryOut s t.started =
      (done.1, { done.2 with out := done.1.printed plan.format }) := by
    rw [carryOut, hbegin]
    exact Prod.ext rfl hprint
  have hend : (plan.carryOut s t.started).2.log = none := by rw [hcarry]; exact hlog
  have hrun : plan.run s t = ((plan.carryOut s t.started).1, (plan.carryOut s t.started).2.closeLog
      (plan.carryOut s t.started).1.summary t.started t.ended t.milliseconds) := rfl
  rw [hrun, Session.closeLog_of_no_log hend, hcarry]

end Plan

/-- Two runs without a log over the same store, one of which prints its report as
    lines and the other as JSON, come to the same report, leave the same store and
    say the same on standard error. If the files fit in memory, the JSON is read
    back as that report, and its lines are what the other run prints. -/
theorem formats_tell_the_same (plan : Plan) (s : Store) (t t' : Timing)
    (hlogging : plan.logging = false) :
    let text := (plan.withFormat .text).run s t
    let json := (plan.withFormat .json).run s t'
    json.1 = text.1 ∧ json.2.store = text.2.store ∧ json.2.err = text.2.err ∧
      (s.FitsMemory plan.config →
        Report.ofText (unlines json.2.out).toList = .ok json.1 ∧
          unlines text.2.out = unlines json.1.lines) := by
  intro text json
  have hunlogged : ∀ format, (plan.withFormat format).logging = false := fun _ => hlogging
  have htext : text = _ := Plan.run_of_not_logging (hunlogged .text) s t
  have hjson : json = _ := Plan.run_of_not_logging (hunlogged .json) s t'
  rw [htext, hjson]
  exact ⟨rfl, rfl, rfl, fun hmemory =>
    ⟨Report.ofText_printed (Session.process_fits_counters hmemory), rfl⟩⟩

/-- A directory with a file that holds a call and a head without a closer, one that
    is no text, and a link to the first. -/
def mixedFiles : Store where
  top :=
    .directory (.ofString "app" (by decide))
      (.file (.ofString "calls.dart" (by decide)) 0
        (.file (.ofString "noise.dart" (by decide)) 1
          (.link (.ofString "twice.dart" (by decide)) (.ofString "calls.dart") .empty)))
      .empty
  ordered := by
    simp [Folder.Ordered, Folder.names]
    decide
  bytes := fun id =>
    if id = 0 then encodeText ".withOpacity(.withOpacity(1))\n.withOpacity(".toList
    else ⟨#[0xff]⟩
  here := []

/-- The plan of a run over that directory that keeps no log. -/
def plainPlan : Plan :=
  ⟨toolName, .ofString "/", false, .text, ⟨.ofString "/", .ofString "app", "dart", false⟩⟩

def mixedRun (format : ReportFormat) : Report × Session :=
  (plainPlan.withFormat format).run mixedFiles oneSecond

/-- A run with changed, unfinished and unreadable files to report. -/
theorem formats_tell_the_same_of_mixed_files :
    ((mixedRun .text).1.changedPaths ≠ [] ∧ (mixedRun .text).1.errors ≠ []) ∧
      (mixedRun .json).1 = (mixedRun .text).1 ∧
      (mixedRun .json).2.store = (mixedRun .text).2.store ∧
      (mixedRun .json).2.err = (mixedRun .text).2.err ∧
      Report.ofText (unlines (mixedRun .json).2.out).toList = .ok (mixedRun .json).1 ∧
      unlines (mixedRun .text).2.out = unlines (mixedRun .json).1.lines := by
  have hfiles : (mixedFiles.sourceFiles plainPlan.config).1 =
      ["/app/calls.dart", "/app/noise.dart", "/app/twice.dart"].map Path.ofString := by
    decide +kernel
  have hmemory : mixedFiles.FitsMemory plainPlan.config := by
    refine ⟨by rw [hfiles]; decide, fun p _ id _ => ?_⟩
    rw [mixedFiles]
    dsimp only
    split <;> decide
  have hreports : (mixedRun .text).1.changedPaths ≠ [] ∧ (mixedRun .text).1.errors ≠ [] := by
    decide +kernel
  rcases formats_tell_the_same plainPlan mixedFiles oneSecond oneSecond rfl with
    ⟨hreport, hstore, hsaid, hread⟩
  refine ⟨hreports, ?_⟩
  simp only [mixedRun]
  exact ⟨hreport, hstore, hsaid, hread hmemory⟩

end Codemod
