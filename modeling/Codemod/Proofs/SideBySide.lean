import Codemod.Proofs.Growth
import Codemod.Proofs.Storage

/-!
# Sessions Side by Side

A session with a log next to one without, taking the same steps.

What a session says goes to the console and, if there is a log, into one file of
the store. Saying a line therefore changes no bytes but those of that file, and
it changes neither where paths lead nor what a search finds. A visit reads one
file and may write to it. Where both sessions have the same bytes in that file,
and it is not the log, the visit comes to the same in both of them and leaves
them with the same bytes.

So two sessions that agree on all files but the log go on agreeing for as long
as the paths that they visit lead them to the same files. On the console they
may differ, by what was said before.

## Main definitions

* `Store.seen?`: What a run sees of a store.
* `Store.Unlisted`: A run does not come upon a file.
* `Session.logFile?`: The file that a session keeps its log in.
* `Session.Proceeds`: A session went on, and said something on the console.
* `Session.Speaks`: All that it did was to say something.
* `Session.Beside`: Two sessions agree on all files but the log.
* `Session.Shares`: A path leads two sessions to one file, which is no log.

## Theorems

* `Session.speaks_foldl`: Things said in a row.
* `Session.proceeds_visitAll`: What visits in a row say.
* `Session.Beside.visitAll`: Visits in a row, in two sessions.
* `Session.Beside.process`: Two runs that see the same.
* `Session.Beside.seen?_eq_of_report`: Two runs that report the same.
-/

namespace Codemod

/-! ## What a run sees -/

namespace Store

/-- What a run sees of a store: the files that it goes through and the errors of
    the search, if there is a directory to search. -/
def seen? (s : Store) (c : Config) : Option (List Path × List FileError) :=
  if s.isDirectory c.searchDir then some (s.sourceFiles c) else none

/-- No file that a run goes through is the one with the number `id`. -/
def Unlisted (s : Store) (c : Config) (id : FileId) : Prop :=
  ∀ found, s.seen? c = some found → ∀ p ∈ found.1, s.fileAt p ≠ .ok id

variable {s s' : Store} {p : Path}

theorem seen?_eq_some_iff {c : Config} {found : List Path × List FileError} :
    s.seen? c = some found ↔ s.isDirectory c.searchDir = true ∧ s.sourceFiles c = found := by
  rw [seen?, Option.ite_none_right_eq_some, Option.some.injEq]

-- What was found before is still found, so nothing can be new on either side.
theorem GrowsTo.seen?_eq (h : s.GrowsTo s') (h' : s'.GrowsTo s) (c : Config) :
    s'.seen? c = s.seen? c := by
  by_cases hdir : s.isDirectory c.searchDir = true
  · have hdir' := h.isDirectory hdir
    rcases h.sourceFiles hdir with ⟨hfiles, herrors⟩
    rcases h'.sourceFiles hdir' with ⟨hfiles', herrors'⟩
    rw [seen?, seen?, if_pos hdir, if_pos hdir']
    exact congrArg some (Prod.ext (hfiles'.eq_of_length_le hfiles.length_le)
      (herrors'.eq_of_length_le herrors.length_le))
  · rw [seen?, seen?, if_neg hdir, if_neg (mt h'.isDirectory hdir)]

/-! ## One file -/

theorem readText_congr (hfile : s'.fileAt p = s.fileAt p)
    (haccess : ∀ id, s.fileAt p = .ok id → s'.access id = s.access id)
    (hbytes : ∀ id, s.fileAt p = .ok id → s'.bytes id = s.bytes id) :
    s'.readText p = s.readText p := by
  rw [readText, readText, hfile]
  split
  · rfl
  · rw [haccess _ ‹_›, hbytes _ ‹_›]

/-- What is written comes from what was read, and goes where it came from. -/
theorem updateFile_congr (hread : s'.readText p = s.readText p)
    (haccess : ∀ id, s.fileAt p = .ok id → s'.access id = s.access id) (dryRun : Bool) :
    (s'.updateFile p dryRun).1 = (s.updateFile p dryRun).1 ∧
      ∀ id, s'.bytes id = s.bytes id →
        (s'.updateFile p dryRun).2.bytes id = (s.updateFile p dryRun).2.bytes id := by
  cases h : s.readText p with
  | error e =>
      rw [updateFile_of_error h, updateFile_of_error (hread.trans h)]
      exact ⟨rfl, fun id hid => hid⟩
  | ok read =>
      rcases read with ⟨i, t⟩
      have h' := hread.trans h
      have hi := haccess i (readText_eq_ok_iff.1 h).1
      by_cases hwrite : (replaceCalls .withOpacity t).changed = true ∧ dryRun = false
      · cases he : (s.access i).write with
        | some e =>
            rw [updateFile_of_refused h hwrite he, updateFile_of_refused h' hwrite (hi ▸ he)]
            exact ⟨rfl, fun id hid => hid⟩
        | none =>
            rw [updateFile_of_written h hwrite he, updateFile_of_written h' hwrite (hi ▸ he)]
            exact ⟨rfl, fun id hid => by simp only [setBytes, hid]⟩
      · rw [updateFile_of_kept h hwrite, updateFile_of_kept h' hwrite]
        exact ⟨rfl, fun id hid => hid⟩

/-- A visit changes no more than bytes, and those only in the file that its path leads
    to. -/
theorem updateFile_shape (s : Store) (p : Path) (dryRun : Bool) :
    let next := (s.updateFile p dryRun).2
    next.top = s.top ∧ next.here = s.here ∧ next.access = s.access ∧
      ∀ id, s.fileAt p ≠ .ok id → next.bytes id = s.bytes id := by
  intro next
  have hnext : next = s ∨ ∃ i t, s.readText p = .ok (i, t) ∧
      next = s.setBytes i (encodeText (rewriteText t)) := by
    cases h : s.readText p with
    | error e => exact .inl (congrArg Prod.snd (updateFile_of_error h dryRun))
    | ok read =>
        rcases read with ⟨i, t⟩
        by_cases hwrite : (replaceCalls .withOpacity t).changed = true ∧ dryRun = false
        · cases he : (s.access i).write with
          | some e => exact .inl (congrArg Prod.snd (updateFile_of_refused h hwrite he))
          | none =>
              exact .inr ⟨i, t, rfl, congrArg Prod.snd (updateFile_of_written h hwrite he)⟩
        · exact .inl (congrArg Prod.snd (updateFile_of_kept h hwrite))
  rcases hnext with hsame | ⟨i, t, hread, hset⟩
  · rw [hsame]
    exact ⟨rfl, rfl, rfl, fun _ _ => rfl⟩
  · rw [hset]
    refine ⟨rfl, rfl, rfl, fun id hid => if_neg fun e => hid ?_⟩
    rw [e]
    exact (readText_eq_ok_iff.1 hread).1

-- What is written moves no paths.
theorem fileAt_updateFile (s : Store) (q : Path) (dryRun : Bool) (p : Path) :
    (s.updateFile q dryRun).2.fileAt p = s.fileAt p := by
  rcases s.updateFile_shape q dryRun with ⟨htop, hhere, -⟩
  simp only [fileAt, locate, htop, hhere]

-- A file that the path does not lead to is left alone.
theorem updateFile_bytes_of_ne {s : Store} {p : Path} {id : FileId} (h : s.fileAt p ≠ .ok id)
    (dryRun : Bool) : (s.updateFile p dryRun).2.bytes id = s.bytes id :=
  (s.updateFile_shape p dryRun).2.2.2 id h

end Store

/-! ## Going on with a session -/

/-- The line that reports an error of a search. -/
def FileError.line (e : FileError) : String := s!"ERROR processing {e.path}: {e.message}"

namespace Session

/-- The file that a session keeps its log in. -/
def logFile? (s : Session) : Option FileId := s.log.map LogFile.id

/-- A session went on from `s` to `s'`, and has said `out` and `err` on the
    console meanwhile. It may have changed bytes. -/
structure Proceeds (s : Session) (out err : List String) (s' : Session) : Prop where
  top : s'.store.top = s.store.top
  here : s'.store.here = s.store.here
  access : s'.store.access = s.store.access
  logFile? : s'.logFile? = s.logFile?
  out : s'.out = s.out ++ out
  err : s'.err = s.err ++ err

/-- A session went on without changing any bytes but those of the log. -/
structure Speaks (s : Session) (out err : List String) (s' : Session) : Prop
    extends Proceeds s out err s' where
  bytes : ∀ id, s.logFile? ≠ some id → s'.store.bytes id = s.store.bytes id

variable {s s' t t' : Session} {out err out' err' : List String} {c : Config}

namespace Proceeds

theorem trans (h : s.Proceeds out err t) (h' : t.Proceeds out' err' t') :
    s.Proceeds (out ++ out') (err ++ err') t' where
  top := h'.top.trans h.top
  here := h'.here.trans h.here
  access := h'.access.trans h.access
  logFile? := h'.logFile?.trans h.logFile?
  out := by rw [h'.out, h.out, List.append_assoc]
  err := by rw [h'.err, h.err, List.append_assoc]

-- What is said can be told from the console before and after.
theorem err_unique (h : s.Proceeds out err t) (h' : s.Proceeds out' err' t) : err' = err :=
  List.append_cancel_left (h'.err.symm.trans h.err)

theorem fileAt (h : s.Proceeds out err t) (p : Path) : t.store.fileAt p = s.store.fileAt p := by
  simp only [Store.fileAt, Store.locate, h.top, h.here]

theorem growsTo (h : s.Proceeds out err t) : s.store.GrowsTo t.store :=
  ⟨h.top ▸ .refl s.store.top, h.here⟩

theorem growsTo_back (h : s.Proceeds out err t) : t.store.GrowsTo s.store :=
  ⟨h.top ▸ .refl t.store.top, h.here.symm⟩

theorem seen? (h : s.Proceeds out err t) (c : Config) : t.store.seen? c = s.store.seen? c :=
  h.growsTo.seen?_eq h.growsTo_back c

theorem unlisted (h : s.Proceeds out err t) {id : FileId} (hid : s.store.Unlisted c id) :
    t.store.Unlisted c id := by
  intro found hfound p hp
  rw [h.seen?] at hfound
  rw [h.fileAt]
  exact hid found hfound p hp

end Proceeds

/-! ## Saying something -/

theorem Speaks.refl (s : Session) : s.Speaks [] [] s :=
  ⟨⟨rfl, rfl, rfl, rfl, (List.append_nil _).symm, (List.append_nil _).symm⟩, fun _ _ => rfl⟩

theorem Speaks.trans (h : s.Speaks out err t) (h' : t.Speaks out' err' t') :
    s.Speaks (out ++ out') (err ++ err') t' where
  toProceeds := h.toProceeds.trans h'.toProceeds
  bytes id hid := (h'.bytes id (h.logFile? ▸ hid)).trans (h.bytes id hid)

theorem speaks_note (s : Session) (line : String) : s.Speaks [] [] (s.note line) := by
  rw [note]
  split
  · exact .refl s
  · rename_i log hlog
    have hfile : s.logFile? = some log.id := congrArg (Option.map LogFile.id) hlog
    refine ⟨⟨rfl, rfl, rfl, hfile.symm, (List.append_nil _).symm, (List.append_nil _).symm⟩, ?_⟩
    intro id hid
    exact if_neg fun e => hid (hfile.trans (congrArg some e.symm))

theorem speaks_print (s : Session) (line : String) : s.Speaks [line] [] (s.print line) :=
  have hout : s.Speaks [line] [] { s with out := s.out ++ [line] } :=
    ⟨⟨rfl, rfl, rfl, rfl, rfl, (List.append_nil _).symm⟩, fun _ _ => rfl⟩
  hout.trans (speaks_note _ line)

theorem speaks_warn (s : Session) (line : String) : s.Speaks [] [line] (s.warn line) :=
  have herr : s.Speaks [] [line] { s with err := s.err ++ [line] } :=
    ⟨⟨rfl, rfl, rfl, rfl, (List.append_nil _).symm, rfl⟩, fun _ _ => rfl⟩
  herr.trans (speaks_note _ line)

/-- What is said step by step is said in the order of the steps. -/
theorem speaks_foldl {α : Type} {f : Session → α → Session} {said said' : α → List String}
    (hf : ∀ (s : Session) x, s.Speaks (said x) (said' x) (f s x)) (s : Session) (xs : List α)
    (hout : xs.flatMap said = out) (herr : xs.flatMap said' = err) :
    s.Speaks out err (xs.foldl f s) := by
  subst hout herr
  induction xs generalizing s with
  | nil => exact .refl s
  | cons x xs ih => exact (hf s x).trans (ih (f s x))

theorem speaks_closeLog (s : Session) (summary : String) (started ended : Moment)
    (milliseconds : Int) : s.Speaks [] [] (s.closeLog summary started ended milliseconds) := by
  rw [closeLog]
  split
  · exact .refl s
  · exact speaks_foldl speaks_note s _ (by simp) (by simp)

/-! ## Visiting -/

theorem proceeds_visit (s : Session) (c : Config) (p : Path) :
    s.Proceeds [] (s.visit c p).1.warning?.toList (s.visit c p).2 := by
  have hstore : s.Proceeds [] [] { s with store := (s.store.updateFile p c.dryRun).2 } := by
    rcases s.store.updateFile_shape p c.dryRun with ⟨htop, hhere, haccess, -⟩
    exact ⟨htop, hhere, haccess, rfl, (List.append_nil _).symm, (List.append_nil _).symm⟩
  simp only [visit]
  split
  · rename_i hnone
    rw [hnone]
    exact hstore
  · rename_i line hline
    rw [hline]
    exact hstore.trans (speaks_warn _ line).toProceeds

theorem warning?_visitAll_cons (s : Session) (c : Config) (p : Path) (ps : List Path) :
    (s.visitAll c (p :: ps)).1.filterMap Visit.warning? =
      (s.visit c p).1.warning?.toList ++
        ((s.visit c p).2.visitAll c ps).1.filterMap Visit.warning? := by
  rw [visitAll, List.filterMap_cons]
  cases (s.visit c p).1.warning? <;> rfl

theorem proceeds_visitAll (s : Session) (c : Config) (ps : List Path) :
    s.Proceeds [] ((s.visitAll c ps).1.filterMap Visit.warning?) (s.visitAll c ps).2 := by
  induction ps generalizing s with
  | nil => exact (Speaks.refl s).toProceeds
  | cons p ps ih =>
      have h := (proceeds_visit s c p).trans (ih (s.visit c p).2)
      rw [warning?_visitAll_cons]
      exact h

theorem length_visitAll (s : Session) (c : Config) (ps : List Path) :
    (s.visitAll c ps).1.length = ps.length := by
  induction ps generalizing s with
  | nil => rfl
  | cons p ps ih => exact congrArg (· + 1) (ih (s.visit c p).2)

/-! ## Two sessions -/

/-- Two sessions, of which the first has no log, agree on all files but the log
    of the second. -/
structure Beside (s s' : Session) : Prop where
  unlogged : s.logFile? = none
  access : ∀ id, s'.logFile? ≠ some id → s'.store.access id = s.store.access id
  bytes : ∀ id, s'.logFile? ≠ some id → s'.store.bytes id = s.store.bytes id

/-- A path leads two sessions to the same file, and the second does not keep its
    log in it. -/
def Shares (s s' : Session) (p : Path) : Prop :=
  s'.store.fileAt p = s.store.fileAt p ∧ ∀ id, s'.logFile? = some id → s'.store.fileAt p ≠ .ok id

theorem Proceeds.shares (h : s.Proceeds out err t) (h' : s'.Proceeds out' err' t') {p : Path}
    (hp : Shares s s' p) : Shares t t' p := by
  rw [Shares, h.fileAt, h'.fileAt, h'.logFile?]
  exact hp

namespace Beside

theorem speaks (h : Beside s s') (hs : s.Speaks out err t) (hs' : s'.Speaks out' err' t') :
    Beside t t' where
  unlogged := hs.logFile?.trans h.unlogged
  access id hid := by
    rw [hs'.logFile?] at hid
    rw [hs'.access, h.access id hid, hs.access]
  bytes id hid := by
    rw [hs'.logFile?] at hid
    rw [hs'.bytes id hid, h.bytes id hid, hs.bytes id (by rw [h.unlogged]; exact nofun)]

-- The file that a shared path leads to is no log, so that both have it alike.
theorem access_of_shares (h : Beside s s') {p : Path} (hp : Shares s s' p) :
    ∀ id, s.store.fileAt p = .ok id → s'.store.access id = s.store.access id := fun id hid =>
  h.access id fun hlog => hp.2 id hlog (hp.1.trans hid)

theorem readText (h : Beside s s') {p : Path} (hp : Shares s s' p) :
    s'.store.readText p = s.store.readText p :=
  Store.readText_congr hp.1 (h.access_of_shares hp) fun id hid =>
    h.bytes id fun hlog => hp.2 id hlog (hp.1.trans hid)

theorem visit (h : Beside s s') {p : Path} (hp : Shares s s' p) :
    (s'.visit c p).1 = (s.visit c p).1 ∧ Beside (s.visit c p).2 (s'.visit c p).2 := by
  rcases Store.updateFile_congr (h.readText hp) (h.access_of_shares hp) c.dryRun with
    ⟨hresult, hbytes⟩
  have hstore : Beside { s with store := (s.store.updateFile p c.dryRun).2 }
      { s' with store := (s'.store.updateFile p c.dryRun).2 } := by
    refine ⟨h.unlogged, fun id hid => ?_, fun id hid => hbytes id (h.bytes id hid)⟩
    rw [(s'.store.updateFile_shape p c.dryRun).2.2.1, (s.store.updateFile_shape p c.dryRun).2.2.1]
    exact h.access id hid
  simp only [Session.visit, hresult, true_and]
  split
  · exact hstore
  · exact hstore.speaks (speaks_warn _ _) (speaks_warn _ _)

/-- Visits in a row come to the same, as long as the paths lead to the same
    files. -/
theorem visitAll (h : Beside s s') {ps : List Path} (hps : ∀ p ∈ ps, Shares s s' p) :
    (s'.visitAll c ps).1 = (s.visitAll c ps).1 ∧
      Beside (s.visitAll c ps).2 (s'.visitAll c ps).2 := by
  induction ps generalizing s s' with
  | nil => exact ⟨rfl, h⟩
  | cons p ps ih =>
      rcases h.visit (c := c) (hps p List.mem_cons_self) with ⟨hvisit, hbeside⟩
      -- A visit moves no paths, so those that come are shared as they were before it.
      have hrest : ∀ q ∈ ps, Shares (s.visit c p).2 (s'.visit c p).2 q := fun q hq =>
        (proceeds_visit s c p).shares (proceeds_visit s' c p)
          (hps q (List.mem_cons_of_mem p hq))
      rcases ih hbeside hrest with ⟨hvisits, hend⟩
      exact ⟨List.cons_eq_cons.2 ⟨hvisit, hvisits⟩, hend⟩

end Beside

/-! ## Runs -/

theorem process_of_seen?_none (h : s.store.seen? c = none) :
    s.process c =
      (⟨0, [], [], c.dryRun⟩, s.warn s!"Warning: Source directory not found: {c.searchDir}") := by
  rw [process, if_neg fun hdir => by rw [Store.seen?, if_pos hdir] at h; cases h]

theorem process_eq_of_seen?_some {files : List Path} {errors : List FileError}
    (h : s.store.seen? c = some (files, errors)) :
    s.process c =
      let warned := errors.foldl (fun s e => s.warn e.line) s
      let visits := (warned.visitAll c files).1
      (⟨visits.length, visits.filterMap Visit.record?,
        errors ++ visits.filterMap Visit.error?, c.dryRun⟩, (warned.visitAll c files).2) := by
  rcases Store.seen?_eq_some_iff.1 h with ⟨hdir, hfound⟩
  rw [process, if_pos hdir, hfound]
  rfl

theorem speaks_foldl_warn (s : Session) (errors : List FileError) :
    s.Speaks [] (errors.map FileError.line) (errors.foldl (fun s e => s.warn e.line) s) :=
  speaks_foldl (fun s (e : FileError) => speaks_warn s e.line) s errors (by simp)
    List.map_eq_flatMap.symm

theorem process_of_seen?_some {files : List Path} {errors : List FileError}
    (h : s.store.seen? c = some (files, errors)) :
    ∃ warned : Session, s.Speaks [] (errors.map FileError.line) warned ∧
      s.process c =
        let visits := (warned.visitAll c files).1
        (⟨visits.length, visits.filterMap Visit.record?,
          errors ++ visits.filterMap Visit.error?, c.dryRun⟩, (warned.visitAll c files).2) :=
  ⟨_, speaks_foldl_warn s errors, process_eq_of_seen?_some h⟩

theorem proceeds_process (s : Session) (c : Config) :
    ∃ said, s.Proceeds [] said (s.process c).2 := by
  cases hfound : s.store.seen? c with
  | none =>
      rw [process_of_seen?_none hfound]
      exact ⟨_, (speaks_warn s _).toProceeds⟩
  | some found =>
      rcases process_of_seen?_some hfound with ⟨warned, hwarned, hprocess⟩
      rw [hprocess]
      exact ⟨_, hwarned.toProceeds.trans (proceeds_visitAll warned c found.1)⟩

-- A listed path leads somewhere, and what is added to a store does not change that.
theorem shares_of_listed (hgrows : s.store.GrowsTo s'.store)
    (hunlisted : ∀ id, s'.logFile? = some id → s.store.Unlisted c id)
    {found : List Path × List FileError} (hfound : s.store.seen? c = some found) {p : Path}
    (hp : p ∈ found.1) : Shares s s' p := by
  rcases Store.seen?_eq_some_iff.1 hfound with ⟨hdir, rfl⟩
  have hfile := hgrows.fileAt (Store.fileAt_listed hdir hp)
  exact ⟨hfile, fun id hid => hfile ▸ hunlisted id hid _ hfound p hp⟩

namespace Beside

section Added

-- The second session has more in its store, and its log is none of the files that
-- the first goes through.
variable (h : Beside s s') (hgrows : s.store.GrowsTo s'.store)
  (hunlisted : ∀ id, s'.logFile? = some id → s.store.Unlisted c id)

include h hgrows hunlisted

theorem visitAll_found {found : List Path × List FileError} (hfound : s.store.seen? c = some found)
    (ht : s.Speaks out err t) (ht' : s'.Speaks out' err' t') :
    (t'.visitAll c found.1).1 = (t.visitAll c found.1).1 ∧
      Beside (t.visitAll c found.1).2 (t'.visitAll c found.1).2 :=
  (h.speaks ht ht').visitAll fun _ hp =>
    ht.shares ht'.toProceeds (shares_of_listed hgrows hunlisted hfound hp)

/-- Two runs that see the same files and the same errors come to the same report
    and say the same. -/
theorem process (hseen : s'.store.seen? c = s.store.seen? c) :
    (s'.process c).1 = (s.process c).1 ∧ Beside (s.process c).2 (s'.process c).2 ∧
      ∃ said, s.Proceeds [] said (s.process c).2 ∧ s'.Proceeds [] said (s'.process c).2 := by
  cases hfound : s.store.seen? c with
  | none =>
      rw [process_of_seen?_none hfound, process_of_seen?_none (hseen.trans hfound)]
      exact ⟨rfl, h.speaks (speaks_warn s _) (speaks_warn s' _), _,
        (speaks_warn s _).toProceeds, (speaks_warn s' _).toProceeds⟩
  | some found =>
      rcases process_of_seen?_some hfound with ⟨warned, hwarned, hprocess⟩
      rcases process_of_seen?_some (hseen.trans hfound) with ⟨warned', hwarned', hprocess'⟩
      rcases h.visitAll_found hgrows hunlisted hfound hwarned hwarned' with ⟨hvisits, hbeside⟩
      have hsaid := proceeds_visitAll warned' c found.1
      rw [hvisits] at hsaid
      rw [hprocess, hprocess', hvisits]
      exact ⟨rfl, hbeside, _, hwarned.toProceeds.trans (proceeds_visitAll warned c found.1),
        hwarned'.toProceeds.trans hsaid⟩

/-- The report tells how many files and errors there were. Where none can have
    been lost, equal reports are about the same ones. -/
theorem seen?_eq_of_report (hsome : s.store.seen? c ≠ none)
    (hreport : (s'.process c).1 = (s.process c).1) : s'.store.seen? c = s.store.seen? c := by
  rcases Option.ne_none_iff_exists'.1 hsome with ⟨⟨files, errors⟩, hfound⟩
  rcases Store.seen?_eq_some_iff.1 hfound with ⟨hdir, hlists⟩
  have hfound' : s'.store.seen? c = some (s'.store.sourceFiles c) :=
    Store.seen?_eq_some_iff.2 ⟨hgrows.isDirectory hdir, rfl⟩
  have hsub := hgrows.sourceFiles hdir
  rw [hfound, hfound']
  rw [hlists] at hsub
  generalize s'.store.sourceFiles c = found' at hsub hfound'
  obtain ⟨files', errors'⟩ := found'
  rcases process_of_seen?_some hfound with ⟨warned, hwarned, hprocess⟩
  rcases process_of_seen?_some hfound' with ⟨warned', hwarned', hprocess'⟩
  rw [hprocess, hprocess'] at hreport
  -- Equally many files are the same files, so the visits bring the same errors.
  have hcount := congrArg Report.filesScanned hreport
  dsimp only at hcount
  rw [length_visitAll, length_visitAll] at hcount
  obtain rfl := hsub.1.eq_of_length hcount.symm
  have hvisits := (h.visitAll_found hgrows hunlisted hfound hwarned hwarned').1
  have herrors := congrArg Report.errors hreport
  dsimp only at herrors hvisits
  rw [hvisits] at herrors
  rw [List.append_cancel_right herrors]

end Added

end Beside

/-- Where a run comes to the same report although another one had no directory to
    search, only the other one has something to say. -/
theorem said_of_newly_seen (hnone : s.store.seen? c = none) (hsome : s'.store.seen? c ≠ none)
    (hreport : (s'.process c).1 = (s.process c).1) :
    ∃ line, s.Proceeds [] [line] (s.process c).2 ∧ s'.Proceeds [] [] (s'.process c).2 := by
  rcases Option.ne_none_iff_exists'.1 hsome with ⟨⟨files, errors⟩, hfound⟩
  rcases process_of_seen?_some hfound with ⟨warned, hwarned, hprocess⟩
  rw [process_of_seen?_none hnone, hprocess] at hreport
  have hcount := congrArg Report.filesScanned hreport
  have herrors := congrArg Report.errors hreport
  dsimp only at hcount herrors
  rw [length_visitAll] at hcount
  obtain rfl := List.length_eq_zero_iff.1 hcount
  obtain rfl := (List.append_eq_nil_iff.1 herrors).1
  rw [process_of_seen?_none hnone, hprocess]
  exact ⟨_, (speaks_warn s _).toProceeds, hwarned.toProceeds⟩

end Session

end Codemod
