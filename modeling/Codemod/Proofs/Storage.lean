import Codemod.Proofs.Factorisation
import Codemod.Visit
import Mathlib.Logic.Function.Iterate

/-!
# What a Run Leaves in the Store

The store after a run, as a function of the store before it.

A run visits paths one by one and each visit sees what the visits before it have
written, so the store changes under the run. But a visit changes nothing except
bytes, and where a path leads depends on the shape of the store alone. All
visits of a run therefore agree on which file a path leads to, and what a run
does to a file is to pass over its text once for every listed path that leads
there. The order of the visits does not matter.

`Store.afterPasses` is that function: a number of passes for each file. Passes
in a row add up, and that is the whole induction along the list of paths.

A pass that changes nothing is not written, and a file that is not text is not
touched. Neither makes a difference to the bytes, because only the encoding of a
text is read as that text. A file that does not let itself be read or written
keeps its bytes, so no pass gets through to it.

## Main definitions

* `rewriteText`: The text that a pass leaves.
* `bytesAfter`: The bytes that passes leave.
* `Store.IsOpen`: A file that lets itself be read and written.
* `Store.HasText`: A file that lets itself be read and is text.
* `Store.leadsTo`, `Store.timesListed`: Which listed paths lead to a file.
* `Store.afterPasses`: The store that passes leave.
* `Store.afterVisits`: The store that visits to paths leave.

## Theorems

* `Store.readText_afterPasses`: Texts after passes.
* `Store.updateFile_store`: One visit.
* `Session.visitAll_store`: Visits in a row.
* `Session.process_of_isDirectory`: A run as its visits.
* `Session.process_store`: A run.
* `process_effect_on_store`: The effect of a run, file by file.
-/

namespace Codemod

/-! ## Passes over bytes -/

/-- The text that a pass leaves. -/
def rewriteText (t : Text) : Text := (replaceCalls .withOpacity t).text

theorem rewriteText_of_not_changed {t : Text} (h : (replaceCalls .withOpacity t).changed = false) :
    rewriteText t = t := text_replaceCalls_of_not_changed h

/-- The bytes that `n` passes leave of a file. Bytes that are no text stay. -/
def bytesAfter (n : Nat) (b : ByteArray) : ByteArray :=
  match decodeText? b with
  | none => b
  | some t => encodeText (rewriteText^[n] t)

theorem bytesAfter_of_not_text {b : ByteArray} (h : decodeText? b = none) (n : Nat) :
    bytesAfter n b = b := by
  rw [bytesAfter, h]

theorem bytesAfter_of_text {b : ByteArray} {t : Text} (h : decodeText? b = some t) (n : Nat) :
    bytesAfter n b = encodeText (rewriteText^[n] t) := by
  rw [bytesAfter, h]

@[simp] theorem bytesAfter_zero (b : ByteArray) : bytesAfter 0 b = b := by
  cases h : decodeText? b with
  | none => exact bytesAfter_of_not_text h 0
  | some t =>
      rw [bytesAfter_of_text h, Function.iterate_zero_apply]
      exact (eq_encodeText_of_decodeText? h).symm

theorem decodeText?_bytesAfter (n : Nat) (b : ByteArray) :
    decodeText? (bytesAfter n b) = (decodeText? b).map rewriteText^[n] := by
  cases h : decodeText? b with
  | none => rw [bytesAfter_of_not_text h, h, Option.map_none]
  | some t => rw [bytesAfter_of_text h, decodeText?_encodeText, Option.map_some]

-- Passes in a row add up.
theorem bytesAfter_bytesAfter (m n : Nat) (b : ByteArray) :
    bytesAfter n (bytesAfter m b) = bytesAfter (m + n) b := by
  have hread := decodeText?_bytesAfter m b
  cases h : decodeText? b with
  | none =>
      rw [bytesAfter_of_not_text h, bytesAfter_of_not_text h, bytesAfter_of_not_text h]
  | some t =>
      rw [h, Option.map_some] at hread
      rw [bytesAfter_of_text hread, bytesAfter_of_text h, Nat.add_comm, Function.iterate_add_apply]

/-! ## Passes over a store -/

namespace Store

/-- Whether a path leads to the file with a number. -/
def leadsTo (s : Store) (id : FileId) (p : Path) : Bool :=
  match s.fileAt p with
  | .ok i => i = id
  | .error _ => false

/-- The number of listed paths that lead to a file. -/
def timesListed (s : Store) (c : Config) (id : FileId) : Nat :=
  (s.sourceFiles c).1.countP (s.leadsTo id)

/-- A file lets itself be read and written. -/
def IsOpen (s : Store) (id : FileId) : Prop := s.access id = {}

instance (s : Store) : DecidablePred s.IsOpen := fun id =>
  inferInstanceAs (Decidable (s.access id = {}))

/-- How many of `n id` passes get through to the file `id`. -/
def passes (s : Store) (n : FileId → Nat) (id : FileId) : Nat := if s.IsOpen id then n id else 0

/-- The store that passes leave, `n id` of them over the file `id`. -/
def afterPasses (s : Store) (n : FileId → Nat) : Store :=
  { s with bytes := fun id => bytesAfter (s.passes n id) (s.bytes id) }

/-- The store that visits to paths leave. Each passes over the file that its path
    leads to, if there is one. -/
def afterVisits (s : Store) (ps : List Path) : Store :=
  s.afterPasses fun id => ps.countP (s.leadsTo id)

theorem leadsTo_iff {s : Store} {id : FileId} {p : Path} :
    s.leadsTo id p = true ↔ s.fileAt p = .ok id := by
  rw [leadsTo]
  cases s.fileAt p <;> simp

theorem isOpen_iff {s : Store} {id : FileId} :
    s.IsOpen id ↔ (s.access id).read = none ∧ (s.access id).write = none := by
  rw [IsOpen]
  rcases s.access id with ⟨read, write⟩
  simp

theorem passes_of_isOpen {s : Store} {id : FileId} (h : s.IsOpen id) (n : FileId → Nat) :
    s.passes n id = n id := if_pos h

theorem passes_of_not_isOpen {s : Store} {id : FileId} (h : ¬s.IsOpen id) (n : FileId → Nat) :
    s.passes n id = 0 := if_neg h

theorem afterPasses_eq_self {s : Store} {n : FileId → Nat}
    (h : ∀ id, s.IsOpen id → bytesAfter (n id) (s.bytes id) = s.bytes id) :
    s.afterPasses n = s := by
  have hbytes : ∀ id, bytesAfter (s.passes n id) (s.bytes id) = s.bytes id := by
    intro id
    by_cases hopen : s.IsOpen id
    · rw [passes_of_isOpen hopen, h id hopen]
    · rw [passes_of_not_isOpen hopen, bytesAfter_zero]
  rw [afterPasses, funext hbytes]

@[simp] theorem afterPasses_zero (s : Store) : s.afterPasses (fun _ => 0) = s :=
  afterPasses_eq_self fun id _ => bytesAfter_zero (s.bytes id)

@[simp] theorem bytes_afterPasses (s : Store) (n : FileId → Nat) (id : FileId) :
    (s.afterPasses n).bytes id = bytesAfter (s.passes n id) (s.bytes id) := rfl

@[simp] theorem isOpen_afterPasses (s : Store) (n : FileId → Nat) :
    (s.afterPasses n).IsOpen = s.IsOpen := rfl

theorem afterPasses_afterPasses (s : Store) (m n : FileId → Nat) :
    (s.afterPasses m).afterPasses n = s.afterPasses fun id => m id + n id := by
  have hadd : ∀ id, s.passes m id + s.passes n id = s.passes (fun id => m id + n id) id := by
    intro id
    by_cases hopen : s.IsOpen id
    · simp only [passes_of_isOpen hopen]
    · simp only [passes_of_not_isOpen hopen]
  have hsame : (s.afterPasses m).passes n = s.passes n := rfl
  rw [afterPasses, hsame]
  simp only [afterPasses, bytesAfter_bytesAfter, hadd]

-- Passes write bytes, and no path is looked up in bytes.
@[simp] theorem fileAt_afterPasses (s : Store) (n : FileId → Nat) (p : Path) :
    (s.afterPasses n).fileAt p = s.fileAt p := rfl

@[simp] theorem leadsTo_afterPasses (s : Store) (n : FileId → Nat) :
    (s.afterPasses n).leadsTo = s.leadsTo := rfl

@[simp] theorem isDirectory_afterPasses (s : Store) (n : FileId → Nat) (p : Path) :
    (s.afterPasses n).isDirectory p = s.isDirectory p := rfl

-- The induction follows the folder. A link is looked up from the top, where nothing
-- is different.
theorem searchFolder_of_bytes (s : Store) (bytes : FileId → ByteArray) (dir : Path) (d : Folder) :
    { s with bytes := bytes }.searchFolder dir d = s.searchFolder dir d := by
  induction d generalizing dir with
  | empty => rfl
  | file name id rest ih => rw [searchFolder, searchFolder, ih]
  | link name target rest ih =>
      rw [searchFolder, searchFolder, ih]
      rfl
  | directory name entries rest ihe ih => rw [searchFolder, searchFolder, ihe, ih]

/-- What a search lists does not depend on any bytes. -/
theorem sourceFiles_of_bytes (s : Store) (bytes : FileId → ByteArray) (c : Config) :
    { s with bytes := bytes }.sourceFiles c = s.sourceFiles c := by
  have hsearch : { s with bytes := bytes }.search c.searchDir = s.search c.searchDir := by
    have hlocate : { s with bytes := bytes }.locate true c.searchDir =
      s.locate true c.searchDir := rfl
    rw [search, search, hlocate]
    rcases s.locate true c.searchDir with _ | ⟨_ | _ | _ | _⟩
    · rfl
    · exact searchFolder_of_bytes s bytes _ _
    · rfl
    · rfl
    · rfl
  rw [sourceFiles, sourceFiles, hsearch]

@[simp] theorem sourceFiles_afterPasses (s : Store) (n : FileId → Nat) (c : Config) :
    (s.afterPasses n).sourceFiles c = s.sourceFiles c := sourceFiles_of_bytes s _ c

@[simp] theorem sourceFiles_setBytes (s : Store) (id : FileId) (b : ByteArray) (c : Config) :
    (s.setBytes id b).sourceFiles c = s.sourceFiles c := sourceFiles_of_bytes s _ c

@[simp] theorem timesListed_afterPasses (s : Store) (n : FileId → Nat) (c : Config) :
    (s.afterPasses n).timesListed c = s.timesListed c := by
  funext id
  rw [timesListed, timesListed, sourceFiles_afterPasses]
  rfl

@[simp] theorem afterVisits_nil (s : Store) : s.afterVisits [] = s := afterPasses_zero s

-- Later visits find the paths leading where they led before.
theorem afterVisits_append (s : Store) (ps qs : List Path) :
    (s.afterVisits ps).afterVisits qs = s.afterVisits (ps ++ qs) := by
  simp only [afterVisits, leadsTo_afterPasses, afterPasses_afterPasses, List.countP_append]

/-! ## Texts -/

/-- A file lets itself be read, and what is read is text. -/
def HasText (s : Store) (id : FileId) (t : Text) : Prop :=
  (s.access id).read = none ∧ decodeText? (s.bytes id) = some t

variable {s : Store} {p : Path} {id : FileId} {t : Text}

theorem readText_of_error {e : OsError} (h : s.fileAt p = .error e) :
    s.readText p = .error (.unread p e) := by
  rw [readText, h]

theorem readText_of_refused {e : OsError} (h : s.fileAt p = .ok id)
    (he : (s.access id).read = some e) : s.readText p = .error (.unread p e) := by
  simp only [readText, h, he]

theorem readText_of_not_text (h : s.fileAt p = .ok id) (hread : (s.access id).read = none)
    (hb : decodeText? (s.bytes id) = none) : s.readText p = .error (.notText p) := by
  simp only [readText, h, hread, hb]

theorem readText_eq_ok_iff :
    s.readText p = .ok (id, t) ↔ s.fileAt p = .ok id ∧ s.HasText id t := by
  cases hf : s.fileAt p with
  | error e => simp [readText_of_error hf]
  | ok i =>
      rw [Except.ok.injEq]
      constructor
      · intro h
        rw [readText, hf] at h
        dsimp only at h
        split at h
        · cases h
        · split at h <;> cases h
          exact ⟨rfl, ‹_›, ‹_›⟩
      · rintro ⟨rfl, hread, hb⟩
        simp only [readText, hf, hread, hb]

theorem readText_of_isOpen (h : s.fileAt p = .ok id) (hopen : s.IsOpen id)
    (hb : decodeText? (s.bytes id) = some t) : s.readText p = .ok (id, t) :=
  readText_eq_ok_iff.2 ⟨h, (isOpen_iff.1 hopen).1, hb⟩

/-- After passes a path leads to the text that those which get through leave, and to
    what it led to before if that is no text or does not let itself be read. -/
theorem readText_afterPasses (s : Store) (n : FileId → Nat) (p : Path) :
    (s.afterPasses n).readText p =
      (s.readText p).map fun x => (x.1, rewriteText^[s.passes n x.1] x.2) := by
  have hfile := fileAt_afterPasses s n p
  cases hf : s.fileAt p with
  | error e =>
      rw [hf] at hfile
      rw [readText_of_error hf, readText_of_error hfile]
      rfl
  | ok id =>
      rw [hf] at hfile
      cases hread : (s.access id).read with
      | some e =>
          rw [readText_of_refused hf hread, readText_of_refused hfile hread]
          rfl
      | none =>
          have hb' := decodeText?_bytesAfter (s.passes n id) (s.bytes id)
          rw [← bytes_afterPasses] at hb'
          cases hb : decodeText? (s.bytes id) with
          | none =>
              rw [hb, Option.map_none] at hb'
              rw [readText_of_not_text hf hread hb, readText_of_not_text hfile hread hb']
              rfl
          | some t =>
              rw [hb, Option.map_some] at hb'
              rw [readText_eq_ok_iff.2 ⟨hf, hread, hb⟩, readText_eq_ok_iff.2 ⟨hfile, hread, hb'⟩]
              rfl

/-! ## One visit -/

section Update

variable {dryRun : Bool}

theorem updateFile_of_error {e : ReadError} (h : s.readText p = .error e) (dryRun : Bool) :
    s.updateFile p dryRun = (.error e, s) := by
  rw [updateFile, h]

theorem updateFile_of_kept (h : s.readText p = .ok (id, t))
    (hkeep : ¬((replaceCalls .withOpacity t).changed = true ∧ dryRun = false)) :
    s.updateFile p dryRun = (.ok (replaceCalls .withOpacity t), s) := by
  simp only [updateFile, h, if_neg hkeep]

theorem updateFile_of_refused (h : s.readText p = .ok (id, t))
    (hwrite : (replaceCalls .withOpacity t).changed = true ∧ dryRun = false) {e : OsError}
    (he : (s.access id).write = some e) :
    s.updateFile p dryRun = (.error (.unwritten p e), s) := by
  simp only [updateFile, h, if_pos hwrite, he]

theorem updateFile_of_written (h : s.readText p = .ok (id, t))
    (hwrite : (replaceCalls .withOpacity t).changed = true ∧ dryRun = false)
    (haccess : (s.access id).write = none) :
    s.updateFile p dryRun =
      (.ok (replaceCalls .withOpacity t), s.setBytes id (encodeText (rewriteText t))) := by
  simp only [updateFile, h, if_pos hwrite, haccess]
  rfl

end Update

theorem updateFile_store_of_dryRun (s : Store) (p : Path) : (s.updateFile p true).2 = s := by
  cases h : s.readText p with
  | error e => rw [updateFile_of_error h]
  | ok x =>
      rcases x with ⟨id, t⟩
      rw [updateFile_of_kept h (by simp)]

-- Setting the bytes of a file to the result of a pass is that pass.
theorem setBytes_rewriteText (h : s.fileAt p = .ok id) (hopen : s.IsOpen id)
    (hb : decodeText? (s.bytes id) = some t) :
    s.setBytes id (encodeText (rewriteText t)) = s.afterVisits [p] := by
  rw [setBytes, afterVisits, afterPasses]
  refine congrArg (fun f => ({ s with bytes := f } : Store)) (funext fun i => ?_)
  by_cases hi : i = id
  · have hone : [p].countP (s.leadsTo id) = 1 := by
      rw [List.countP_singleton, if_pos (leadsTo_iff.2 h)]
    rw [if_pos hi, hi, passes_of_isOpen hopen, hone]
    exact (bytesAfter_of_text hb 1).symm
  · have hzero : [p].countP (s.leadsTo i) = 0 := by
      rw [List.countP_singleton, if_neg fun hlead => hi ?_]
      exact Except.ok.inj ((leadsTo_iff.1 hlead).symm.trans h)
    have hpasses : s.passes (fun i => [p].countP (s.leadsTo i)) i = 0 := by
      rw [passes, hzero, ite_self]
    rw [if_neg hi, hpasses, bytesAfter_zero]

/-- A visit passes once over the file that its path leads to. -/
theorem updateFile_store (s : Store) (p : Path) :
    (s.updateFile p false).2 = s.afterVisits [p] := by
  -- A visit that writes nothing is one whose pass makes no difference.
  have hstay : (∀ id, s.fileAt p = .ok id → s.IsOpen id →
      bytesAfter 1 (s.bytes id) = s.bytes id) → s = s.afterVisits [p] := by
    intro h
    refine (afterPasses_eq_self fun id hopen => ?_).symm
    rw [List.countP_singleton]
    split
    · exact h id (leadsTo_iff.1 ‹_›) hopen
    · exact bytesAfter_zero _
  cases hread : s.readText p with
  | error e =>
      rw [updateFile_of_error hread]
      refine hstay fun id hid hopen => bytesAfter_of_not_text ?_ 1
      cases hb : decodeText? (s.bytes id) with
      | none => rfl
      | some t => cases hread.symm.trans (readText_of_isOpen hid hopen hb)
  | ok x =>
      rcases x with ⟨i, t⟩
      rcases readText_eq_ok_iff.1 hread with ⟨hf, haccess, hb⟩
      by_cases hc : (replaceCalls .withOpacity t).changed = true
      · cases hwrite : (s.access i).write with
        | some e =>
            rw [updateFile_of_refused hread ⟨hc, rfl⟩ hwrite]
            refine hstay fun id hid hopen => ?_
            obtain rfl := Except.ok.inj (hf.symm.trans hid)
            cases hwrite.symm.trans (isOpen_iff.1 hopen).2
        | none =>
            rw [updateFile_of_written hread ⟨hc, rfl⟩ hwrite]
            exact setBytes_rewriteText hf (isOpen_iff.2 ⟨haccess, hwrite⟩) hb
      · rw [updateFile_of_kept hread fun h => hc h.1]
        refine hstay fun id hid _ => ?_
        obtain rfl := Except.ok.inj (hf.symm.trans hid)
        rw [bytesAfter_of_text hb, Function.iterate_one,
          rewriteText_of_not_changed (Bool.eq_false_iff.2 hc)]
        exact (eq_encodeText_of_decodeText? hb).symm

end Store

/-! ## Visits in a row -/

namespace Session

variable {s : Session}

theorem warn_of_no_log (hlog : s.log = none) (line : String) :
    s.warn line = { s with err := s.err ++ [line] } := by
  simp only [warn, note, hlog]

theorem foldl_warn_of_no_log {α : Type} (f : α → String) (xs : List α) (hlog : s.log = none) :
    (xs.foldl (fun s x => s.warn (f x)) s).store = s.store ∧
      (xs.foldl (fun s x => s.warn (f x)) s).log = none := by
  induction xs generalizing s with
  | nil => exact ⟨rfl, hlog⟩
  | cons x xs ih =>
      rw [List.foldl_cons, warn_of_no_log hlog]
      exact ih hlog

theorem visit_of_no_log (hlog : s.log = none) (c : Config) (p : Path) :
    (s.visit c p).2.store = (s.store.updateFile p c.dryRun).2 ∧ (s.visit c p).2.log = none := by
  simp only [visit]
  split
  · exact ⟨rfl, hlog⟩
  · rw [warn_of_no_log]
    · exact ⟨rfl, hlog⟩
    · exact hlog

/-- Visits pass over each file once for every path that leads to it. -/
theorem visitAll_store (hlog : s.log = none) {c : Config} (hdry : c.dryRun = false)
    (ps : List Path) : (s.visitAll c ps).2.store = s.store.afterVisits ps := by
  -- The session changes along the list, and where paths lead does not.
  induction ps generalizing s with
  | nil => exact (Store.afterVisits_nil s.store).symm
  | cons p ps ih =>
      rcases visit_of_no_log hlog c p with ⟨hstore, hlog'⟩
      rw [hdry, Store.updateFile_store] at hstore
      refine (ih hlog').trans ?_
      rw [hstore, Store.afterVisits_append]
      rfl

theorem visitAll_store_of_dryRun (hlog : s.log = none) {c : Config} (hdry : c.dryRun = true)
    (ps : List Path) : (s.visitAll c ps).2.store = s.store := by
  induction ps generalizing s with
  | nil => rfl
  | cons p ps ih =>
      rcases visit_of_no_log hlog c p with ⟨hstore, hlog'⟩
      rw [hdry, Store.updateFile_store_of_dryRun] at hstore
      exact (ih hlog').trans hstore

/-! ## Runs -/

/-- A run over a directory is its visits. The warnings before them leave the store
    alone. -/
theorem process_of_isDirectory (hlog : s.log = none) {c : Config}
    (hdir : s.store.isDirectory c.searchDir = true) :
    ∃ s' : Session, s'.store = s.store ∧ s'.log = none ∧
      let run := s'.visitAll c (s.store.sourceFiles c).1
      s.process c = (⟨run.1.length, run.1.filterMap Visit.record?,
        (s.store.sourceFiles c).2 ++ run.1.filterMap Visit.error?, c.dryRun⟩, run.2) := by
  rcases foldl_warn_of_no_log
    (fun e : FileError => s!"ERROR processing {e.path}: {e.message}")
    (s.store.sourceFiles c).2 hlog with ⟨hstore, hlog'⟩
  refine ⟨_, hstore, hlog', ?_⟩
  rw [process, if_pos hdir]

/-- A run passes over each file once for every listed path that leads to it, if
    it writes at all. -/
theorem process_store (hlog : s.log = none) (c : Config) :
    (s.process c).2.store =
      if c.dryRun = false ∧ s.store.isDirectory c.searchDir = true then
        s.store.afterPasses (s.store.timesListed c)
      else s.store := by
  by_cases hdir : s.store.isDirectory c.searchDir = true
  · rcases process_of_isDirectory hlog hdir with ⟨s', hstore, hlog', hprocess⟩
    rw [hprocess]
    cases hdry : c.dryRun with
    | true =>
        rw [if_neg (fun h => Bool.noConfusion h.1)]
        exact (visitAll_store_of_dryRun hlog' hdry _).trans hstore
    | false =>
        rw [if_pos ⟨rfl, hdir⟩]
        refine (visitAll_store hlog' hdry _).trans ?_
        rw [hstore]
        rfl
  · rw [process, if_neg hdir, if_neg (fun h => hdir h.2), warn_of_no_log hlog]

end Session

/-- A run without a log leaves every directory, link and file where it was. A
    file that is text has been passed over once for each listed path that leads
    to it, if it lets itself be read and written. All other bytes are as they
    were, and so are all bytes after a dry run and after a run that has no
    directory to search. -/
theorem process_effect_on_store (s : Store) (c : Config) :
    let after := (Session.process { store := s } c).2.store
    after.top = s.top ∧ after.here = s.here ∧ after.access = s.access ∧
      (∀ id, after.bytes id =
        if c.dryRun = false ∧ s.isDirectory c.searchDir = true ∧ s.IsOpen id then
          match decodeText? (s.bytes id) with
          | none => s.bytes id
          | some t => encodeText (rewriteText^[s.timesListed c id] t)
        else s.bytes id) ∧
      ∀ id, (∀ p ∈ (s.sourceFiles c).1, s.fileAt p ≠ .ok id) → after.bytes id = s.bytes id := by
  intro after
  have hafter : after = if c.dryRun = false ∧ s.isDirectory c.searchDir = true then
      s.afterPasses (s.timesListed c) else s := Session.process_store rfl c
  by_cases hwrites : c.dryRun = false ∧ s.isDirectory c.searchDir = true
  · rw [if_pos hwrites] at hafter
    rw [hafter]
    refine ⟨rfl, rfl, rfl, fun id => ?_, fun id hid => ?_⟩
    · rw [Store.bytes_afterPasses]
      by_cases hopen : s.IsOpen id
      · rw [if_pos ⟨hwrites.1, hwrites.2, hopen⟩, Store.passes_of_isOpen hopen]
        rfl
      · rw [if_neg fun h => hopen h.2.2, Store.passes_of_not_isOpen hopen, bytesAfter_zero]
    · have hzero : s.timesListed c id = 0 := by
        rw [Store.timesListed, List.countP_eq_zero]
        exact fun p hp hlead => hid p hp (Store.leadsTo_iff.1 hlead)
      rw [Store.bytes_afterPasses, Store.passes, hzero, ite_self, bytesAfter_zero]
  · rw [if_neg hwrites] at hafter
    rw [hafter]
    refine ⟨rfl, rfl, rfl, fun id => ?_, fun id _ => rfl⟩
    rw [if_neg fun h => hwrites ⟨h.1, h.2.1⟩]

end Codemod
