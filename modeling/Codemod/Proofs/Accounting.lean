import Codemod.Proofs.ListedPaths
import Codemod.Proofs.ReportedPaths
import Codemod.Proofs.SideBySide
import Codemod.Proofs.Visits

/-!
# What a Report Accounts for

Every listed file has its turn, and the report says what came of it.

The turns of a run come in the order of the list, and each of them meets the
store that the turns before have left. What a turn adds to the report depends on
that store and on the path alone. A path that the system does not take, a file
that does not let itself be read and one that is not text each add an error, and
so does a file that has to be written and does not let itself be. Any other text
adds a record if the pass over it replaces something or stops at a head that is
never closed. No turn adds both, and one that adds nothing says nothing. A turn
writes exactly when it adds a record of a changed file, unless the run is a dry
one.

All of this is settled turn by turn. What is left for the whole run is that its
turns are those of the list, that nothing comes between them, and that no two of
them are about one path.

## Main definitions

* `Turn`, `Store.turns`: The turns of listed paths.
* `Turn.Fails`: A turn that comes to an error.
* `Turn.write?`, `Store.writeAll`: What turns write.
* `Turn.Accounted`: What a turn adds to the report and says.
* `Store.mentioned`: The paths that a report is about.

## Theorems

* `Turn.accounted`: One turn.
* `Store.store_of_turns`: What the turns before a turn leave.
* `Store.nodup_mentioned`: No path is mentioned twice.
* `Session.visitAll_turns`: Visits in a row.
* `report_accounts`: The report of a run.
* `report_of_refused_path`: A text whose path is too long.
-/

namespace Codemod

/-! ## Unclosed heads -/

namespace Outcome

variable {o : Outcome}

theorem unbalancedLine?_eq_some_iff {line : Nat} :
    o.unbalancedLine? = some line ↔ ∃ offset reason, o.ending = .aborted offset line reason := by
  rw [unbalancedLine?]
  cases o.ending <;> simp

theorem unbalancedLine?_isSome_iff : o.unbalancedLine?.isSome = true ↔ o.ending ≠ .done := by
  rw [unbalancedLine?]
  cases o.ending <;> simp

end Outcome

/-! ## Records and errors -/

namespace Visit

variable {v : Visit}

theorem path_of_record? {r : FileRecord} (h : v.record? = some r) : r.path = v.path := by
  rw [record?] at h
  split at h
  · cases h
  · rw [← Option.some.inj (Option.ite_none_right_eq_some.1 h).2]

theorem path_of_error? {e : FileError} (h : v.error? = some e) : e.path = v.path := by
  rw [error?] at h
  split at h
  · rw [← Option.some.inj h]
  · cases h

theorem record?_or_error?_eq_none (v : Visit) : v.record? = none ∨ v.error? = none := by
  rw [record?, error?]
  split
  · exact .inl rfl
  · exact .inr rfl

end Visit

/-! ## Turns -/

/-- The turn of a listed path, with the store as it is by then. -/
structure Turn where
  path : Path
  store : Store

/-- The turns of paths. Each leaves the store to the next one. -/
def Store.turns (s : Store) (c : Config) : List Path → List Turn
  | [] => []
  | p :: ps => ⟨p, s⟩ :: (s.updateFile p c.dryRun).2.turns c ps

/-- A store with bytes written to files one after the other. -/
def Store.writeAll (s : Store) (writes : List (FileId × ByteArray)) : Store :=
  writes.foldl (fun s w => s.setBytes w.1 w.2) s

namespace Turn

variable {t : Turn} {c : Config}

/-- The visit that a turn consists of. -/
def visit (t : Turn) (c : Config) : Visit := t.store.visitOf c t.path

/-- A turn comes upon a text. -/
def Reads (t : Turn) (u : Text) : Prop :=
  ∃ id, t.store.fileAt t.path = .ok id ∧ t.store.HasText id u

/-- A turn comes upon a path that the system does not take, upon a file that does not
    let itself be read, or upon bytes that are no text. -/
def Unread (t : Turn) : Prop :=
  t.store.fileAt t.path = .error .nameTooLong ∨ t.store.fileAt t.path = .error .nulInPath ∨
    ∃ id, t.store.fileAt t.path = .ok id ∧
      ((t.store.access id).read ≠ none ∨ decodeText? (t.store.bytes id) = none)

/-- A turn of a real run changes a text, and the file does not let itself be
    written. -/
def Unwritten (t : Turn) (c : Config) : Prop :=
  c.dryRun = false ∧ ∃ id u, t.store.fileAt t.path = .ok id ∧ t.store.HasText id u ∧
    (replaceCalls .withOpacity u).changed = true ∧ (t.store.access id).write ≠ none

/-- A turn comes to an error. -/
def Fails (t : Turn) (c : Config) : Prop := t.Unread ∨ t.Unwritten c

/-- Why a turn comes to an error: the text cannot be had, or the result cannot be
    written. -/
def Blames (t : Turn) (c : Config) (why : FileFault) : Prop :=
  t.store.readText t.path = .error why ∨
    c.dryRun = false ∧ ∃ id u e, t.store.readText t.path = .ok (id, u) ∧
      (replaceCalls .withOpacity u).changed = true ∧ (t.store.access id).write = some e ∧
      why = .unwritten t.path e

/-- The bytes that a turn writes, and the file that it writes them to. -/
def write? (t : Turn) (c : Config) : Option (FileId × ByteArray) :=
  match t.store.readText t.path with
  | .error _ => none
  | .ok (id, u) =>
    if ((replaceCalls .withOpacity u).changed ∧ c.dryRun = false) ∧
        (t.store.access id).write = none then
      some (id, encodeText (rewriteText u))
    else none

/-- What a turn adds to the report, says and writes. -/
structure Accounted (t : Turn) (c : Config) : Prop where
  one : (t.visit c).record? = none ∨ (t.visit c).error? = none
  error_iff : (∃ e, (t.visit c).error? = some e) ↔ t.Fails c
  error : ∀ e, (t.visit c).error? = some e →
    e.path = c.reported t.path ∧ (∃ why, t.Blames c why ∧ e.message = why.message) ∧
      (t.visit c).warning? = some e.line
  record_iff : (∃ r, (t.visit c).record? = some r) ↔
    ¬t.Unwritten c ∧ ∃ u, t.Reads u ∧ (0 < (replaceCalls .withOpacity u).replacements ∨
      (replaceCalls .withOpacity u).ending ≠ .done)
  record : ∀ r, (t.visit c).record? = some r →
    r.path = c.reported t.path ∧ (r.changed = true ↔ 0 < r.replacements) ∧
      (r.changed = true ∨ r.unbalancedLine ≠ none) ∧
      ∃ u, t.Reads u ∧ r.replacements = (replaceCalls .withOpacity u).replacements ∧
        r.unbalancedLine = (replaceCalls .withOpacity u).unbalancedLine?
  aborted : ∀ r line, (t.visit c).record? = some r → r.unbalancedLine = some line →
    ∃ u offset reason, t.Reads u ∧
      (replaceCalls .withOpacity u).ending = .aborted offset line reason ∧
      (t.visit c).warning? = some (s!"{r.path}:{line}: {reason.message}; " ++
        ".withOpacity( call and rest of file left unchanged")
  silent : (t.visit c).error? = none →
    (∀ r, (t.visit c).record? = some r → r.unbalancedLine = none) → (t.visit c).warning? = none
  write : ∀ id b, t.write? c = some (id, b) ↔
    c.dryRun = false ∧ t.store.fileAt t.path = .ok id ∧
      (∃ r, (t.visit c).record? = some r ∧ r.changed = true) ∧
      ∃ u, t.Reads u ∧ b = encodeText (rewriteText u)

/-! ## One turn -/

section Texts

variable {id : FileId} {u : Text} (h : t.store.readText t.path = .ok (id, u))

include h

theorem reads_iff (v : Text) : t.Reads v ↔ u = v := by
  rcases Store.readText_eq_ok_iff.1 h with ⟨hid, hread, hb⟩
  simp [Reads, Store.HasText, hid, hread, hb]

theorem not_unread : ¬t.Unread := by
  rcases Store.readText_eq_ok_iff.1 h with ⟨hid, hread, hb⟩
  simp [Unread, hid, hread, hb]

theorem unwritten_iff :
    t.Unwritten c ↔ ((replaceCalls .withOpacity u).changed = true ∧ c.dryRun = false) ∧
      (t.store.access id).write ≠ none := by
  rcases Store.readText_eq_ok_iff.1 h with ⟨hid, hread, hb⟩
  constructor
  · rintro ⟨hdry, i, v, hi, ⟨-, hv⟩, hchanged, hwrite⟩
    obtain rfl := Except.ok.inj (hid.symm.trans hi)
    obtain rfl := Option.some.inj (hb.symm.trans hv)
    exact ⟨⟨hchanged, hdry⟩, hwrite⟩
  · rintro ⟨⟨hchanged, hdry⟩, hwrite⟩
    exact ⟨hdry, id, u, hid, ⟨hread, hb⟩, hchanged, hwrite⟩

theorem write_eq_none_of_not_unwritten (hwritten : ¬t.Unwritten c)
    (hwrite : (replaceCalls .withOpacity u).changed = true ∧ c.dryRun = false) :
    (t.store.access id).write = none :=
  Classical.byContradiction fun hnot => hwritten ((unwritten_iff h).2 ⟨hwrite, hnot⟩)

/-- A turn of a text comes to the outcome of the pass, unless it cannot write the
    result. -/
theorem visit_of_not_unwritten (hwritten : ¬t.Unwritten c) :
    t.visit c = ⟨c.reported t.path, .ok (replaceCalls .withOpacity u)⟩ := by
  refine Store.visitOf_of_accepted h ?_
  by_cases hwrite : (replaceCalls .withOpacity u).changed = true ∧ c.dryRun = false
  · exact .inl (write_eq_none_of_not_unwritten h hwritten hwrite)
  · rw [not_and_or, Bool.not_eq_true, Bool.not_eq_false] at hwrite
    exact .inr hwrite

end Texts

theorem not_unwritten_of_write_eq_none (h : ∀ id, (t.store.access id).write = none) :
    ¬t.Unwritten c := by
  rintro ⟨-, id, -, -, -, -, hrefused⟩
  exact hrefused (h id)

/-- A turn that comes to an error adds that error and nothing else. -/
theorem accounted_of_fault {why : FileFault} (hfails : t.Fails c) (hblames : t.Blames c why)
    (hvisit : t.visit c = ⟨c.reported t.path, .error why⟩) (hwrite : t.write? c = none)
    (hrecord : ¬(¬t.Unwritten c ∧ ∃ u, t.Reads u)) : t.Accounted c := by
  have hnone : (t.visit c).record? = none := by rw [hvisit]; rfl
  have herror : (t.visit c).error? = some ⟨c.reported t.path, why.message⟩ := by rw [hvisit]; rfl
  refine ⟨.inl hnone, iff_of_true ⟨_, herror⟩ hfails, ?_, ?_, ?_, ?_, ?_, ?_⟩
  · intro e he
    obtain rfl := Option.some.inj (herror.symm.trans he)
    exact ⟨rfl, ⟨why, hblames, rfl⟩, by rw [hvisit]; rfl⟩
  · refine iff_of_false (by simp [hnone]) ?_
    rintro ⟨hwritten, u, hu, -⟩
    exact hrecord ⟨hwritten, u, hu⟩
  · simp [hnone]
  · simp [hnone]
  · simp [herror]
  · simp [hwrite, hnone]

theorem accounted_of_unread (c : Config) (h : t.Unread) : t.Accounted c := by
  have hnone : ∀ u, ¬t.Reads u := by
    rintro u ⟨id, hid, hu⟩
    exact not_unread (Store.readText_eq_ok_iff.2 ⟨hid, hu⟩) h
  cases he : t.store.readText t.path with
  | ok read => cases not_unread he h
  | error e =>
      exact accounted_of_fault (.inl h) (.inl he) (Store.visitOf_of_error he) (by rw [write?, he])
        fun hreads => hreads.2.elim hnone

/-- A text that has to be written where the file does not let itself be written. -/
theorem accounted_of_refused {id : FileId} {u : Text}
    (h : t.store.readText t.path = .ok (id, u))
    (hwrite : (replaceCalls .withOpacity u).changed = true ∧ c.dryRun = false) {e : OsError}
    (he : (t.store.access id).write = some e) : t.Accounted c := by
  have hunwritten : t.Unwritten c := (unwritten_iff h).2 ⟨hwrite, by simp [he]⟩
  refine accounted_of_fault (.inr hunwritten)
    (.inr ⟨hwrite.2, id, u, e, h, hwrite.1, he, rfl⟩) (Store.visitOf_of_refused h hwrite he) ?_
    fun hreads => hreads.1 hunwritten
  simp only [write?, h, he, reduceCtorEq, and_false, if_false]

/-- Any other text. -/
theorem accounted_of_accepted {id : FileId} {u : Text}
    (h : t.store.readText t.path = .ok (id, u)) (hwritten : ¬t.Unwritten c) : t.Accounted c := by
  have hid : t.store.fileAt t.path = .ok id := (Store.readText_eq_ok_iff.1 h).1
  have hreads := reads_iff h
  have hvisit := visit_of_not_unwritten h hwritten
  have hwrite : t.write? c = if (replaceCalls .withOpacity u).changed ∧ c.dryRun = false then
      some (id, encodeText (rewriteText u)) else none := by
    simp only [write?, h, and_iff_left_of_imp (write_eq_none_of_not_unwritten h hwritten)]
  have herror : (t.visit c).error? = none := by rw [hvisit]; rfl
  have hsucceeds : ¬t.Fails c := fun hfails => hfails.elim (not_unread h) hwritten
  have hrecord : ∀ r, (t.visit c).record? = some r ↔ _ := fun r =>
    hvisit ▸ Visit.record?_eq_some_iff
  refine ⟨.inr herror, ?_, ?_, ?_, ?_, ?_, ?_, ?_⟩
  · simp [herror, hsucceeds]
  · simp [herror]
  · simp [hrecord, hreads, hwritten, Outcome.unbalancedLine?_isSome_iff, Outcome.changed]
  · rintro r hr
    rcases (hrecord r).1 hr with ⟨hworth, rfl⟩
    refine ⟨rfl, ?_, ?_, u, (hreads u).2 rfl, rfl, rfl⟩
    · simp [Outcome.changed]
    · simpa [Option.isSome_iff_ne_none] using hworth
  · intro r line hr hline
    rcases (hrecord r).1 hr with ⟨-, rfl⟩
    rcases Outcome.unbalancedLine?_eq_some_iff.1 hline with ⟨offset, reason, hend⟩
    refine ⟨u, offset, reason, (hreads u).2 rfl, hend, ?_⟩
    rw [hvisit, Visit.warning?]
    simp only [hend]
  · rintro - hnone
    rw [hvisit, Visit.warning?]
    cases hend : (replaceCalls .withOpacity u).ending with
    | done => simp only [hend]
    | aborted offset line reason =>
        have hline := Outcome.unbalancedLine?_eq_some_iff.2 ⟨offset, reason, hend⟩
        have hworth := (hrecord _).2 ⟨.inr (by rw [hline]; rfl), rfl⟩
        cases hline.symm.trans (hnone _ hworth)
  · intro i b
    rw [hwrite, Option.ite_none_right_eq_some, Option.some.injEq, Prod.mk.injEq]
    constructor
    · rintro ⟨⟨hchanged, hdry⟩, rfl, rfl⟩
      exact ⟨hdry, hid, ⟨_, (hrecord _).2 ⟨.inl hchanged, rfl⟩, hchanged⟩, u, (hreads u).2 rfl, rfl⟩
    · rintro ⟨hdry, hi, ⟨r, hr, hchanged⟩, v, hv, rfl⟩
      obtain rfl := (hreads v).1 hv
      obtain rfl := Except.ok.inj (hid.symm.trans hi)
      rcases (hrecord r).1 hr with ⟨-, rfl⟩
      exact ⟨⟨hchanged, hdry⟩, rfl, rfl⟩

/-- A turn of a path that leads to a file, or that the system does not take, is
    accounted for. -/
theorem accounted (c : Config)
    (h : (∃ id, t.store.fileAt t.path = .ok id) ∨ t.store.fileAt t.path = .error .nameTooLong ∨
      t.store.fileAt t.path = .error .nulInPath) : t.Accounted c := by
  by_cases hunread : t.Unread
  · exact accounted_of_unread c hunread
  · have hfile : ∃ id, t.store.fileAt t.path = .ok id := by
      refine h.resolve_right ?_
      rintro (hlong | hnul)
      · exact hunread (.inl hlong)
      · exact hunread (.inr (.inl hnul))
    rcases hfile with ⟨id, hid⟩
    have hread : (t.store.access id).read = none := Classical.byContradiction fun hnot =>
      hunread (.inr (.inr ⟨id, hid, .inl hnot⟩))
    cases hb : decodeText? (t.store.bytes id) with
    | none => cases hunread (.inr (.inr ⟨id, hid, .inr hb⟩))
    | some u =>
        have htext := Store.readText_eq_ok_iff.2 ⟨hid, hread, hb⟩
        by_cases hunwritten : t.Unwritten c
        · rcases (unwritten_iff htext).1 hunwritten with ⟨hwrite, hrefused⟩
          rcases Option.ne_none_iff_exists'.1 hrefused with ⟨e, he⟩
          exact accounted_of_refused htext hwrite he
        · exact accounted_of_accepted htext hunwritten

theorem Accounted.writes_iff (h : t.Accounted c) :
    (t.write? c).isSome = true ↔
      c.dryRun = false ∧ ∃ r, (t.visit c).record? = some r ∧ r.changed = true := by
  constructor
  · intro hwrite
    rcases Option.isSome_iff_exists.1 hwrite with ⟨⟨id, b⟩, hw⟩
    rcases (h.write id b).1 hw with ⟨hdry, -, hrecord, -⟩
    exact ⟨hdry, hrecord⟩
  · rintro ⟨hdry, r, hr, hchanged⟩
    rcases (h.record r hr).2.2.2 with ⟨u, ⟨id, hid, hu⟩, -⟩
    rw [(h.write id _).2 ⟨hdry, hid, ⟨r, hr, hchanged⟩, u, ⟨id, hid, hu⟩, rfl⟩]
    rfl

end Turn

/-! ## Turns in a row -/

namespace Store

variable {s : Store} {c : Config} {ps : List Path} {t : Turn}

theorem writeAll_append (s : Store) (ws ws' : List (FileId × ByteArray)) :
    s.writeAll (ws ++ ws') = (s.writeAll ws).writeAll ws' := List.foldl_append

/-- A visit leaves the store with what its turn writes. -/
theorem updateFile_store_of_turn (t : Turn) (c : Config) :
    (t.store.updateFile t.path c.dryRun).2 = t.store.writeAll (t.write? c).toList := by
  rw [Turn.write?]
  cases h : t.store.readText t.path with
  | error e => exact congrArg Prod.snd (updateFile_of_error h c.dryRun)
  | ok read =>
      rcases read with ⟨id, u⟩
      dsimp only
      by_cases hwrite : (replaceCalls .withOpacity u).changed = true ∧ c.dryRun = false
      · cases he : (t.store.access id).write with
        | some e =>
            rw [updateFile_of_refused h hwrite he, if_neg fun h => nomatch h.2]
            rfl
        | none =>
            rw [updateFile_of_written h hwrite he, if_pos ⟨hwrite, rfl⟩]
            rfl
      · rw [updateFile_of_kept h hwrite, if_neg fun h => hwrite h.1]
        rfl

theorem writeAll_turns_cons (s : Store) (c : Config) (p : Path) (ps : List Path) :
    s.writeAll ((s.turns c (p :: ps)).filterMap (Turn.write? · c)) =
      let next := (s.updateFile p c.dryRun).2
      next.writeAll ((next.turns c ps).filterMap (Turn.write? · c)) := by
  rw [turns, List.filterMap_cons, updateFile_store_of_turn ⟨p, s⟩, ← writeAll_append]
  cases Turn.write? ⟨p, s⟩ c <;> rfl

theorem path_turns (s : Store) (c : Config) (ps : List Path) :
    (s.turns c ps).map Turn.path = ps := by
  induction ps generalizing s with
  | nil => rfl
  | cons p ps ih => exact congrArg (p :: ·) (ih _)

theorem length_turns (s : Store) (c : Config) (ps : List Path) :
    (s.turns c ps).length = ps.length := by
  rw [← List.length_map Turn.path, path_turns]

-- No turn changes which files let themselves be read and written.
theorem access_turns (ht : t ∈ s.turns c ps) : t.store.access = s.access := by
  induction ps generalizing s with
  | nil => cases ht
  | cons q ps ih =>
      rcases List.mem_cons.1 ht with rfl | ht
      · rfl
      · rw [ih ht, (s.updateFile_shape q c.dryRun).2.2.1]

-- No turn changes where paths lead.
theorem fileAt_turns (ht : t ∈ s.turns c ps) (p : Path) : t.store.fileAt p = s.fileAt p := by
  induction ps generalizing s with
  | nil => cases ht
  | cons q ps ih =>
      rcases List.mem_cons.1 ht with rfl | ht
      · rfl
      · rw [ih ht, fileAt_updateFile]

/-- A turn meets the store with all that the turns before it have written. -/
theorem store_of_turns {before after : List Turn} (h : s.turns c ps = before ++ t :: after) :
    t.store = s.writeAll (before.filterMap (Turn.write? · c)) := by
  induction ps generalizing s before with
  | nil => cases before <;> cases h
  | cons p ps ih =>
      rw [turns] at h
      cases before with
      | nil =>
          obtain rfl := (List.cons.inj h).1
          rfl
      | cons first before =>
          obtain ⟨rfl, hrest⟩ := List.cons.inj h
          rw [ih hrest, updateFile_store_of_turn ⟨p, s⟩, ← writeAll_append, List.filterMap_cons]
          cases Turn.write? ⟨p, s⟩ c <;> rfl

/-- The paths that a report is about: those of the turns with a record, those of the
    directories that the search cannot open, and those of the turns with an error. -/
def mentioned (s : Store) (c : Config) : List Path :=
  let turns := s.turns c (s.sourceFiles c).1
  (turns.filter fun t => (t.visit c).record?.isSome).map Turn.path ++
    (s.unreadable c ++ (turns.filter fun t => (t.visit c).error?.isSome).map Turn.path)

/-- Records and errors are reported under the paths that they are about. -/
theorem paths_eq_reported_mentioned (s : Store) (c : Config) :
    let turns := s.turns c (s.sourceFiles c).1
    (turns.filterMap fun t => (t.visit c).record?).map (·.path) ++
        ((s.sourceFiles c).2 ++ turns.filterMap fun t => (t.visit c).error?).map (·.path) =
      (s.mentioned c).map c.reported := by
  intro turns
  have hrecords : (turns.filterMap fun t => (t.visit c).record?).map (·.path) =
      (turns.filter fun t => (t.visit c).record?.isSome).map fun t => c.reported t.path :=
    map_filterMap_eq_map_filter fun t r => Visit.path_of_record?
  have herrors : (turns.filterMap fun t => (t.visit c).error?).map (·.path) =
      (turns.filter fun t => (t.visit c).error?.isSome).map fun t => c.reported t.path :=
    map_filterMap_eq_map_filter fun t e => Visit.path_of_error?
  simp only [mentioned, List.map_append, List.map_map, errors_eq_reported_unreadable, hrecords,
    herrors]
  rfl

theorem mem_found_of_mem_mentioned {p : Path} (hp : p ∈ s.mentioned c) :
    p ∈ (s.sourceFiles c).1 ++ s.unreadable c := by
  have hturn : ∀ {q : Turn → Bool},
      p ∈ ((s.turns c (s.sourceFiles c).1).filter q).map Turn.path → p ∈ (s.sourceFiles c).1 := by
    intro q h
    rw [← s.path_turns c (s.sourceFiles c).1]
    exact (List.filter_sublist.map Turn.path).subset h
  rw [mentioned] at hp
  rcases List.mem_append.1 hp with h | h
  · exact List.mem_append_left _ (hturn h)
  · rcases List.mem_append.1 h with h | h
    · exact List.mem_append_right _ h
    · exact List.mem_append_left _ (hturn h)

/-- No path is mentioned twice. -/
theorem nodup_mentioned (s : Store) (c : Config) : (s.mentioned c).Nodup := by
  have hall := s.nodup_found c
  rw [← s.path_turns c (s.sourceFiles c).1, List.nodup_append] at hall
  rcases hall with ⟨hturns, hunreadable, hapart⟩
  -- No turn has both a record and an error.
  have hone : ∀ t : Turn,
      (t.visit c).record?.isSome = false ∨ (t.visit c).error?.isSome = false := by
    intro t
    rcases (t.visit c).record?_or_error?_eq_none with hnone | hnone
    · exact .inl (congrArg Option.isSome hnone)
    · exact .inr (congrArg Option.isSome hnone)
  have hown := nodup_map_filter_append hturns hone
  rw [mentioned, (List.perm_append_comm.append_left _).nodup_iff, ← List.append_assoc]
  refine List.nodup_append.2 ⟨hown, hunreadable, fun p hp => hapart p ?_⟩
  rcases List.mem_append.1 hp with hp | hp
  · exact (List.filter_sublist.map Turn.path).subset hp
  · exact (List.filter_sublist.map Turn.path).subset hp

/-- The turns that write are those with a record of a changed file, in a run that is
    no dry run. -/
theorem reported_writing_turns {ts : List Turn} (h : ∀ t ∈ ts, t.Accounted c) :
    (ts.filter fun t => (t.write? c).isSome).map (fun t => c.reported t.path) =
      if c.dryRun then []
      else ((ts.filterMap fun t => (t.visit c).record?).filter (·.changed)).map (·.path) := by
  have hwrites := fun t ht => (h t ht).writes_iff
  cases hdry : c.dryRun with
  | true =>
      rw [if_pos rfl, List.map_eq_nil_iff, List.filter_eq_nil_iff]
      intro t ht hwrite
      cases hdry.symm.trans ((hwrites t ht).1 hwrite).1
  | false =>
      rw [if_neg Bool.false_ne_true]
      refine map_filter_eq_map_filterMap (fun t ht => ?_) fun t ht r hr => ((h t ht).record r hr).1
      rw [hwrites t ht, and_iff_right hdry]

end Store

/-! ## The turns of a run -/

namespace Session

variable {s : Session} {c : Config}

/-- Visits in a row are turns, and leave the store with what these have written. -/
theorem visitAll_turns (hlog : s.log = none) (c : Config) (ps : List Path) :
    (s.visitAll c ps).1 = (s.store.turns c ps).map (Turn.visit · c) ∧
      (s.visitAll c ps).2.store =
        s.store.writeAll ((s.store.turns c ps).filterMap (Turn.write? · c)) := by
  induction ps generalizing s with
  | nil => exact ⟨rfl, rfl⟩
  | cons p ps ih =>
      rcases visit_of_no_log hlog c p with ⟨hstore, hlog'⟩
      rcases ih hlog' with ⟨hvisits, hend⟩
      rw [hstore] at hvisits hend
      exact ⟨congrArg₂ List.cons (visit_visit s c p) hvisits,
        hend.trans (Store.writeAll_turns_cons s.store c p ps).symm⟩

-- Without a log, nothing that is said is written anywhere.
theorem Speaks.store_eq {s' : Session} {out err : List String} (h : s.Speaks out err s')
    (hlog : s.log = none) : s'.store = s.store ∧ s'.log = none := by
  have hfile : s.logFile? = none := congrArg (Option.map LogFile.id) hlog
  refine ⟨?_, Option.map_eq_none_iff.1 (h.logFile?.trans hfile)⟩
  have hbytes : s'.store.bytes = s.store.bytes :=
    funext fun id => h.bytes id (by rw [hfile]; exact nofun)
  have htop := h.top
  have hhere := h.here
  have haccess := h.access
  cases hs' : s'.store
  cases hs : s.store
  simp_all

/-- A run over a directory, by its turns. -/
theorem process_turns (s : Store) {c : Config} (hdir : s.isDirectory c.searchDir = true) :
    let run := Session.process { store := s } c
    let turns := s.turns c (s.sourceFiles c).1
    run.1 = ⟨turns.length, turns.filterMap fun t => (t.visit c).record?,
        (s.sourceFiles c).2 ++ turns.filterMap fun t => (t.visit c).error?, c.dryRun⟩ ∧
      run.2.err = (s.sourceFiles c).2.map FileError.line ++
        turns.filterMap (fun t => (t.visit c).warning?) ∧
      run.2.store = s.writeAll (turns.filterMap (Turn.write? · c)) := by
  rcases hfound : s.sourceFiles c with ⟨files, errors⟩
  have hseen : s.seen? c = some (files, errors) := Store.seen?_eq_some_iff.2 ⟨hdir, hfound⟩
  rcases process_of_seen?_some (s := { store := s }) hseen with ⟨warned, hwarned, hprocess⟩
  rcases hwarned.store_eq rfl with ⟨hstore, hlog⟩
  rcases visitAll_turns hlog c files with ⟨hvisits, hend⟩
  rw [hstore] at hvisits hend
  have hsaid := (hwarned.toProceeds.trans (proceeds_visitAll warned c files)).err
  rw [hvisits, List.filterMap_map] at hsaid
  rw [hprocess]
  refine ⟨?_, hsaid, hend⟩
  simp only [hvisits, List.length_map, List.filterMap_map]
  rfl

end Session

namespace Store

variable {s : Store} {c : Config}

/-- Every turn of a run is accounted for. -/
theorem accounted_turns (hdir : s.isDirectory c.searchDir = true) :
    ∀ t ∈ s.turns c (s.sourceFiles c).1, t.Accounted c := by
  intro t ht
  have hlisted : t.path ∈ (s.sourceFiles c).1 := by
    rw [← s.path_turns c (s.sourceFiles c).1]
    exact List.mem_map_of_mem ht
  refine Turn.accounted c ?_
  rw [fileAt_turns ht]
  exact fileAt_listed_cases hdir hlisted

end Store

/-- A run without a directory to search has nothing to report and says so. A run
    over a directory takes the listed files in turn, each as the turns before have
    left the store. It counts them, and its records, its errors behind those of
    the search, and its messages are those of the turns. No two records or errors
    are about one path, and they are reported apart where the path is text. The
    turns that write are those of the changed files, and what they write is all
    that changes. -/
theorem report_accounts (s : Store) (c : Config) :
    let run := Session.process { store := s } c
    let files := (s.sourceFiles c).1
    let errors := (s.sourceFiles c).2
    let turns := s.turns c files
    (¬s.isDirectory c.searchDir = true →
      run.1 = ⟨0, [], [], c.dryRun⟩ ∧ run.2.store = s ∧
        run.2.err = [s!"Warning: Source directory not found: {c.searchDir}"]) ∧
    (s.isDirectory c.searchDir = true →
      (turns.map Turn.path = files ∧ (∀ t ∈ turns, t.Accounted c) ∧
        ∀ before t after, turns = before ++ t :: after →
          t.store = s.writeAll (before.filterMap (Turn.write? · c))) ∧
      run.1.filesScanned = files.length ∧
      run.1.records = turns.filterMap (fun t => (t.visit c).record?) ∧
      run.1.errors = errors ++ turns.filterMap (fun t => (t.visit c).error?) ∧
      run.2.err = errors.map FileError.line ++ turns.filterMap (fun t => (t.visit c).warning?) ∧
      (run.1.records.map (·.path) ++ run.1.errors.map (·.path) =
          (s.mentioned c).map c.reported ∧
        (s.mentioned c).Nodup ∧
        (((s.mentioned c).filter fun p => c.Faithful p).map c.reported).Nodup) ∧
      ((turns.filter fun t => (t.write? c).isSome).map fun t => c.reported t.path) =
        (if c.dryRun then [] else run.1.changedPaths) ∧
      run.2.store = s.writeAll (turns.filterMap (Turn.write? · c))) := by
  intro run files errors turns
  refine ⟨fun hdir => ?_, fun hdir => ?_⟩
  · have hrun : run = _ := Session.process_of_seen?_none (s := { store := s }) (if_neg hdir)
    rw [hrun]
    exact ⟨rfl, rfl, rfl⟩
  · obtain ⟨hreport, hsaid, hstore⟩ : run.1 = _ ∧ _ ∧ _ := Session.process_turns s hdir
    have hpaths : turns.map Turn.path = files := s.path_turns c files
    have haccounted : ∀ t ∈ turns, t.Accounted c := Store.accounted_turns hdir
    have hwriting := Store.reported_writing_turns haccounted
    rw [hreport]
    exact ⟨⟨hpaths, haccounted, fun _ _ _ => Store.store_of_turns⟩, s.length_turns c files, rfl,
      rfl, hsaid, ⟨s.paths_eq_reported_mentioned c, s.nodup_mentioned c,
        Store.nodup_reported_faithful (s.nodup_mentioned c) fun _ =>
          Store.mem_found_of_mem_mentioned⟩,
      hwriting, hstore⟩

/-- A directory with a text in it. -/
def oneText : Store where
  top :=
    .directory (.ofString "web" (by decide))
      (.file (.ofString "x.dart" (by decide)) 0 .empty) .empty
  ordered := by
    simp [Folder.Ordered, Folder.names]
  bytes := fun _ => encodeText ".withOpacity(1)".toList
  here := []

/-- A text with a call in it adds an error, not a record, if the path of the source
    directory is so long that its own path is too long. -/
theorem report_of_refused_path :
    let u := ".withOpacity(1)".toList
    let dir : Path :=
      ⟨(List.replicate 2043 [dotByte, slashByte]).flatten ++ Text.bytes "web".toList⟩
    let c : Config := ⟨⟨[]⟩, dir, "dart", false⟩
    let report := (Session.process { store := oneText } c).1
    (∀ id, decodeText? (oneText.bytes id) = some u) ∧
      (replaceCalls .withOpacity u).changed = true ∧
      report.filesScanned = 1 ∧ report.records = [] ∧ report.errors.length = 1 :=
  ⟨fun _ => decodeText?_encodeText _, by decide +kernel, by decide +kernel⟩

-- So does a text in a file that does not let itself be written.
example :
    let s := oneText.setAccess 0 { write := some .readOnlyFileSystem }
    let report := (Session.process { store := s } ⟨⟨[]⟩, .ofString "web", "dart", false⟩).1
    report.records = [] ∧ report.errors =
      [⟨"web/x.dart", "Failed to write web/x.dart: Read-only file system (os error 30)"⟩] := by
  decide +kernel

end Codemod
