import Codemod.Proofs.SecondPass
import Codemod.Proofs.Visits

/-!
# Running Twice

When a second run over a source tree finds nothing to do.

A replaced call is no call of the deprecated kind, but its argument is moved as
it stands, and a call inside an argument is left for the next pass. So a pass
can be repeated without effect exactly over those texts in which no argument of
a call holds a call head.

For a run this is a condition on every file that a listed path leads to and that
lets itself be read and written, at the last of the passes that the run makes over
it. The first run may well change a file several times; the second is idle when the
last of these changes left nothing behind.

## Main definitions

* `IsFlat`: No argument of a call holds a call head.
* `Store.IsSettled`: No listed text holds a call to replace.

## Theorems

* `Session.changedPaths_eq_nil_iff`: A run over a settled store changes nothing.
* `Store.isSettled_afterPasses_iff`: When the result of a run is settled.
* `second_pass_and_run_idle_iff`: When a second pass and a second run are idle.
* `second_pass_replaces_nested_call`: A call inside an argument.
-/

namespace Codemod

/-- No argument of a call holds a call head. -/
def IsFlat (s : Text) : Prop :=
  ∀ c ∈ (Segmentation.ofText .withOpacity s).calls, ¬CallHead.withOpacity.text <:+: c.body.trim

instance : DecidablePred IsFlat := fun s =>
  inferInstanceAs (Decidable (∀ c ∈ (Segmentation.ofText .withOpacity s).calls,
    ¬CallHead.withOpacity.text <:+: c.body.trim))

theorem changed_replaceCalls_iterate_succ (k : Nat) (t : Text) :
    (replaceCalls .withOpacity (rewriteText^[k + 1] t)).changed = false ↔
      IsFlat (rewriteText^[k] t) := by
  rw [Function.iterate_succ_apply']
  exact second_pass_unchanged_iff (rewriteText^[k] t)

-- Parentheses in an argument do no harm, a call there does.
example : IsFlat ".withOpacity(a + (b * c))".toList ∧
    ¬IsFlat ".withOpacity(.withOpacity(1))".toList := by decide +kernel

theorem Report.changedPaths_eq_nil_iff (r : Report) :
    r.changedPaths = [] ↔ ∀ x ∈ r.records, x.changed = false := by
  simp only [changedPaths, List.map_eq_nil_iff, List.filter_eq_nil_iff, Bool.not_eq_true]

/-! ## Settled stores -/

/-- No text that a listed path leads to, and that lets itself be read and written,
    holds a call to replace. -/
def Store.IsSettled (s : Store) (c : Config) : Prop :=
  ∀ id t, s.IsOpen id → decodeText? (s.bytes id) = some t → 0 < s.timesListed c id →
    (replaceCalls .withOpacity t).changed = false

namespace Store.IsSettled

variable {s : Store} {c : Config}

-- Passes over the listed files of a settled store make no difference.
theorem afterPasses_eq (h : s.IsSettled c) : s.afterPasses (s.timesListed c) = s := by
  refine afterPasses_eq_self fun id hopen => ?_
  cases hb : decodeText? (s.bytes id) with
  | none => exact bytesAfter_of_not_text hb _
  | some t =>
      rcases Nat.eq_zero_or_pos (s.timesListed c id) with hzero | hpos
      · rw [hzero, bytesAfter_zero]
      · have hsame := rewriteText_of_not_changed (h id t hopen hb hpos)
        rw [bytesAfter_of_text hb, Function.iterate_fixed hsame]
        exact (eq_encodeText_of_decodeText? hb).symm

-- However many passes come before it, a visit of a real run to a listed path of a
-- settled store changes nothing.
theorem changed_of_record? (h : s.IsSettled c) {p : Path} (hp : p ∈ (s.sourceFiles c).1)
    (n : FileId → Nat) {r : FileRecord}
    (hr : ((s.afterPasses n).visitOf { c with dryRun := false } p).record? = some r) :
    r.changed = false := by
  rcases s.leads_to_open_or_not p with ⟨id, t, hread, hopen⟩ | hnot
  · rcases readText_eq_ok_iff.1 hread with ⟨hf, -, hb⟩
    have hlisted : 0 < s.timesListed c id :=
      List.countP_pos_iff.2 ⟨p, hp, leadsTo_iff.2 hf⟩
    have hidle := h id t hopen hb hlisted
    rw [visitOf_afterPasses_of_open n hread hopen,
      Function.iterate_fixed (rewriteText_of_not_changed hidle)] at hr
    rw [← (Visit.record?_eq_some_iff.1 hr).2]
    exact hidle
  · -- What cannot be written has a record only if there is nothing to write.
    rw [visitOf_afterPasses_of_not_open n hnot] at hr
    rcases exists_text_of_record? hr with ⟨id, t, hread, haccept, hr⟩
    rcases haccept with hwrite | hidle | hdry
    · cases hnot id t hread (isOpen_iff.2 ⟨(readText_eq_ok_iff.1 hread).2.1, hwrite⟩)
    · rw [← (Visit.record?_eq_some_iff.1 hr).2]
      exact hidle
    · cases hdry

end Store.IsSettled

/-- The result of a real run is settled when the last pass over each listed file
    passed over a flat text. -/
theorem Store.isSettled_afterPasses_iff (s : Store) (c : Config) :
    (s.afterPasses (s.timesListed c)).IsSettled c ↔
      ∀ id t, s.IsOpen id → decodeText? (s.bytes id) = some t → ∀ k,
        s.timesListed c id = k + 1 → IsFlat (rewriteText^[k] t) := by
  simp only [IsSettled, isOpen_afterPasses, bytes_afterPasses, timesListed_afterPasses,
    decodeText?_bytesAfter]
  constructor
  · intro h id t hopen hb k hk
    rw [← changed_replaceCalls_iterate_succ, ← hk]
    refine h id _ hopen ?_ (hk ▸ Nat.succ_pos k)
    rw [hb, Option.map_some, passes_of_isOpen hopen]
  · intro h id u hopen hu hpos
    rcases Option.map_eq_some_iff.1 hu with ⟨t, hb, rfl⟩
    rcases Nat.exists_eq_succ_of_ne_zero (Nat.ne_of_gt hpos) with ⟨k, hk⟩
    rw [passes_of_isOpen hopen, hk]
    exact (changed_replaceCalls_iterate_succ k t).2 (h id t hopen hb k hk)

/-! ## Idle runs -/

/-- A real run has no changed file to report exactly when the store is settled. -/
theorem Session.changedPaths_eq_nil_iff {s : Session} (hlog : s.log = none) {c : Config}
    (hdir : s.store.isDirectory c.searchDir = true) :
    (s.process { c with dryRun := false }).1.changedPaths = [] ↔ s.store.IsSettled c := by
  have hreport := process_report hlog (c := { c with dryRun := false }) hdir
  rw [Report.changedPaths_eq_nil_iff, hreport]
  simp only [Store.visits_realRun, List.mem_filterMap, List.mem_map]
  constructor
  · intro h id t hopen hb hpos
    -- The first listed path to the file is met before any pass over it.
    rcases exists_countP_take hpos with ⟨i, p, hp, hlead, hcount⟩
    have hvisit := Store.visitOf_afterPasses_of_open (c := { c with dryRun := false })
      (fun id => ((s.store.sourceFiles c).1.take i).countP (s.store.leadsTo id))
      (Store.readText_of_isOpen (Store.leadsTo_iff.1 hlead) hopen hb) hopen
    rw [hcount, Function.iterate_zero_apply] at hvisit
    cases hrec : (Visit.mk (c.reported p) (.ok (replaceCalls .withOpacity t))).record? with
    | none => exact (Outcome.changed_eq_false_iff _).2 (Visit.record?_eq_none_iff.1 hrec).1
    | some r =>
        have hsame := h r ⟨_, ⟨(p, i), List.mk_mem_zipIdx_iff_getElem?.2 hp, hvisit⟩, hrec⟩
        rw [← (Visit.record?_eq_some_iff.1 hrec).2] at hsame
        exact hsame
  · rintro h r ⟨v, ⟨⟨p, i⟩, hx, rfl⟩, hr⟩
    have hp := List.mk_mem_zipIdx_iff_getElem?.1 hx
    exact h.changed_of_record? (List.mem_of_getElem? hp) _ hr

theorem Session.process_store_of_settled {s : Session} (hlog : s.log = none) {c : Config}
    (h : s.store.IsSettled c) : (s.process c).2.store = s.store := by
  rw [process_store hlog, h.afterPasses_eq, ite_self]

/-- A second run changes no file and leaves the store alone exactly when the
    last pass of the first run over each file passed over a flat text. -/
theorem Session.process_process_idle_iff (s : Store) (c : Config) :
    let first := (Session.process { store := s } { c with dryRun := false }).2.store
    let second := Session.process { store := first } { c with dryRun := false }
    second.1.changedPaths = [] ∧ second.2.store = first ↔
      (s.isDirectory c.searchDir = true →
        ∀ id t, s.IsOpen id → decodeText? (s.bytes id) = some t → ∀ k,
          s.timesListed c id = k + 1 → IsFlat (rewriteText^[k] t)) := by
  intro first second
  have hfirst : first = _ := process_store (s := { store := s }) rfl { c with dryRun := false }
  by_cases hdir : s.isDirectory c.searchDir = true
  · have hpasses : first = s.afterPasses (s.timesListed c) := hfirst.trans (if_pos ⟨rfl, hdir⟩)
    have hdir' : first.isDirectory c.searchDir = true := by
      rw [hpasses, Store.isDirectory_afterPasses, hdir]
    rw [imp_iff_right hdir, ← Store.isSettled_afterPasses_iff, ← hpasses]
    constructor
    · rintro ⟨hnone, -⟩
      exact (changedPaths_eq_nil_iff (s := { store := first }) rfl hdir').1 hnone
    · intro hsettled
      refine ⟨(changedPaths_eq_nil_iff (s := { store := first }) rfl hdir').2 hsettled, ?_⟩
      exact process_store_of_settled rfl hsettled
  · -- Neither run finds a directory to search.
    have hsame : first = s := hfirst.trans (if_neg fun h => hdir h.2)
    have hdir' : ¬first.isDirectory c.searchDir = true := fun h => hdir (hsame ▸ h)
    have hreport : second.1 = _ := process_report_of_no_directory (s := { store := first }) hdir'
    have hstore : second.2.store = _ := process_store (s := { store := first }) rfl
      { c with dryRun := false }
    refine iff_of_true ⟨?_, ?_⟩ fun h => absurd h hdir
    · rw [hreport]
      rfl
    · rw [hstore]
      exact if_neg fun h => hdir' h.2

/-! ## Idempotence -/

/-- A second pass replaces nothing and returns the text that it was given exactly
    when no argument of a call holds a call head. A second run over a source tree
    changes no file exactly when that holds of every text that a listed path leads
    to and that lets itself be read and written, as the first run found it at its
    last visit. -/
theorem second_pass_and_run_idle_iff :
    (∀ s : Text,
      let first := replaceCalls .withOpacity s
      let second := replaceCalls .withOpacity first.text
      (second.replacements = 0 ∧ second.changed = false ∧ second.text = first.text) ↔
        IsFlat s) ∧
    ∀ (s : Store) (c : Config),
      let first := (Session.process { store := s } { c with dryRun := false }).2.store
      let second := Session.process { store := first } { c with dryRun := false }
      (second.1.changedPaths = [] ∧ second.2.store = first) ↔
        (s.isDirectory c.searchDir = true →
          ∀ id t, s.IsOpen id → decodeText? (s.bytes id) = some t → ∀ k,
            s.timesListed c id = k + 1 → IsFlat (rewriteText^[k] t)) := by
  refine ⟨fun s => ?_, Session.process_process_idle_iff⟩
  intro first second
  have hflat : second.changed = false ↔ IsFlat s := second_pass_unchanged_iff s
  rw [← hflat]
  constructor
  · rintro ⟨-, hsame, -⟩
    exact hsame
  · intro hsame
    exact ⟨(Outcome.changed_eq_false_iff _).1 hsame, hsame, text_replaceCalls_of_not_changed hsame⟩

/-- A call inside an argument is moved by the first pass and replaced by the
    second. -/
theorem second_pass_replaces_nested_call :
    let s := ".withOpacity(.withOpacity(1))".toList
    let first := replaceCalls .withOpacity s
    let second := replaceCalls .withOpacity first.text
    first.text = ".withAlpha((.withOpacity(1) * 255).round())".toList ∧
      second.changed = true ∧ second.text ≠ first.text := by
  decide +kernel

end Codemod
