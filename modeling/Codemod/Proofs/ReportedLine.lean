import Codemod.Proofs.Accounting
import Codemod.Proofs.Counting
import Codemod.Proofs.Ending

/-!
# The Line of an Unclosed Head

What the reported line of an unclosed head is worth once the text is rewritten.

A pass that stops at an open head reports the line of that head in the text that
it has read. Everything from the head on is kept, and so the head stands in the
result as far from the end as it stood in the text. It need not stand on the
same line. A replaced call has the line feeds of its argument and no others, but
the argument is trimmed, and an argument that begins or ends on a line of its
own loses line feeds. Each of them moves the head up by one line.

A run writes what a pass makes, and a path that leads to the same file by
another name makes the run pass over the file again. The later passes stop at
the same head and lose line feeds in their turn. So the line that a record and a
warning give is the one of the text that was read at that turn. It is the line
in the file that the run leaves behind exactly when no pass from that turn on
has trimmed a line feed, and in a dry run it always is.

## Main definitions

* `KeepsLines`: No line feed is trimmed.
* `feedsTrimmed`, `feedsTrimmedBy`: The line feeds that passes trim.
* `StopsAt`: Where a pass stops.
* `EndsAlike`: Two texts that end alike from a head on.

## Theorems

* `StopsAt.rewriteText`, `StopsAt.rewriteText_iterate`: One pass, and passes in
  a row.
* `Store.store_behind_turn`: What a turn and the turns behind it leave.
* `line_of_unclosed_head`: The reported line, in the result and on disk.
* `line_of_unclosed_head_behind_link`: A file that is passed over twice.
* `unclosed_head_moves_up`: A line feed before an argument.
-/

namespace Codemod

/-! ## Line feeds that are trimmed -/

/-- The arguments of all calls keep their line feeds when they are trimmed. -/
def KeepsLines (s : Text) : Prop :=
  ∀ c ∈ (Segmentation.ofText .withOpacity s).calls, c.body.trim.count '\n' = c.body.count '\n'

/-- The number of line feeds that a pass trims from arguments. -/
def feedsTrimmed (s : Text) : Nat :=
  ((Segmentation.ofText .withOpacity s).calls.map fun c =>
    c.body.count '\n' - c.body.trim.count '\n').sum

/-- The number of line feeds that `n` passes in a row trim from arguments. -/
def feedsTrimmedBy : Nat → Text → Nat
  | 0, _ => 0
  | n + 1, s => feedsTrimmed s + feedsTrimmedBy n (rewriteText s)

theorem feedsTrimmed_eq_zero_iff {s : Text} : feedsTrimmed s = 0 ↔ KeepsLines s := by
  rw [feedsTrimmed, List.sum_eq_zero_iff_forall_eq_nat, List.forall_mem_map]
  refine forall₂_congr fun c _ => ?_
  have := count_trim_le '\n' c.body
  omega

theorem feedsTrimmedBy_eq_zero_iff {n : Nat} {s : Text} :
    feedsTrimmedBy n s = 0 ↔ ∀ k < n, KeepsLines (rewriteText^[k] s) := by
  induction n generalizing s with
  | zero => simp [feedsTrimmedBy]
  | succ n ih =>
      rw [feedsTrimmedBy, Nat.add_eq_zero_iff, feedsTrimmed_eq_zero_iff, ih]
      constructor
      · rintro ⟨hfirst, hlater⟩ k hk
        cases k with
        | zero => exact hfirst
        | succ k => exact hlater k (Nat.lt_of_succ_lt_succ hk)
      · exact fun h => ⟨h 0 (Nat.succ_pos n), fun k hk => h (k + 1) (Nat.succ_lt_succ hk)⟩

/-! ## Where passes stop -/

/-- A pass over the text stops at the head between `before` and `rest`. -/
structure StopsAt (s before rest : Text) : Prop where
  source : s = before ++ (CallHead.withOpacity.text ++ rest)
  openRest? : (Segmentation.ofText .withOpacity s).openRest? = some rest

theorem stopsAt_of_aborted {s : Text} {offset line : Nat} {reason : Unbalanced}
    (hend : (replaceCalls .withOpacity s).ending = .aborted offset line reason) :
    ∃ before rest, StopsAt s before rest ∧ offset = before.byteLength ∧
      line = 1 + before.count '\n' := by
  rcases tail_of_aborted hend with ⟨gap, rest, htail, hs, hoffset, hline, -⟩
  exact ⟨_, rest, ⟨hs, Segmentation.openRest?_eq_some_iff.2 ⟨gap, _, htail⟩⟩, hoffset, hline⟩

namespace StopsAt

variable {s before rest : Text}

/-- A pass over the result of a pass stops at the same head. The text before it has
    lost the line feeds that were trimmed. -/
theorem rewriteText (h : StopsAt s before rest) :
    ∃ before', StopsAt (rewriteText s) before' rest ∧
      before'.count '\n' + feedsTrimmed s = before.count '\n' := by
  rcases Segmentation.openRest?_eq_some_iff.1 h.openRest? with ⟨gap, depth, htail⟩
  let calls := (Segmentation.ofText .withOpacity s).calls
  have hbefore : before = calls.flatMap (Call.source .withOpacity) ++ gap := by
    have hsource := (Segmentation.source_ofText .withOpacity s).trans h.source
    rw [Segmentation.source, htail, Tail.source, ← List.append_assoc] at hsource
    exact (List.append_cancel_right hsource).symm
  have hresult : Codemod.rewriteText s =
      calls.flatMap Call.replaced ++ (gap ++ (CallHead.withOpacity.text ++ rest)) :=
    (text_replaceCalls .withOpacity s).trans (by rw [htail, Tail.source])
  have hnext := (segments_ofText .withOpacity s).bodies_and_openRest?_replaced.2
  -- Neither the template nor the head has a line feed.
  have hcalls : (calls.flatMap Call.replaced).count '\n' + feedsTrimmed s =
      (calls.flatMap (Call.source .withOpacity)).count '\n' := by
    have hhead : CallHead.withOpacity.text.count '\n' = 0 := rfl
    have hadd := count_flatMap_replaced_add (c := '\n') (by decide) .withOpacity calls
    rwa [hhead, Nat.mul_zero, Nat.zero_add] at hadd
  refine ⟨calls.flatMap Call.replaced ++ gap,
    ⟨by rw [hresult, List.append_assoc], hnext.trans h.openRest?⟩, ?_⟩
  rw [hbefore, List.count_append, List.count_append]
  omega

/-- Passes in a row all stop at the same head. -/
theorem rewriteText_iterate (h : StopsAt s before rest) (n : Nat) :
    ∃ before', StopsAt (Codemod.rewriteText^[n] s) before' rest ∧
      before'.count '\n' + feedsTrimmedBy n s = before.count '\n' := by
  induction n generalizing s before with
  | zero => exact ⟨before, h, rfl⟩
  | succ n ih =>
      rcases h.rewriteText with ⟨between, hbetween, hfirst⟩
      rcases ih hbetween with ⟨before', hstops, hlater⟩
      refine ⟨before', hstops, ?_⟩
      rw [feedsTrimmedBy]
      omega

end StopsAt

/-- The head at byte `offset` of the text `s`, with all that follows, is also the end
    of the text `t`. -/
def EndsAlike (s : Text) (offset : Nat) (t : Text) : Prop :=
  ∃ before before' rest : Text, s = before ++ (CallHead.withOpacity.text ++ rest) ∧
    before.byteLength = offset ∧ t = before' ++ (CallHead.withOpacity.text ++ rest) ∧
    before'.byteLength = t.byteLength - (s.byteLength - offset)

/-- Behind passes over a text, the head that the first of them stopped at stands on
    the reported line less the line feeds that were trimmed. -/
theorem line_behind_passes {s : Text} {offset line : Nat} {reason : Unbalanced}
    (hend : (replaceCalls .withOpacity s).ending = .aborted offset line reason) (n : Nat) :
    let t := rewriteText^[n] s
    EndsAlike s offset t ∧
      t.lineAt (t.byteLength - (s.byteLength - offset)) + feedsTrimmedBy n s = line := by
  intro t
  rcases stopsAt_of_aborted hend with ⟨before, rest, hstops, rfl, rfl⟩
  rcases hstops.rewriteText_iterate n with ⟨before', hstops', hcount⟩
  have hs := hstops.source
  have ht : t = before' ++ (CallHead.withOpacity.text ++ rest) := hstops'.source
  -- The head and what follows it are as long in the one text as in the other.
  have hstart : before'.byteLength = t.byteLength - (s.byteLength - before.byteLength) := by
    simp only [ht, hs, Text.byteLength_append]
    omega
  refine ⟨⟨before, before', rest, hs, rfl, ht, hstart⟩, ?_⟩
  rw [← hstart, ht, Text.lineAt_byteLength]
  omega

/-! ## Turns and what follows them -/

namespace Store

variable {s : Store} {c : Config} {ps : List Path} {earlier later : List Turn} {t : Turn}

-- A turn and the turns behind it are those of a list by themselves.
theorem turns_of_turns (h : s.turns c ps = earlier ++ t :: later) :
    t.store.turns c ((t :: later).map Turn.path) = t :: later := by
  induction ps generalizing s earlier with
  | nil => cases earlier <;> cases h
  | cons p ps ih =>
      rw [turns] at h
      cases earlier with
      | nil =>
          obtain ⟨rfl, rfl⟩ := List.cons.inj h
          rw [List.map_cons, path_turns, turns]
      | cons first earlier => exact ih (List.cons.inj h).2

/-- Turns leave what visits to the paths of the last of them leave of the store that
    these have met. -/
theorem store_behind_turn (h : s.turns c ps = earlier ++ t :: later) :
    s.writeAll ((s.turns c ps).filterMap (Turn.write? · c)) =
      if c.dryRun then t.store else t.store.afterVisits ((t :: later).map Turn.path) := by
  have hvisits := (Session.visitAll_turns (s := { store := t.store }) rfl c
    ((t :: later).map Turn.path)).2
  rw [turns_of_turns h] at hvisits
  rw [h, List.filterMap_append, writeAll_append, ← store_of_turns h, ← hvisits]
  cases hdry : c.dryRun with
  | true =>
      rw [if_pos rfl]
      exact Session.visitAll_store_of_dryRun rfl hdry _
  | false =>
      rw [if_neg Bool.false_ne_true]
      exact Session.visitAll_store rfl hdry _

/-- The text that a run leaves of a file is the one that a turn has met, passed over
    once for that turn and for each later turn of the same file, if the file lets
    itself be written. -/
theorem text_behind_turn (h : s.turns c ps = earlier ++ t :: later) {id : FileId} {u : Text}
    (hread : t.store.readText t.path = .ok (id, u)) :
    let passes := if c.dryRun = false ∧ s.IsOpen id then
      (t :: later).countP fun x => s.leadsTo id x.path else 0
    decodeText? ((s.writeAll ((s.turns c ps).filterMap (Turn.write? · c))).bytes id) =
      some (rewriteText^[passes] u) := by
  intro passes
  have ht : t ∈ s.turns c ps := h ▸ List.mem_append_right _ List.mem_cons_self
  have hb := (readText_eq_ok_iff.1 hread).2.2
  have hleads : t.store.leadsTo id = s.leadsTo id := by
    funext p
    rw [leadsTo, leadsTo, fileAt_turns ht]
  have hopen : t.store.IsOpen id ↔ s.IsOpen id := by rw [IsOpen, IsOpen, access_turns ht]
  rw [store_behind_turn h]
  cases hdry : c.dryRun with
  | true =>
      have hnone : passes = 0 := if_neg fun hwrites => by
        rw [hdry] at hwrites
        cases hwrites.1
      rw [if_pos rfl, hnone, hb]
      rfl
  | false =>
      have hpasses : passes = t.store.passes
          (fun id => ((t :: later).map Turn.path).countP (t.store.leadsTo id)) id := by
        simp only [passes, Store.passes, hdry, true_and, hopen, hleads, List.countP_map]
        rfl
      rw [if_neg Bool.false_ne_true, afterVisits, bytes_afterPasses, decodeText?_bytesAfter, hb,
        ← hpasses, Option.map_some]

end Store

/-! ## Reported lines -/

/-- What a turn says of a text whose pass stops at an open head, unless it cannot
    write the result. -/
theorem Turn.reports_of_aborted {t : Turn} {c : Config} {id : FileId} {u : Text}
    {offset line : Nat} {reason : Unbalanced} (hread : t.store.readText t.path = .ok (id, u))
    (hwritten : ¬t.Unwritten c)
    (hend : (replaceCalls .withOpacity u).ending = .aborted offset line reason) :
    (∃ r, (t.visit c).record? = some r ∧ r.path = c.reported t.path ∧
      r.unbalancedLine = some line) ∧
    (t.visit c).warning? = some (s!"{c.reported t.path}:{line}: {reason.message}; " ++
      ".withOpacity( call and rest of file left unchanged") := by
  have hvisit : t.visit c = ⟨c.reported t.path, .ok (replaceCalls .withOpacity u)⟩ :=
    visit_of_not_unwritten hread hwritten
  have hline := Outcome.unbalancedLine?_eq_some_iff.2 ⟨offset, reason, hend⟩
  rw [hvisit]
  refine ⟨⟨_, Visit.record?_eq_some_iff.2 ⟨.inr (by rw [hline]; rfl), rfl⟩, rfl, hline⟩, ?_⟩
  simp only [Visit.warning?, hend]

/-- A pass that stops reports the line of the head in the text that it has read. In
    its result the head, with all that follows, stands as far from the end, and on
    that line less the line feeds that were trimmed from arguments. A record and a
    warning give the line for the text of their turn, unless the turn comes to an
    error because its result cannot be written. In the file as the run leaves it,
    the head stands on that line less the line feeds that were trimmed from that
    turn on, which are none in a dry run and none where the file cannot be
    written. -/
theorem line_of_unclosed_head :
    (∀ (s : Text) (offset line : Nat) (reason : Unbalanced),
      (replaceCalls .withOpacity s).ending = .aborted offset line reason →
      let out := (replaceCalls .withOpacity s).text
      let start := out.byteLength - (s.byteLength - offset)
      EndsAlike s offset out ∧ s.lineAt offset = line ∧
        out.lineAt start + feedsTrimmed s = line ∧ (out.lineAt start = line ↔ KeepsLines s)) ∧
    ∀ (s : Store) (c : Config), s.isDirectory c.searchDir = true →
      let run := Session.process { store := s } c
      ∀ earlier t later, s.turns c (s.sourceFiles c).1 = earlier ++ t :: later →
      ∀ id u, t.store.readText t.path = .ok (id, u) →
      ∀ offset line reason, (replaceCalls .withOpacity u).ending = .aborted offset line reason →
      let passes := if c.dryRun = false ∧ s.IsOpen id then
        (t :: later).countP fun x => s.leadsTo id x.path else 0
      (¬t.Unwritten c →
        (∃ r ∈ run.1.records, r.path = c.reported t.path ∧ r.unbalancedLine = some line) ∧
        (s!"{c.reported t.path}:{line}: {reason.message}; " ++
          ".withOpacity( call and rest of file left unchanged") ∈ run.2.err) ∧
      ∃ v, decodeText? (run.2.store.bytes id) = some v ∧
        let start := v.byteLength - (u.byteLength - offset)
        EndsAlike u offset v ∧ u.lineAt offset = line ∧
          v.lineAt start + feedsTrimmedBy passes u = line ∧
          (v.lineAt start = line ↔ ∀ k < passes, KeepsLines (rewriteText^[k] u)) := by
  have hread : ∀ {s : Text} {offset line : Nat} {reason : Unbalanced},
      (replaceCalls .withOpacity s).ending = .aborted offset line reason →
        s.lineAt offset = line := by
    intro s offset line reason hend
    rcases stopsAt_of_aborted hend with ⟨before, rest, hstops, rfl, rfl⟩
    rw [hstops.source, Text.lineAt_byteLength]
  constructor
  · intro s offset line reason hend out start
    rcases line_behind_passes hend 1 with ⟨halike, hline⟩
    have hline' : out.lineAt start + feedsTrimmed s = line := hline
    refine ⟨halike, hread hend, hline', ?_⟩
    rw [← feedsTrimmed_eq_zero_iff]
    omega
  · intro s c hdir run earlier t later hturns id u htext offset line reason hend passes
    obtain ⟨hreport, hsaid, hstore⟩ : run.1 = _ ∧ _ ∧ _ := Session.process_turns s hdir
    have hmem : t ∈ s.turns c (s.sourceFiles c).1 := by
      rw [hturns]
      exact List.mem_append_right _ List.mem_cons_self
    rcases line_behind_passes hend passes with ⟨halike, hline⟩
    refine ⟨fun hwritten => ?_, _, ?_, halike, hread hend, hline, ?_⟩
    · rcases Turn.reports_of_aborted htext hwritten hend with ⟨⟨r, hr, hpath, hrline⟩, hwarning⟩
      rw [hreport, hsaid]
      exact ⟨⟨r, List.mem_filterMap.2 ⟨t, hmem, hr⟩, hpath, hrline⟩,
        List.mem_append_right _ (List.mem_filterMap.2 ⟨t, hmem, hwarning⟩)⟩
    · rw [hstore]
      exact Store.text_behind_turn hturns htext
    · rw [← feedsTrimmedBy_eq_zero_iff]
      omega

/-- A directory with a file, whose outer call stands on one line and its inner one
    on two, and a link to that file beside it. -/
def nestedTwice : Store where
  top :=
    .directory (.ofString "ui" (by decide))
      (.file (.ofString "page.dart" (by decide)) 0
        (.link (.ofString "same.dart" (by decide)) (.ofString "page.dart") .empty))
      .empty
  ordered := by
    simp [Folder.Ordered, Folder.names]
    decide
  bytes := fun _ => encodeText ".withOpacity(.withOpacity(\n1))\n.withOpacity(2".toList
  here := []

/-- The first pass trims nothing and reports the line that the head keeps. The pass
    behind the link brings the head one line up from the reported one. -/
theorem line_of_unclosed_head_behind_link :
    let u : Text := ".withOpacity(.withOpacity(\n1))\n.withOpacity(2".toList
    let out := (replaceCalls .withOpacity u).text
    let c : Config := ⟨.ofString "/", .ofString "ui", "dart", false⟩
    let run := Session.process { store := nestedTwice } c
    out.lineAt (out.byteLength - (u.byteLength - 31)) = 3 ∧
      (∃ r ∈ run.1.records, r.path = "ui/page.dart" ∧ r.unbalancedLine = some 3) ∧
      ∃ v, decodeText? (run.2.store.bytes 0) = some v ∧
        v.lineAt (v.byteLength - (u.byteLength - 31)) = 2 := by
  intro u out c run
  have hend : (replaceCalls .withOpacity u).ending = .aborted 31 3 ⟨44, 1⟩ := by decide +kernel
  have hread : nestedTwice.readText (.ofString "/ui/page.dart") = .ok (0, u) :=
    Store.readText_eq_ok_iff.2 ⟨by decide +kernel, rfl, decodeText?_encodeText _⟩
  have hfiles : (nestedTwice.sourceFiles c).1 =
      ["/ui/page.dart", "/ui/same.dart"].map Path.ofString := by decide +kernel
  rcases line_of_unclosed_head.1 u 31 3 ⟨44, 1⟩ hend with ⟨-, -, -, hkept⟩
  rcases line_of_unclosed_head.2 nestedTwice c (by decide +kernel) [] ⟨_, nestedTwice⟩ _
      (by rw [hfiles]; rfl) 0 u hread 31 3 ⟨44, 1⟩ hend with
    ⟨hreported, v, hv, -, -, hmoved, -⟩
  have hwritten : ¬(⟨.ofString "/ui/page.dart", nestedTwice⟩ : Turn).Unwritten c :=
    Turn.not_unwritten_of_write_eq_none fun _ => rfl
  rcases hreported hwritten with ⟨⟨r, hr, hpath, hline⟩, -⟩
  -- The run stays unopened.
  have hrun : Session.process { store := nestedTwice } c = run := rfl
  rw [hrun] at hr hv
  refine ⟨hkept.2 (feedsTrimmed_eq_zero_iff.1 (by decide +kernel)), ⟨r, hr, ?_, hline⟩, v, hv, ?_⟩
  · rw [hpath]
    decide +kernel
  · -- Two passes trim one line feed.
    refine Nat.add_right_cancel (hmoved.trans ?_)
    decide +kernel

/-- A line feed before an argument is trimmed, and the head behind the call comes up
    to the first line, while the second is reported. -/
theorem unclosed_head_moves_up :
    let s : Text := ".withOpacity(\n1).withOpacity(2".toList
    let out := replaceCalls .withOpacity s
    out.ending = .aborted 16 2 ⟨29, 1⟩ ∧
      out.text = ".withAlpha((1 * 255).round()).withOpacity(2".toList ∧
      out.text.lineAt (out.text.byteLength - (s.byteLength - 16)) = 1 := by
  decide +kernel

end Codemod
