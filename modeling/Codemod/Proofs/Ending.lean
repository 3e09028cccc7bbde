import Codemod.Proofs.Seam

/-!
# Where a Pass Ends

What the end of a pass says about the heads that it never looked at.

A pass looks at few of the heads in a text. It goes past those inside an
argument, and it stops at the first one that nothing closes. For a plain head
the end of the pass speaks of all of them nevertheless. A head inside an
argument is closed there, because the argument closes what it opens, and heads
do not overlap, so that each of them stands in an argument, behind the closer,
or is the one that the pass met.

Hence a head that stays open is never one that the pass went past. The pass
comes to an end without one exactly when every head of the text is closed, and
otherwise stops at the leftmost of those that are not.

## Theorems

* `CallHead.IsPlain.occurrence_call`: Where a head can stand in a text that
  starts with a call.
* `Segments.tail_of_open_occurrence`: A pass does not go past an open head.
* `tail_of_done`, `tail_of_aborted`: What the end of a pass says of the tail.
* `argumentAt_behind_head`, `Segments.argumentAt_tail`: The argument behind a
  head, and behind the one that a pass stops at.
* `ending_by_all_heads`: The end of a pass, by all heads of the text.
-/

namespace Codemod

variable {h : CallHead}

/-! ## Endings and tails -/

theorem tail_of_done {s : Text} (hend : (replaceCalls h s).ending = .done) :
    ∃ u, (Segmentation.ofText h s).tail = .clear u := by
  rw [replaceCalls, Segmentation.outcome, Segmentation.ending] at hend
  cases htail : (Segmentation.ofText h s).tail with
  | clear u => exact ⟨u, rfl⟩
  | unclosed gap rest depth => simp [htail] at hend

-- An aborted pass says where the head of its tail stands: behind the calls and the gap.
theorem tail_of_aborted {s : Text} {offset line : Nat} {reason : Unbalanced}
    (hend : (replaceCalls h s).ending = .aborted offset line reason) :
    ∃ gap rest, (Segmentation.ofText h s).tail = .unclosed gap rest reason.depth ∧
      let before : Text := (Segmentation.ofText h s).calls.flatMap (Call.source h) ++ gap
      s = before ++ (h.text ++ rest) ∧ offset = before.byteLength ∧
        line = 1 + before.count '\n' ∧ reason.start = before.byteLength + h.width := by
  have hsource := Segmentation.source_ofText h s
  rw [replaceCalls, Segmentation.outcome, Segmentation.ending] at hend
  rw [Segmentation.source] at hsource
  cases htail : (Segmentation.ofText h s).tail with
  | clear u => simp [htail] at hend
  | unclosed gap rest depth =>
      simp only [htail] at hend
      rcases Ending.aborted.inj hend with ⟨rfl, rfl, rfl⟩
      refine ⟨gap, rest, rfl, ?_, rfl, rfl, rfl⟩
      rw [htail, Tail.source] at hsource
      rw [List.append_assoc, hsource]

/-! ## Plain heads -/

/-- In a text that starts with a call, a plain head is the head of that call, or
    lies in its body, or lies behind its closer. -/
theorem CallHead.IsPlain.occurrence_call (hp : h.IsPlain) {gap body rest a b : Text}
    (first : Text.IsLeftmost h.text gap (body ++ ')' :: rest))
    (e : gap ++ (h.text ++ (body ++ ')' :: rest)) = a ++ (h.text ++ b)) :
    (a = gap ∧ b = body ++ ')' :: rest) ∨
      (∃ x y, body = x ++ (h.text ++ y) ∧ b = y ++ ')' :: rest) ∨
      ∃ x, a = gap ++ (h.text ++ (body ++ ')' :: x)) ∧ rest = x ++ (h.text ++ b) := by
  have hfirst := first a b e
  rw [← List.append_assoc] at e
  rcases Text.occurrence_append e with ⟨b', hs, hb⟩ | ⟨a', ha, ht⟩ | hst
  · -- No occurrence starts before the first one, and none behind it ends with it.
    have hlength := congrArg List.length hs
    simp only [List.length_append] at hlength
    have hnil : b' = [] := List.eq_nil_of_length_eq_zero (by omega)
    rw [hnil, List.append_nil] at hs
    exact Or.inl ⟨(List.append_cancel_right hs).symm, by rw [hb, hnil, List.nil_append]⟩
  · rcases Text.occurrence_append ht with ⟨y, hs, hb⟩ | ⟨x, ha', hrest⟩ | hst
    · exact Or.inr (Or.inl ⟨a', y, hs, hb⟩)
    · cases x with
      | nil =>
          rcases List.exists_cons_of_ne_nil h.text_ne_nil with ⟨c, t, hct⟩
          have hc : c = ')' := by
            rw [List.nil_append, hct, List.cons_append] at hrest
            exact (List.cons.inj hrest).1.symm
          have hmem : ')' ∈ h.text := by rw [hct, hc]; exact List.mem_cons_self
          exact absurd hmem (List.count_eq_zero.1 hp.count_close)
      | cons c x =>
          rw [List.cons_append] at hrest
          rcases List.cons.inj hrest with ⟨rfl, hrest'⟩
          exact Or.inr (Or.inr ⟨x, by rw [ha, ha', List.append_assoc], hrest'⟩)
    · exact absurd hst (hp.not_straddles_before_close _ _)
  · exact absurd hst (hp.not_straddles_behind_head _ _)

/-- A pass does not go past a plain head that nothing closes. -/
theorem Segments.tail_of_open_occurrence (hp : h.IsPlain) {s : Text} {g : Segmentation}
    (hg : Segments h.text s g) {a b : Text} (e : s = a ++ (h.text ++ b))
    (isOpen : Text.Covered 0 b) :
    ∃ gap rest depth, g.tail = .unclosed gap rest depth ∧
      g.calls.flatMap (Call.source h) ++ gap <+: a := by
  induction hg generalizing a with
  | clear absent => exact absurd ⟨a, b, by rw [e, List.append_assoc]⟩ absent
  | @unclosed gap rest first _ =>
      exact ⟨gap, rest, _, rfl, first.gap_prefix e⟩
  | @call gap body rest g first balanced _ ih =>
      rcases hp.occurrence_call first e with ⟨rfl, rfl⟩ | ⟨x, y, rfl, rfl⟩ | ⟨x, rfl, hrest⟩
      · -- The head of the call has its closer behind the body.
        have hclosed := isOpen (body ++ [')']) ⟨rest, by rw [List.append_assoc]; rfl⟩
        have htotal := balanced.total
        have hc : [')'].count ')' = 1 := rfl
        have ho : [')'].count '(' = 0 := rfl
        rw [List.count_append, List.count_append] at hclosed
        omega
      · -- What opens in the body is closed in the body.
        have hx := balanced.covered x (List.prefix_append x _)
        have hy := isOpen y (List.prefix_append y _)
        have htotal := balanced.total
        have ho := hp.count_open
        have hc := hp.count_close
        simp only [List.count_append] at htotal
        omega
      · rcases ih hrest with ⟨gap', rest', depth, ht, hpre⟩
        refine ⟨gap', rest', depth, ht, ?_⟩
        have hx : gap ++ (h.text ++ (body ++ ')' :: x)) = Call.source h ⟨gap, body⟩ ++ x := by
          simp only [Call.source, List.append_assoc, List.cons_append, List.nil_append]
        rw [hx, Segmentation.cons, List.flatMap_cons, List.append_assoc]
        exact (List.prefix_append_right_inj _).2 hpre

-- The open head of a tail is the first one behind the calls, and stays open.
theorem Segments.unclosed_tail {s : Text} {g : Segmentation} (hg : Segments h.text s g)
    {gap rest : Text} {depth : Nat} (ht : g.tail = .unclosed gap rest depth) :
    Text.IsLeftmost h.text gap rest ∧ Text.Covered 0 rest := by
  have htail := hg.tail_segments
  rw [ht] at htail
  generalize Tail.source h (.unclosed gap rest depth) = u at htail
  cases htail with
  | unclosed first isOpen => exact ⟨first, isOpen⟩

/-! ## Arguments behind heads -/

/-- There is no argument behind a head exactly when nothing closes that head. -/
theorem argumentAt_behind_head {a b : Text} {e : ArgumentError} :
    argumentAt (a ++ (h.text ++ b)) (a.byteLength + h.width) = .error e ↔
      Text.Covered 0 b ∧
        e = .unbalanced ⟨a.byteLength + h.width, 1 + b.count '(' - b.count ')'⟩ := by
  rw [CallHead.width, ← Text.byteLength_append, ← List.append_assoc, argumentAt_byteLength]
  cases hb : b.splitClose 0 with
  | error depth =>
      rcases Text.splitClose_zero_eq_error_iff.1 hb with ⟨isOpen, rfl⟩
      simp only [Except.error.injEq, isOpen, true_and]
      exact eq_comm
  | ok p =>
      have hclosed : ¬Text.Covered 0 b := fun isOpen => by
        rw [Text.splitClose_zero_eq_error_iff.2 ⟨isOpen, rfl⟩] at hb
        cases hb
      simp only [reduceCtorEq, hclosed, false_and]

/-- Behind the head that a pass stops at there is no argument, and the scan from there
    reports the depth that the tail stores. -/
theorem Segments.argumentAt_tail {s gap u : Text} {g : Segmentation} {depth : Nat}
    (hg : Segments h.text s g) (ht : g.tail = .unclosed gap u depth) :
    let before : Text := g.calls.flatMap (Call.source h) ++ gap
    s = before ++ (h.text ++ u) ∧ argumentAt s (before.byteLength + h.width) =
      .error (.unbalanced ⟨before.byteLength + h.width, depth⟩) := by
  intro before
  have hs : s = before ++ (h.text ++ u) := by
    rw [← Segmentation.source_ofText h s, ← hg.eq_ofText, Segmentation.source, ht,
      List.append_assoc]
    rfl
  refine ⟨hs, ?_⟩
  rw [hg.depth_eq ht, hs]
  exact argumentAt_behind_head.2 ⟨(hg.unclosed_tail ht).2, rfl⟩

/-- A pass ends without an open head exactly when there is an argument behind every
    head of the text. Otherwise it stops at the leftmost head that has none, and
    reports what the scan from behind that head reports. -/
theorem ending_by_all_heads (h : CallHead) (hp : h.IsPlain) (s : Text) :
    ((replaceCalls h s).ending = .done ↔
      ∀ a b : Text, s = a ++ (h.text ++ b) →
        ∃ x, argumentAt s (a.byteLength + h.width) = .ok x) ∧
    ∀ offset line reason, (replaceCalls h s).ending = .aborted offset line reason →
      (∃ a b : Text, s = a ++ (h.text ++ b) ∧ a.byteLength = offset) ∧
      argumentAt s (offset + h.width) = .error (.unbalanced reason) ∧
      ∀ a b : Text, s = a ++ (h.text ++ b) →
        (∃ e, argumentAt s (a.byteLength + h.width) = .error e) → offset ≤ a.byteLength := by
  have hseg := segments_ofText h s
  rw [replaceCalls]
  generalize Segmentation.ofText h s = g at hseg
  rcases g with ⟨calls, u | ⟨gap, u, depth⟩⟩
  · -- No tail with an open head, so no open head at all.
    refine ⟨iff_of_true rfl fun a b e => ?_, fun offset line reason e => by cases e⟩
    cases hx : argumentAt s (a.byteLength + h.width) with
    | ok x => exact ⟨x, rfl⟩
    | error r =>
        rw [e] at hx
        rcases hseg.tail_of_open_occurrence hp e (argumentAt_behind_head.1 hx).1 with
          ⟨_, _, _, ht, -⟩
        cases ht
  · rcases hseg.argumentAt_tail rfl with ⟨hs, hfail⟩
    constructor
    · refine iff_of_false (fun e => by cases e) fun hall => ?_
      rcases hall _ _ hs with ⟨x, hx⟩
      rw [hfail] at hx
      cases hx
    · intro offset line reason e
      rcases Ending.aborted.inj e with ⟨rfl, -, rfl⟩
      refine ⟨⟨_, _, hs, rfl⟩, hfail, fun a b hab hopen => ?_⟩
      rcases hopen with ⟨r, hr⟩
      rw [hab] at hr
      rcases hseg.tail_of_open_occurrence hp hab (argumentAt_behind_head.1 hr).1 with
        ⟨_, _, _, ht, hpre⟩
      rcases Tail.unclosed.inj ht with ⟨rfl, -, -⟩
      exact Text.byteLength_le_of_prefix hpre

/-- The second head is not closed, and the head inside its argument is. -/
theorem ending_at_outer_head :
    let h : CallHead := ⟨"f".toList⟩
    let s := "f(1) f(f(2) + 3".toList
    h.IsPlain ∧ (replaceCalls h s).ending = .aborted 5 1 ⟨7, 1⟩ ∧
      argumentAt s 7 = .error (.unbalanced ⟨7, 1⟩) ∧ argumentAt s 9 = .ok ⟨['2'], 11⟩ ∧
      ∀ a b : Text, s = a ++ (h.text ++ b) →
        (∃ e, argumentAt s (a.byteLength + h.width) = .error e) → 5 ≤ a.byteLength := by
  intro h s
  have hp : h.IsPlain := by constructor <;> decide +kernel
  have hend : (replaceCalls h s).ending = .aborted 5 1 ⟨7, 1⟩ := by decide +kernel
  have hinner : argumentAt s 9 = .ok ⟨['2'], 11⟩ := by rfl
  rcases (ending_by_all_heads h hp s).2 5 1 ⟨7, 1⟩ hend with ⟨-, hfail, hleast⟩
  exact ⟨hp, hend, hfail, hinner, hleast⟩

end Codemod
