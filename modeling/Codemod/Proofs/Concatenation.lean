import Codemod.Proofs.Ending

/-!
# Passes over Joined Texts

A pass does not see how a text came about.

A file is put together from parts, and one may ask what a pass over it has to do
with passes over the parts. As long as no head lies across the place where two
parts meet, it is nothing but the one pass behind the other. The first part has
to come to an end without an open head, because such a head takes in all that
follows. Its tail then has no head either, and the search that comes from there
goes on into the second part as if that were all there is.

What a pass reports are positions in its text. With a text in front they are
further on by the bytes and the lines of that text, and this is all that a pass
over the second part needs to be told: the depth at which it ends is a number of
parentheses behind the head, which the first part does not have.

The head is any head. It may overlap itself, or hold parentheses, as long as it
does not lie across the place in question.

## Main definitions

* `Ending.behind`: An ending with a text in front.

## Theorems

* `Text.apart_iff`: When no occurrence lies across a seam, by positions.
* `Segmentation.replaced_append`, `Segmentation.ending_append`: What a pass makes
  of calls, a text behind them and a segmentation.
* `replaceCalls_append`: A pass over two texts.
* `replaceCalls_append_of_truncated_call`: Two lines, the second cut off.
-/

namespace Codemod

/-! ## Occurrences apart from a seam -/

namespace Text

theorem byteLength_eq_zero_iff {s : Text} : s.byteLength = 0 ↔ s = [] := by
  cases s with
  | nil => simp
  | cons c s =>
      have := c.utf8Size_pos
      simp only [byteLength_cons, reduceCtorEq, iff_false]
      omega

/-- No occurrence lies across a seam exactly when each of them ends before it or
    starts behind it. -/
theorem apart_iff {head s t : Text} :
    (∀ a b : Text, s ++ t = a ++ (head ++ b) →
      a.byteLength + head.byteLength ≤ s.byteLength ∨ s.byteLength ≤ a.byteLength) ↔
      ¬Straddles head s t := by
  constructor
  · rintro hapart ⟨x, y, hx, hy, rfl, ⟨a, rfl⟩, ⟨b, rfl⟩⟩
    -- The two pieces of the head have a length, so it starts before and ends behind.
    have hxpos := mt byteLength_eq_zero_iff.1 hx
    have hypos := mt byteLength_eq_zero_iff.1 hy
    have hside := hapart a b (by simp only [List.append_assoc])
    simp only [byteLength_append] at hside
    omega
  · intro hseam a b e
    rcases occurrence_append e with ⟨b', rfl, -⟩ | ⟨a', rfl, -⟩ | hst
    · refine Or.inl ?_
      simp only [byteLength_append]
      omega
    · refine Or.inr ?_
      rw [byteLength_append]
      exact Nat.le_add_right _ _
    · exact absurd hst hseam

end Text

/-! ## Endings -/

/-- The ending of a pass whose text has `t` in front. -/
def Ending.behind (t : Text) : Ending → Ending
  | .done => .done
  | .aborted offset line reason =>
    .aborted (t.byteLength + offset) (t.count '\n' + line)
      ⟨t.byteLength + reason.start, reason.depth⟩

theorem Ending.behind_append (s t : Text) (e : Ending) :
    e.behind (s ++ t) = (e.behind t).behind s := by
  cases e with
  | done => rfl
  | aborted offset line reason =>
      simp only [behind, Text.byteLength_append, List.count_append, Nat.add_assoc]

namespace Segmentation

variable (h : CallHead) (c : Call) (calls : List Call) (t : Text) (g : Segmentation)

/-! ## Text in front -/

theorem length_calls_prepend : (g.prepend t).calls.length = g.calls.length := by
  rcases g with ⟨_ | ⟨c, calls⟩, _ | _⟩ <;> rfl

theorem replaced_prepend : (g.prepend t).replaced h = t ++ g.replaced h := by
  rcases g with ⟨_ | ⟨c, calls⟩, u | ⟨gap, rest, depth⟩⟩ <;>
    simp [prepend, replaced, Tail.source, Call.replaced]

theorem ending_prepend : (g.prepend t).ending h = (g.ending h).behind t := by
  rcases g with ⟨_ | ⟨c, calls⟩, u | ⟨gap, rest, depth⟩⟩ <;>
    simp [prepend, ending, Ending.behind, Call.source, Nat.add_assoc, Nat.add_left_comm]

/-! ## Calls in front -/

theorem ending_cons : (g.cons c).ending h = (g.ending h).behind (c.source h) := by
  rcases g with ⟨calls, u | ⟨gap, rest, depth⟩⟩ <;>
    simp [cons, ending, Ending.behind, Nat.add_assoc, Nat.add_left_comm]

theorem append_cons : append (c :: calls) t g = (append calls t g).cons c := rfl

theorem length_calls_append :
    (append calls t g).calls.length = calls.length + g.calls.length := by
  rw [append, List.length_append, length_calls_prepend]

theorem replaced_append :
    (append calls t g).replaced h = calls.flatMap Call.replaced ++ (t ++ g.replaced h) := by
  induction calls with
  | nil => exact replaced_prepend h t g
  | cons c calls ih =>
      rw [append_cons, replaced_cons, ih, List.flatMap_cons, List.append_assoc]

theorem ending_append :
    (append calls t g).ending h = (g.ending h).behind (calls.flatMap (Call.source h) ++ t) := by
  induction calls with
  | nil => exact ending_prepend h t g
  | cons c calls ih =>
      rw [append_cons, ending_cons, ih, ← Ending.behind_append, List.flatMap_cons,
        List.append_assoc]

end Segmentation

/-! ## Passes -/

/-- A pass over two texts is a pass over the first and a pass over the second, if
    the first comes to its end without an open head and no head lies across the
    seam. The results and the counts are put together, and the ending is that of
    the second pass, moved by the bytes and the lines of the first text. -/
theorem replaceCalls_append (h : CallHead) {s t : Text} (hdone : (replaceCalls h s).ending = .done)
    (hapart : ∀ a b : Text, s ++ t = a ++ (h.text ++ b) →
      a.byteLength + h.width ≤ s.byteLength ∨ s.byteLength ≤ a.byteLength) :
    let first := replaceCalls h s
    let second := replaceCalls h t
    let both := replaceCalls h (s ++ t)
    both.text = first.text ++ second.text ∧
      both.replacements = first.replacements + second.replacements ∧
      both.ending = second.ending.behind s ∧
      (both.changed = true ↔ first.changed = true ∨ second.changed = true) := by
  intro first second both
  have hseam : ¬Text.Straddles h.text s t := Text.apart_iff.1 hapart
  -- The first text ends in a tail that belongs to no call.
  rcases tail_of_done hdone with ⟨u, hu⟩
  have hboth : both = (Segmentation.append (Segmentation.ofText h s).calls u
      (Segmentation.ofText h t)).outcome h := by
    rw [← Segmentation.ofText_append hu hseam]
    rfl
  have hsource : (Segmentation.ofText h s).calls.flatMap (Call.source h) ++ u = s := by
    have := Segmentation.source_ofText h s
    rwa [Segmentation.source, hu] at this
  have hfirst : first.text = (Segmentation.ofText h s).calls.flatMap Call.replaced ++ u :=
    (text_replaceCalls h s).trans (by rw [hu, Tail.source])
  have hcount : both.replacements = first.replacements + second.replacements := by
    rw [hboth]
    exact Segmentation.length_calls_append _ u _
  refine ⟨?_, hcount, ?_, ?_⟩
  · rw [hboth, hfirst, List.append_assoc]
    exact Segmentation.replaced_append h _ u _
  · rw [hboth]
    refine (Segmentation.ending_append h _ u _).trans ?_
    rw [hsource]
    rfl
  · simp only [Outcome.changed, decide_eq_true_iff, hcount]
    omega

/-- A line with a call and a line with a call that is cut off, behind characters of
    several bytes. The head has two parentheses. -/
theorem replaceCalls_append_of_truncated_call :
    let h : CallHead := ⟨"f(".toList⟩
    let s : Text := "f((1) é\n".toList
    let t : Text := "x\nf((2".toList
    let both := replaceCalls h (s ++ t)
    (replaceCalls h s).ending = .done ∧
      (∀ a b : Text, s ++ t = a ++ (h.text ++ b) →
        a.byteLength + h.width ≤ s.byteLength ∨ s.byteLength ≤ a.byteLength) ∧
      (replaceCalls h t).ending = .aborted 2 2 ⟨5, 1⟩ ∧
      both.text = ".withAlpha((1 * 255).round()) é\nx\nf((2".toList ∧
      both.replacements = 1 ∧ both.ending = .aborted 11 3 ⟨14, 1⟩ ∧ both.changed = true := by
  intro h s t both
  have hdone : (replaceCalls h s).ending = .done := by decide +kernel
  have hopen : (replaceCalls h t).ending = .aborted 2 2 ⟨5, 1⟩ := by decide +kernel
  have hapart : ∀ a b : Text, s ++ t = a ++ (h.text ++ b) →
      a.byteLength + h.width ≤ s.byteLength ∨ s.byteLength ≤ a.byteLength := by
    -- A line feed at the seam keeps every head on one side.
    have hlast : s = "f((1) é".toList ++ ['\n'] := rfl
    refine Text.apart_iff.2 ?_
    rw [hlast]
    exact Text.not_straddles_of_last (by decide)
  rcases replaceCalls_append h hdone hapart with ⟨htext, hcount, hend, hchanged⟩
  refine ⟨hdone, hapart, hopen, ?_, ?_, ?_, ?_⟩
  · refine htext.trans ?_
    decide +kernel
  · refine hcount.trans ?_
    decide +kernel
  · refine hend.trans ?_
    rw [hopen]
    decide +kernel
  · exact hchanged.2 (Or.inl (by decide +kernel))

end Codemod
