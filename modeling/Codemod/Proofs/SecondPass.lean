import Codemod.Proofs.Seam
import Mathlib.Algebra.GroupWithZero.Nat

/-!
# A Pass over the Result of a Pass

What is left to replace in a text whose calls have been replaced.

The result of a pass is the text between the calls, the template, the trimmed
arguments and the tail, one behind the other. The head of the deprecated call
straddles none of the seams: it holds a point at its front and nowhere else, no
blank, and no parenthesis but its last character, and the template starts with a
point, continues behind the argument with a blank, and puts a parenthesis on
either side of what is inserted. The template holds no such head either.

So a second pass meets the heads inside the arguments of the first one, and no
others. An argument is balanced, hence all of its heads are closed in it, and a
second pass replaces in an argument what a pass over that argument alone would
replace.

## Main definitions

* `opening`, `closing`: The template around an argument.

## Theorems

* `Segmentation.ofText_withAlpha`: Cutting up a text that starts with a replaced
  call.
* `Segments.bodies_and_openRest?_replaced`: What a second pass finds.
* `Segments.length_calls_replaced`: How much of it there is.
* `second_pass_unchanged_iff`: When that is nothing.
-/

namespace Codemod

/-- What the template puts in front of an argument. -/
def opening : Text := ".withAlpha((".toList

/-- What the template puts behind an argument. -/
def closing : Text := " * 255).round())".toList

theorem withAlpha_eq (expr : Text) : withAlpha expr = opening ++ (expr ++ closing) :=
  List.append_assoc _ _ _

theorem byteLength_withAlpha (expr : Text) :
    (withAlpha expr).byteLength = expr.byteLength + 28 := by
  have hopening : opening.byteLength = 12 := rfl
  have hclosing : closing.byteLength = 16 := rfl
  rw [withAlpha_eq, Text.byteLength_append, Text.byteLength_append, hopening, hclosing]
  omega

theorem CallHead.isPlain_withOpacity : CallHead.withOpacity.IsPlain := by
  constructor <;> decide

/-! ## The seams of a replaced call -/

theorem not_straddles_before_opening (s t : Text) :
    ¬Text.Straddles CallHead.withOpacity.text s (opening ++ t) := by
  have h : opening = '.' :: "withAlpha((".toList := rfl
  rw [h]
  exact Text.not_straddles_of_head (by decide)

theorem not_straddles_behind_opening (s t : Text) :
    ¬Text.Straddles CallHead.withOpacity.text (s ++ opening) t := by
  have h : opening = ".withAlpha(".toList ++ ['('] := rfl
  rw [h, ← List.append_assoc]
  exact Text.not_straddles_of_last (by decide)

theorem not_straddles_before_closing (s t : Text) :
    ¬Text.Straddles CallHead.withOpacity.text s (closing ++ t) := by
  have h : closing = ' ' :: "* 255).round())".toList := rfl
  rw [h]
  exact Text.not_straddles_of_head (by decide)

theorem not_straddles_behind_closing (t : Text) :
    ¬Text.Straddles CallHead.withOpacity.text closing t := by
  have h : closing = " * 255).round()".toList ++ [')'] := rfl
  rw [h]
  exact Text.not_straddles_of_last (by decide)

-- The head has a capital letter, and the template has none.
theorem not_infix_of_not_mem {s : Text} (hs : 'O' ∉ s) : ¬CallHead.withOpacity.text <:+: s := by
  intro hin
  have hletter : 'O' ∈ CallHead.withOpacity.text := by decide
  exact hs (hin.subset hletter)

theorem not_infix_opening : ¬CallHead.withOpacity.text <:+: opening :=
  not_infix_of_not_mem (by decide)

theorem not_infix_closing : ¬CallHead.withOpacity.text <:+: closing :=
  not_infix_of_not_mem (by decide)

/-- A text that starts with a replaced call holds the calls of its argument, then
    those of the text behind it. -/
theorem Segmentation.ofText_withAlpha {gap e u t : Text}
    (hgap : ¬CallHead.withOpacity.text <:+: gap) (he : (ofText .withOpacity e).tail = .clear u) :
    ofText .withOpacity (gap ++ (withAlpha e ++ t)) =
      (append (ofText .withOpacity e).calls u
        ((ofText .withOpacity t).prepend closing)).prepend (gap ++ opening) := by
  have hopening : ¬CallHead.withOpacity.text <:+: gap ++ opening := by
    rw [List.infix_append_iff_ne_nil, not_or, not_or]
    refine ⟨hgap, not_infix_opening, fun hst => ?_⟩
    refine not_straddles_before_opening gap [] ?_
    rw [List.append_nil]
    exact hst
  have hsplit : gap ++ (withAlpha e ++ t) = (gap ++ opening) ++ (e ++ (closing ++ t)) := by
    rw [withAlpha_eq]
    simp only [List.append_assoc]
  rw [hsplit, ofText_append_of_absent hopening (not_straddles_behind_opening _ _),
    ofText_append he (not_straddles_before_closing _ _),
    ofText_append_of_absent not_infix_closing (not_straddles_behind_closing _)]

/-! ## The second pass -/

/-- A second pass finds the calls that stand inside the arguments of the first one,
    and no others. It stops where the first one did, at the head of the same tail. -/
theorem Segments.bodies_and_openRest?_replaced {s : Text} {g : Segmentation}
    (hg : Segments CallHead.withOpacity.text s g) :
    (Segmentation.ofText .withOpacity (g.replaced .withOpacity)).bodies =
        g.calls.flatMap (fun c => (Segmentation.ofText .withOpacity c.body.trim).bodies) ∧
      (Segmentation.ofText .withOpacity (g.replaced .withOpacity)).openRest? = g.openRest? := by
  induction hg with
  | @clear s absent =>
      have hsame : Segmentation.replaced .withOpacity ⟨[], .clear s⟩ = s := rfl
      rw [hsame, ← (Segments.clear absent).eq_ofText]
      exact ⟨rfl, rfl⟩
  | @unclosed gap rest first isOpen =>
      -- The pass stops at a head that stays open, and so does the next one.
      have hsame : Segmentation.replaced .withOpacity ⟨[], .unclosed gap rest
          (1 + rest.count '(' - rest.count ')')⟩ =
            gap ++ (CallHead.withOpacity.text ++ rest) := rfl
      rw [hsame, ← (Segments.unclosed first isOpen).eq_ofText]
      exact ⟨rfl, rfl⟩
  | @call gap body rest g first balanced _ ih =>
      -- The gap and the template hold no head. The argument is balanced, so it has
      -- no unclosed head that could reach into the text behind it.
      have hgap := first.not_infix CallHead.withOpacity.text_ne_nil
      rcases (segments_ofText .withOpacity body.trim).tail_eq_clear CallHead.isPlain_withOpacity
        balanced.trim.covered balanced.trim.total with ⟨u, hu⟩
      rw [Segmentation.replaced_cons, Call.replaced, List.append_assoc,
        Segmentation.ofText_withAlpha hgap hu]
      simp only [Segmentation.bodies_prepend, Segmentation.bodies_append,
        Segmentation.openRest?_prepend, Segmentation.openRest?_append, ih]
      exact ⟨rfl, rfl⟩

/-- A second pass ends with as many parentheses open as the first one. -/
theorem Segments.openDepth?_replaced {s : Text} {g : Segmentation}
    (hg : Segments CallHead.withOpacity.text s g) :
    (Segmentation.ofText .withOpacity (g.replaced .withOpacity)).openDepth? = g.openDepth? := by
  rw [(segments_ofText .withOpacity _).openDepth?_eq, hg.openDepth?_eq,
    hg.bodies_and_openRest?_replaced.2]

/-- A second pass replaces what passes over the arguments of the first one would
    replace, taken together. -/
theorem Segments.length_calls_replaced {s : Text} {g : Segmentation}
    (hg : Segments CallHead.withOpacity.text s g) :
    (Segmentation.ofText .withOpacity (g.replaced .withOpacity)).calls.length =
      (g.calls.map fun c => (replaceCalls .withOpacity c.body.trim).replacements).sum := by
  have hlength := congrArg List.length hg.bodies_and_openRest?_replaced.1
  simp only [Segmentation.bodies, List.length_map, List.length_flatMap] at hlength
  exact hlength

-- A pass replaces nothing in a text that closes all it opens exactly when the head
-- does not occur there.
theorem replacements_eq_zero_iff_of_balanced {s : Text} (hs : s.Balanced) :
    (replaceCalls .withOpacity s).replacements = 0 ↔ ¬CallHead.withOpacity.text <:+: s := by
  have hseg := segments_ofText .withOpacity s
  rcases hseg.tail_eq_clear CallHead.isPlain_withOpacity hs.covered hs.total with ⟨u, hu⟩
  constructor
  · intro hzero
    have hg : Segmentation.ofText .withOpacity s = ⟨[], .clear u⟩ := by
      rw [← hu, ← List.eq_nil_of_length_eq_zero hzero]
    have hsource := Segmentation.source_ofText .withOpacity s
    rw [hg] at hseg hsource
    cases hseg with
    | clear absent => exact absent
  · intro absent
    rw [replaceCalls, ← (Segments.clear absent).eq_ofText]
    rfl

/-- A second pass leaves the result of the first one alone exactly when no
    argument that the first one moved holds the head. -/
theorem second_pass_unchanged_iff (s : Text) :
    (replaceCalls .withOpacity (replaceCalls .withOpacity s).text).changed = false ↔
      ∀ c ∈ (Segmentation.ofText .withOpacity s).calls,
        ¬CallHead.withOpacity.text <:+: c.body.trim := by
  have hseg := segments_ofText .withOpacity s
  have hzero : (replaceCalls .withOpacity (replaceCalls .withOpacity s).text).changed = false ↔
      ((Segmentation.ofText .withOpacity s).calls.map fun c =>
        (replaceCalls .withOpacity c.body.trim).replacements).sum = 0 := by
    rw [← hseg.length_calls_replaced]
    exact Outcome.changed_eq_false_iff _
  rw [hzero, List.sum_eq_zero_iff_forall_eq_nat, List.forall_mem_map]
  refine forall₂_congr fun c hc => ?_
  exact replacements_eq_zero_iff_of_balanced (hseg.balanced_of_mem hc).trim

end Codemod
