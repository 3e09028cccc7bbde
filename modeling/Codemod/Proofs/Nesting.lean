import Codemod.Proofs.SecondPass
import Codemod.Proofs.Storage

/-!
# Nested Calls

How many passes a text takes.

A pass moves an argument as it stands, with the calls inside it, and the next
pass replaces these. Each pass therefore takes off one level of calls, and the
number of levels is the number of passes that have something to replace.

`nestingDepth` counts the levels of the calls that a pass replaces. A call
behind a head that nothing closes is never reached, and is not counted. That the
number goes down by one with each pass is a statement about two maxima over
different lists of arguments. It is proved for bounds instead of values: what is
at most `k` after a pass was at most `k + 1` before it, and no maximum has to be
computed. A bound of zero says that there is nothing to replace, and that gives
the rest.

## Main definitions

* `nestingDepth`: The number of levels of calls.

## Theorems

* `nestingDepth_rewriteText_le_iff`: A pass takes off one level.
* `replacements_pos_iff`: Which passes replace anything.
* `openDepth?_rewriteText_iterate`: All passes end the same way.
* `occurrence_of_replacements_eq_zero`: Where a head is left in the end.
* `passes_until_fixed`: The number of passes to a fixed point.
-/

namespace Codemod

/-! ## Levels of calls -/

/-- The number of levels of calls: none in a text without a call to replace, else
    one more than in the argument that has most of them. -/
def nestingDepth (s : Text) : Nat :=
  if (replaceCalls .withOpacity s).replacements = 0 then 0
  else 1 + ((Segmentation.ofText .withOpacity s).calls.attach.map
    fun c => nestingDepth c.1.body.trim).foldr max 0
termination_by s.length
decreasing_by exact Segmentation.length_argument_lt c.2

theorem foldr_max_le_iff {xs : List Nat} {k : Nat} : xs.foldr max 0 ≤ k ↔ ∀ x ∈ xs, x ≤ k := by
  induction xs with
  | nil => simp
  | cons x xs ih => rw [List.foldr_cons, Nat.max_le, ih, List.forall_mem_cons]

theorem replacements_eq_zero_iff {h : CallHead} {s : Text} :
    (replaceCalls h s).replacements = 0 ↔ (Segmentation.ofText h s).bodies = [] := by
  rw [Segmentation.bodies, List.map_eq_nil_iff, ← List.length_eq_zero_iff]
  rfl

theorem nestingDepth_eq_zero_iff {s : Text} :
    nestingDepth s = 0 ↔ (replaceCalls .withOpacity s).replacements = 0 := by
  rw [nestingDepth, ite_eq_left_iff]
  omega

theorem nestingDepth_le_succ_iff {s : Text} {k : Nat} :
    nestingDepth s ≤ k + 1 ↔
      ∀ b ∈ (Segmentation.ofText .withOpacity s).bodies, nestingDepth b.trim ≤ k := by
  rw [nestingDepth, List.attach_map_val (f := fun c : Call => nestingDepth c.body.trim)]
  by_cases hzero : (replaceCalls .withOpacity s).replacements = 0
  · have hcalls : (Segmentation.ofText .withOpacity s).calls = [] :=
      List.eq_nil_of_length_eq_zero hzero
    rw [if_pos hzero, Segmentation.bodies, hcalls]
    simp
  · rw [if_neg hzero, Nat.add_comm, Nat.add_le_add_iff_right, foldr_max_le_iff,
      Segmentation.bodies, List.forall_mem_map, List.forall_mem_map]

/-! ## Levels after passes -/

theorem bodies_rewriteText (s : Text) :
    (Segmentation.ofText .withOpacity (rewriteText s)).bodies =
      (Segmentation.ofText .withOpacity s).calls.flatMap fun c =>
        (Segmentation.ofText .withOpacity c.body.trim).bodies :=
  (segments_ofText .withOpacity s).bodies_and_openRest?_replaced.1

/-- A pass takes off one level of calls, if there is one. -/
theorem nestingDepth_rewriteText_le_iff {s : Text} {k : Nat} :
    nestingDepth (rewriteText s) ≤ k ↔ nestingDepth s ≤ k + 1 := by
  -- What the next pass replaces are the calls in the arguments of this one.
  cases k with
  | zero =>
      rw [Nat.le_zero, nestingDepth_eq_zero_iff, replacements_eq_zero_iff, bodies_rewriteText,
        List.flatMap_eq_nil_iff, nestingDepth_le_succ_iff, Segmentation.bodies, List.forall_mem_map]
      simp only [Nat.le_zero, nestingDepth_eq_zero_iff, replacements_eq_zero_iff]
  | succ k =>
      rw [nestingDepth_le_succ_iff, bodies_rewriteText, List.forall_mem_flatMap,
        nestingDepth_le_succ_iff, Segmentation.bodies, List.forall_mem_map]
      simp only [nestingDepth_le_succ_iff]

theorem nestingDepth_rewriteText_iterate_le_iff {s : Text} {k n : Nat} :
    nestingDepth (rewriteText^[n] s) ≤ k ↔ nestingDepth s ≤ k + n := by
  induction n generalizing k with
  | zero => rw [Function.iterate_zero_apply, Nat.add_zero]
  | succ n ih =>
      rw [Function.iterate_succ_apply', nestingDepth_rewriteText_le_iff, ih, Nat.add_right_comm,
        Nat.add_assoc]

/-- Behind `n` passes, another one has something to replace exactly in a text with
    more than `n` levels of calls. -/
theorem replacements_pos_iff {s : Text} {n : Nat} :
    0 < (replaceCalls .withOpacity (rewriteText^[n] s)).replacements ↔ n < nestingDepth s := by
  rw [Nat.pos_iff_ne_zero, ne_eq, ← nestingDepth_eq_zero_iff, ← Nat.le_zero,
    nestingDepth_rewriteText_iterate_le_iff, Nat.zero_add, Nat.not_le]

theorem openDepth?_rewriteText_iterate (s : Text) (n : Nat) :
    (Segmentation.ofText .withOpacity (rewriteText^[n] s)).openDepth? =
      (Segmentation.ofText .withOpacity s).openDepth? := by
  induction n with
  | zero => rfl
  | succ n ih =>
      rw [Function.iterate_succ_apply', ← ih]
      exact (segments_ofText .withOpacity _).openDepth?_replaced

/-! ## The end of the passes -/

theorem depth_of_unbalanced? (h : CallHead) (s : Text) :
    (replaceCalls h s).unbalanced?.map Unbalanced.depth =
      (Segmentation.ofText h s).openDepth? := by
  rw [replaceCalls]
  rcases Segmentation.ofText h s with ⟨calls, _ | _⟩ <;> rfl

/-- A text without a call to replace holds the head at most where the pass stops,
    and behind that place. -/
theorem occurrence_of_replacements_eq_zero {h : CallHead} {s : Text}
    (hs : (replaceCalls h s).replacements = 0) :
    match (replaceCalls h s).unbalancedAt? with
    | none => ¬h.text <:+: s
    | some offset => ∀ a b : Text, s = a ++ (h.text ++ b) → offset ≤ a.byteLength := by
  have hseg := segments_ofText h s
  rw [replaceCalls] at hs ⊢
  generalize Segmentation.ofText h s = g at hseg hs
  cases hseg with
  | clear absent => exact absent
  | @unclosed gap rest first isOpen =>
      intro a b e
      exact Text.byteLength_le_of_prefix (first.gap_prefix e)
  | call => cases hs

theorem getElem?_passes {h : CallHead} {s : Text} {n k : Nat} (hk : k < n) :
    (passes h n s)[k]? =
      some (replaceCalls h ((fun t => (replaceCalls h t).text)^[k] s)) := by
  induction n generalizing s k with
  | zero => cases hk
  | succ n ih =>
      cases k with
      | zero => rfl
      | succ k => exact ih (Nat.lt_of_succ_lt_succ hk)

/-- Of the passes over a text and over their own results, the first ones replace
    something, as many as the text has levels of calls, and no later one does. All
    of them end the same way, with the same number of parentheses open. Behind the
    passes that replace something, the text stays as it is. It holds no head then,
    or none in front of the one that nothing closes. -/
theorem passes_until_fixed (s : Text) :
    (∀ n k, k < n → ∃ o, (passes .withOpacity n s)[k]? = some o ∧
      (0 < o.replacements ↔ k + 1 ≤ nestingDepth s) ∧
      o.unbalanced?.map Unbalanced.depth =
        (replaceCalls .withOpacity s).unbalanced?.map Unbalanced.depth) ∧
    let final := rewriteText^[nestingDepth s] s
    rewriteText final = final ∧
      match (replaceCalls .withOpacity final).unbalancedAt? with
      | none => ¬CallHead.withOpacity.text <:+: final
      | some offset =>
        ∀ a b : Text, final = a ++ (CallHead.withOpacity.text ++ b) → offset ≤ a.byteLength := by
  refine ⟨fun n k hk => ⟨_, getElem?_passes hk, replacements_pos_iff, ?_⟩, ?_⟩
  · rw [depth_of_unbalanced?, depth_of_unbalanced?]
    exact openDepth?_rewriteText_iterate s k
  · intro final
    have hidle : (replaceCalls .withOpacity final).replacements = 0 :=
      Nat.eq_zero_of_not_pos fun h => Nat.lt_irrefl _ (replacements_pos_iff.1 h)
    exact ⟨rewriteText_of_not_changed ((Outcome.changed_eq_false_iff _).2 hidle),
      occurrence_of_replacements_eq_zero hidle⟩

-- Two calls side by side are replaced by the same pass, and a call behind a head
-- that nothing closes by none.
example : nestingDepth ".withOpacity(.withOpacity(1) + .withOpacity(2))".toList = 2 ∧
    nestingDepth ".withOpacity(1).withOpacity(.withOpacity(2)".toList = 1 := by decide +kernel

end Codemod
