import Codemod.Proofs.SecondPass
import Codemod.Proofs.Storage

/-!
# Counting Characters over a Pass

How often a character stands in the result of a pass.

The replacement of a call is made of a few fixed characters and of the argument.
A character that is not among the fixed ones is in the result only where it was
in the text. It can be missing only at the ends of an argument, which are trimmed,
and in a head that is replaced, where it is missing for certain.

## Theorems

* `count_withAlpha`: A replaced call has such a character from its argument.
* `count_flatMap_replaced_add`: What calls lose of it.
* `count_replaceCalls_add_le`: What a pass does not add, and what it takes away.
-/

namespace Codemod

variable {c : Char}

-- A character that the replacement has none of is counted in its argument alone.
theorem count_withAlpha (hc : c ∉ opening ++ closing) (expr : Text) :
    (withAlpha expr).count c = expr.count c := by
  rcases not_or.1 (mt List.mem_append.2 hc) with ⟨hopening, hclosing⟩
  rw [withAlpha_eq, List.count_append, List.count_append, List.count_eq_zero.2 hopening,
    List.count_eq_zero.2 hclosing, Nat.zero_add, Nat.add_zero]

theorem count_trim_le (c : Char) (t : Text) : t.trim.count c ≤ t.count c := by
  rcases t.trim_decompose with ⟨l, r, ht, -, -⟩
  have hcount := congrArg (List.count c) ht
  rw [List.count_append, List.count_append] at hcount
  omega

theorem Call.count_replaced_add (hc : c ∉ opening ++ closing) (h : CallHead) (x : Call) :
    x.replaced.count c + (h.text.count c + (x.body.count c - x.body.trim.count c)) =
      (x.source h).count c := by
  have htrim := count_trim_le c x.body
  have hclose : [')'].count c = 0 := by
    rw [List.count_eq_zero, List.mem_singleton]
    rintro rfl
    exact hc (by decide)
  simp only [replaced, source, List.count_append, count_withAlpha hc, hclose]
  omega

/-- Calls lose such a character with their heads and where their arguments are
    trimmed, and nowhere else. -/
theorem count_flatMap_replaced_add (hc : c ∉ opening ++ closing) (h : CallHead)
    (calls : List Call) :
    (calls.flatMap Call.replaced).count c + (calls.length * h.text.count c +
        (calls.map fun x => x.body.count c - x.body.trim.count c).sum) =
      (calls.flatMap (Call.source h)).count c := by
  induction calls with
  | nil => simp
  | cons x calls ih =>
      have hx := x.count_replaced_add hc h
      simp only [List.flatMap_cons, List.map_cons, List.sum_cons, List.count_append,
        List.length_cons, Nat.succ_mul]
      omega

/-- A pass adds no character that the replacement has none of, and it takes away
    those that stand in the heads it replaces. -/
theorem count_replaceCalls_add_le (hc : c ∉ opening ++ closing) (h : CallHead) (s : Text) :
    (replaceCalls h s).text.count c + (replaceCalls h s).replacements * h.text.count c ≤
      s.count c := by
  have hcalls := count_flatMap_replaced_add hc h (Segmentation.ofText h s).calls
  have hsource := congrArg (List.count c) (Segmentation.source_ofText h s)
  rw [Segmentation.source, List.count_append] at hsource
  rw [text_replaceCalls, List.count_append, replaceCalls, Segmentation.outcome]
  dsimp only
  omega

theorem count_rewriteText_le (hc : c ∉ opening ++ closing) (t : Text) :
    (rewriteText t).count c ≤ t.count c :=
  Nat.le_of_add_right_le (count_replaceCalls_add_le hc .withOpacity t)

theorem count_rewriteText_iterate_le (hc : c ∉ opening ++ closing) (n : Nat) (t : Text) :
    (rewriteText^[n] t).count c ≤ t.count c := by
  induction n with
  | zero => exact Nat.le_refl _
  | succ n ih =>
      rw [Function.iterate_succ_apply']
      exact Nat.le_trans (count_rewriteText_le hc _) ih

end Codemod
